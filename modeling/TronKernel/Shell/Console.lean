import TronKernel.Interrupt.ReadLine
import TronKernel.Shell.LineEditor

/-!
# From the keys to the command line

`inputRead` gets its keys from `getChar`, `getChar` from a `sys_read` of two bytes, `sys_read` from
the ring of the keyboard driver, and the driver from the keyboard interrupt, which comes at any
time: in particular between the test of `getCount` and `readBuf`. Here they run together, one access
of the ring or one interrupt at a time. What `inputRead` has in its buffer is always the line that
the characters make which it has taken from the ring, and the ring has the others (`typed_line`).
-/

namespace TronKernel.Shell.Console

open Keyboard Runs
open LineEditor (Editor Edited lineOf Stops StopsFirst)
open Arguments (MAX_TERMINAL_CHARS)

/-- Where the shell is: in front of the test of `getCount`, in front of `readBuf`, or behind
`inputRead`. -/
inductive Place where
  | test
  | take
  | done
deriving DecidableEq

/-- The flags of the driver, the `sys_read` of `getChar` with the ring, and the variables of
`inputRead`. `typed` are the characters that the ring took in, those it held at first included, and
`got` what `getChar` returned. -/
structure State where
  shift : Bool
  ctrl : Bool
  reading : Reading
  editor : Editor
  c : Int8
  place : Place
  typed : List Int8
  got : List Int8

/-- The variables of the driver. -/
def State.driver (s : State) : Driver := ⟨s.reading.ring, s.shift, s.ctrl⟩

/-- `char c[2] = {1, 0}` in `getChar`. -/
def keyBuffer (j : ℤ) : Int8 := if j = 0 then 1 else 0

/-- The test of the loop in `inputRead`, and the beginning of `getChar`. -/
def awaitKey (s : State) : State :=
  if s.c ≠ LineEditor.NEWLINE ∧ s.editor.i < MAX_TERMINAL_CHARS - 1 then
    { s with reading := enter 2 s.reading.ring keyBuffer, place := .test }
  else { s with place := .done }

/-- The end of a round of `sys_read`: `getChar` returns and `inputRead` handles the key, or the loop
goes on. -/
def endRound (s : State) (r : Reading) : State :=
  if r.returned.isSome then
    awaitKey
      { s with
        reading := r
        editor := s.editor.key (r.buf 0)
        c := r.buf 0
        got := s.got ++ [r.buf 0] }
  else { s with reading := r, place := .test }

/-- The next access of the shell to the ring. -/
def poll (s : State) : State :=
  match s.place with
  | .test =>
    if getCount s.reading.ring ≠ 0 then { s with place := .take }
    else endRound s (finish 2 s.reading)
  | .take =>
    let r := takeKeys 2 s.reading
    endRound s
      (if r.buf (r.i.toInt - 1) = Keyboard.NEWLINE ∨ r.buf (r.i.toInt - 1) = 0 then endLine r
        else finish 2 r)
  | .done => s

/-- The keyboard interrupt. A process that it kills is another one. -/
def press (s : State) (scanCode : UInt8) : State :=
  let d := saveKey s.driver scanCode
  let typed :=
    match (keyAction s.shift s.ctrl scanCode).2.2 with
    | .push c => if s.reading.ring.size < BUF_SIZE then s.typed ++ [c] else s.typed
    | _ => s.typed
  { s with
    shift := d.shift
    ctrl := d.ctrl
    reading := { s.reading with ring := d.buffer }
    typed := typed }

inductive Event where
  | key (scanCode : UInt8)
  | poll
deriving DecidableEq

def step (s : State) : Event → Option State
  | .key scanCode => some (press s scanCode)
  | .poll => some (poll s)

/-- The shell calls `inputRead`. -/
def start (d : Driver) (buf : ℤ → Int8) : State :=
  awaitKey
    { shift := d.shift
      ctrl := d.ctrl
      reading := enter 2 d.buffer keyBuffer
      editor := Editor.store ⟨buf, [], 0⟩ 0
      c := 1
      place := .test
      typed := contents d.buffer
      got := [] }

/-! ## What is kept -/

/-- `getChar` returns a newline for a zero. -/
def deliver (c : Int8) : Int8 := if c = 0 then LineEditor.NEWLINE else c

variable {s : State} {read : List Int8}

/-- The line is that of the characters taken from the ring, in their order. -/
structure Line (s : State) (read : List Int8) : Prop where
  within : Within s.reading.ring
  clean : (-1 : Int8) ∉ s.typed
  queue : s.typed = read ++ contents s.reading.ring
  got : s.got = read.map deliver
  edited : Edited s.editor (lineOf s.got)
  last : s.c = s.got.getLast?.getD 1
  first : ∀ pre, pre <+: s.got → Stops pre → pre = s.got

/-- Between two accesses, no key of the current `getChar` has been read. -/
structure Kept (s : State) (read : List Int8) : Prop extends Line s read where
  done : s.place = .done ↔ Stops s.got
  fresh : s.place ≠ .done → s.reading.i = 0 ∧ s.reading.returned = none
  pending : s.place = .take → contents s.reading.ring ≠ []

theorem enter_two (ring : CircBuffer) (buf : ℤ → Int8) :
    enter 2 ring buf = ⟨ring, contents ring, buf, [], 0, none⟩ := rfl

/-- The flags, the place and the rest of the `sys_read` do not matter. -/
theorem Line.congr {s' : State} (h : Line s read) (hring : s'.reading.ring = s.reading.ring)
    (htyped : s'.typed = s.typed) (hgot : s'.got = s.got) (heditor : s'.editor = s.editor)
    (hc : s'.c = s.c) : Line s' read := by
  constructor
  · rw [hring]
    exact h.within
  · rw [htyped]
    exact h.clean
  · rw [htyped, hring]
    exact h.queue
  · rw [hgot]
    exact h.got
  · rw [heditor, hgot]
    exact h.edited
  · rw [hc, hgot]
    exact h.last
  · rw [hgot]
    exact h.first

theorem Line.awaitKey (h : Line s read) : Kept (awaitKey s) read := by
  have hmore := LineEditor.goesOn_iff h.edited h.last
  rw [Console.awaitKey]
  by_cases hstop : Stops s.got
  · rw [if_neg (hmore.not.mpr (not_not.mpr hstop))]
    exact ⟨h.congr rfl rfl rfl rfl rfl, iff_of_true rfl hstop, fun hne => absurd rfl hne,
      fun heq => Place.noConfusion heq⟩
  · rw [if_pos (hmore.mpr hstop), enter_two]
    exact ⟨h.congr rfl rfl rfl rfl rfl, iff_of_false Place.noConfusion hstop,
      fun _ => ⟨rfl, rfl⟩, fun heq => Place.noConfusion heq⟩

theorem kept_start {d : Driver} (hd : Within d.buffer) (hclean : (-1 : Int8) ∉ contents d.buffer)
    (buf : ℤ → Int8) : Kept (start d buf) [] := by
  apply Line.awaitKey
  exact ⟨hd, hclean, rfl, rfl, LineEditor.edited_empty buf, rfl,
    fun _ hpre _ => List.prefix_nil.mp hpre⟩

/-! ## Keys -/

theorem press_of_push {scanCode : UInt8} {c : Int8}
    (h : (keyAction s.shift s.ctrl scanCode).2.2 = .push c) :
    (press s scanCode).reading.ring = push s.reading.ring c ∧ (press s scanCode).typed =
      if s.reading.ring.size < BUF_SIZE then s.typed ++ [c] else s.typed := by
  simp only [press, saveKey, State.driver, h, and_self]

theorem press_of_not_push {scanCode : UInt8}
    (h : ∀ c, (keyAction s.shift s.ctrl scanCode).2.2 ≠ .push c) :
    (press s scanCode).reading.ring = s.reading.ring ∧ (press s scanCode).typed = s.typed := by
  cases haction : (keyAction s.shift s.ctrl scanCode).2.2 with
  | push c => exact absurd haction (h c)
  | nothing => simp only [press, saveKey, State.driver, haction, and_self]
  | killForeground => simp only [press, saveKey, State.driver, haction, and_self]

/-- A key leaves the shell where it is. -/
theorem Kept.press (h : Kept s read) {scanCode : UInt8} (hcode : scanCode ≠ 0x80) :
    Kept (press s scanCode) read := by
  by_cases hpush : ∃ c, (keyAction s.shift s.ctrl scanCode).2.2 = .push c
  · obtain ⟨c, hc⟩ := hpush
    obtain ⟨hring, htyped⟩ := press_of_push hc
    have hne : (-1 : Int8) ≠ c := fun heq =>
      hcode ((saveKey_pushes_sentinel s.shift s.ctrl scanCode).mp (by rw [hc, heq])).1
    by_cases hroom : s.reading.ring.size < BUF_SIZE
    · obtain ⟨hwithin, hcontents⟩ := push_room h.within hroom c
      rw [if_pos hroom] at htyped
      refine ⟨⟨?_, ?_, ?_, h.got, h.edited, h.last, h.first⟩, h.done, h.fresh, fun _ => ?_⟩
      · rw [hring]
        exact hwithin
      · rw [htyped, List.mem_append, List.mem_singleton, not_or]
        exact ⟨h.clean, hne⟩
      · rw [htyped, hring, hcontents, h.queue, List.append_assoc]
      · rw [hring, hcontents]
        exact List.concat_ne_nil _ _
    · -- a full ring drops the key
      rw [push, if_neg hroom] at hring
      rw [if_neg hroom] at htyped
      exact ⟨h.toLine.congr hring htyped rfl rfl rfl, h.done, h.fresh,
        by rw [hring]; exact h.pending⟩
  · obtain ⟨hring, htyped⟩ := press_of_not_push fun c hc => hpush ⟨c, hc⟩
    exact ⟨h.toLine.congr hring htyped rfl rfl rfl, h.done, h.fresh,
      by rw [hring]; exact h.pending⟩

/-! ## Accesses of the shell -/

/-- `getChar` returns a key that has been taken from the ring. -/
theorem Kept.endRound (h : Kept s read) (hopen : s.place ≠ .done) {r : Reading} {k : Int8}
    (hwithin : Within r.ring) (hring : contents s.reading.ring = k :: contents r.ring)
    (hreturned : r.returned.isSome) (hkey : r.buf 0 = deliver k) :
    Kept (endRound s r) (read ++ [k]) := by
  have hgo : ¬ Stops s.got := mt h.done.mpr hopen
  rw [Console.endRound, if_pos hreturned, hkey]
  apply Line.awaitKey
  have hgot : s.got ++ [deliver k] = (read ++ [k]).map deliver := by
    rw [h.got, List.map_append, List.map_singleton]
  refine ⟨hwithin, h.clean, ?_, hgot, ?_, ?_, fun pre hpre hstops => ?_⟩
  · rw [h.queue, hring, List.append_assoc, List.singleton_append]
  · rw [LineEditor.lineOf_append]
    apply h.edited.key
    have hshort := h.edited.short
    have hne := (not_or.mp hgo).2
    omega
  · simp
  · rcases List.prefix_concat_iff.mp hpre with rfl | hpre
    · rfl
    · exact absurd (h.first pre hpre hstops ▸ hstops) hgo

/-- `readBuf` takes one key, and the round ends the `sys_read`. -/
theorem Kept.take (h : Kept s read) (hplace : s.place = .take) :
    ∃ k, Kept (poll s) (read ++ [k]) := by
  have hopen : s.place ≠ .done := fun heq => Place.noConfusion (heq.symm.trans hplace)
  obtain ⟨hi, -⟩ := h.fresh hopen
  obtain ⟨k, ks, hring⟩ := List.exists_cons_of_ne_nil (h.pending hplace)
  have hspace : space 2 s.reading.i = 1 := by
    rw [hi]
    rfl
  have hclean : (-1 : Int8) ∉ (contents s.reading.ring).take (space 2 s.reading.i) := fun hmem =>
    h.clean (by rw [h.queue]; exact List.mem_append_right _ (List.mem_of_mem_take hmem))
  obtain ⟨hrest, hbuf, -, hindex⟩ := takeKeys_clean 2 h.within hclean
  have hsize : min 1 s.reading.ring.size = 1 := by
    rw [← length_contents, hring, List.length_cons]
    omega
  rw [hspace, hring] at hrest hbuf
  rw [hspace, hsize, hi] at hindex
  have hone : (takeKeys 2 s.reading).i = 1 := hindex
  have hkey : (takeKeys 2 s.reading).buf 0 = k := by
    rw [hbuf, hi]
    rfl
  have hwithin : Within (takeKeys 2 s.reading).ring := within_takeKeys h.within
  have hrest' : contents s.reading.ring = k :: contents (takeKeys 2 s.reading).ring := by
    rw [hrest, hring]
    rfl
  refine ⟨k, ?_⟩
  rw [Console.poll, hplace]
  simp only [hone, show (1 : Int32).toInt - 1 = 0 from rfl, hkey]
  by_cases hend : k = Keyboard.NEWLINE ∨ k = 0
  · rw [if_pos hend]
    refine h.endRound hopen hwithin hrest' rfl ?_
    rw [endLine, hone, deliver]
    simp only [show (1 : Int32).toInt - 1 = 0 from rfl, Function.update_self]
    rcases hend with rfl | rfl <;> rfl
  · rw [if_neg hend]
    obtain ⟨-, hzero⟩ := not_or.mp hend
    have hfull : ¬ (takeKeys 2 s.reading).i.toUInt32 < 2 - 1 := by
      rw [hone]
      decide
    have hfinish : finish 2 (takeKeys 2 s.reading) =
        { takeKeys 2 s.reading with
          buf := Function.update (takeKeys 2 s.reading).buf (takeKeys 2 s.reading).i.toInt 0
          written := (takeKeys 2 s.reading).written ++ [(takeKeys 2 s.reading).i.toInt]
          returned := some (takeKeys 2 s.reading).i } := if_neg hfull
    rw [hfinish]
    refine h.endRound hopen hwithin hrest' rfl ?_
    rw [deliver, if_neg hzero, hone]
    show Function.update (takeKeys 2 s.reading).buf 1 0 0 = k
    rw [Function.update_of_ne (by decide), hkey]

/-- An access of the shell takes at most one character. -/
theorem Kept.poll (h : Kept s read) : ∃ ks, Kept (poll s) (read ++ ks) := by
  cases hplace : s.place with
  | done =>
    refine ⟨[], ?_⟩
    rw [Console.poll, hplace, List.append_nil]
    exact h
  | take =>
    obtain ⟨k, hk⟩ := h.take hplace
    exact ⟨[k], hk⟩
  | test =>
    refine ⟨[], ?_⟩
    have hopen : s.place ≠ .done := fun heq => Place.noConfusion (heq.symm.trans hplace)
    have hgo : ¬ Stops s.got := mt h.done.mpr hopen
    obtain ⟨hi, hreturned⟩ := h.fresh hopen
    rw [Console.poll, hplace, List.append_nil]
    by_cases hcount : getCount s.reading.ring ≠ 0
    · simp only [if_pos hcount]
      exact ⟨h.toLine.congr rfl rfl rfl rfl rfl, iff_of_false Place.noConfusion hgo,
        fun _ => ⟨hi, hreturned⟩, fun _ => (getCount_ne_zero_iff h.within).mp hcount⟩
    · have hfinish : finish 2 s.reading = s.reading := by
        rw [finish, hi, if_pos (by decide)]
      simp only [if_neg hcount]
      rw [hfinish, Console.endRound, hreturned, if_neg (by decide)]
      exact ⟨h.toLine.congr rfl rfl rfl rfl rfl, iff_of_false Place.noConfusion hgo,
        fun _ => ⟨hi, hreturned⟩, fun heq => Place.noConfusion heq⟩

/-! ## Runs -/

theorem Kept.run {es : List Event} (hes : Event.key 0x80 ∉ es) (h : Kept s read) {s' : State}
    (hrun : run step s es = some s') : ∃ ks, Kept s' (read ++ ks) := by
  induction es generalizing s read with
  | nil =>
    obtain rfl := Option.some.inj hrun
    exact ⟨[], by rw [List.append_nil]; exact h⟩
  | cons e es ih =>
    rw [List.mem_cons, not_or] at hes
    rw [run_cons] at hrun
    cases e with
    | key scanCode =>
      have hcode : scanCode ≠ 0x80 := fun heq => hes.1 (by rw [heq])
      exact ih hes.2 (h.press hcode) hrun
    | poll =>
      obtain ⟨ks, hks⟩ := h.poll
      obtain ⟨ks', hks'⟩ := ih hes.2 hks hrun
      exact ⟨ks ++ ks', by rw [← List.append_assoc]; exact hks'⟩

/-- In every interleaving of keys and accesses of the shell, the line in the buffer is that of the
characters which the shell has taken so far, in the order in which they were typed, and the ring has
the others. `inputRead` returns exactly when these characters end a line. -/
theorem typed_line (d : Driver) (hd : Within d.buffer) (hclean : (-1 : Int8) ∉ contents d.buffer)
    (buf : ℤ → Int8) (es : List Event) (hes : Event.key 0x80 ∉ es) (s : State)
    (hrun : run step (start d buf) es = some s) :
    ∃ read, s.typed = read ++ contents s.reading.ring ∧
      Edited s.editor (lineOf (read.map deliver)) ∧
      (s.place = .done → StopsFirst (read.map deliver)) ∧
      (s.place ≠ .done → ∀ pre, pre <+: read.map deliver → ¬ Stops pre) := by
  obtain ⟨read, h⟩ := (kept_start hd hclean buf).run hes hrun
  rw [List.nil_append] at h
  refine ⟨read, h.queue, ?_, fun hdone => ?_, fun hopen pre hpre hstops => ?_⟩
  · rw [← h.got]
    exact h.edited
  · rw [← h.got]
    exact ⟨h.done.mp hdone, h.first⟩
  · rw [← h.got] at hpre
    exact hopen (h.done.mpr (h.first pre hpre hstops ▸ hstops))

/-- The keys `l`, `s`, the backspace and Enter. The last two come when the shell is about to take
`s`. -/
def someKeys : List Event :=
  [.key 0x26, .poll, .poll, .key 0x1F, .poll, .key 0x0E, .key 0x1C] ++ List.replicate 6 .poll

theorem typed_line_enter : ∃ s read,
    run step (start ⟨emptyBuffer, false, false⟩ fun _ => 0) someKeys = some s ∧ s.place = .done ∧
      s.typed = [108, 115, 8, 10] ∧ s.typed = read ++ contents s.reading.ring ∧
      Edited s.editor (lineOf (read.map deliver)) := by
  have hend : (run step (start ⟨emptyBuffer, false, false⟩ fun _ => 0) someKeys).map
      (fun s => decide (s.place = .done ∧ s.typed = [108, 115, 8, 10])) = some true := by
    decide +kernel
  obtain ⟨s, hrun, hs⟩ := Option.map_eq_some_iff.mp hend
  obtain ⟨hdone, htyped⟩ := of_decide_eq_true hs
  obtain ⟨read, hqueue, hedited, -⟩ := typed_line ⟨emptyBuffer, false, false⟩ within_emptyBuffer
    (by decide) (fun _ => 0) someKeys (by decide) s hrun
  exact ⟨s, read, hrun, hdone, htyped, hqueue, hedited⟩

end TronKernel.Shell.Console
