import TronKernel.Lib.CircularBuffer
import TronKernel.Lib.Runs

/-!
# `Kernel/keyboardDriver.c`: the ring of typed characters

`push` and `pop` work on a ring of `BUF_SIZE` characters, `readBuf` pops until it has `count` of
them or `pop` gives `-1`, and `saveKey` turns a scan code into at most one `push`. A `char` is
signed, so the character `-1` looks to `readBuf` like an empty ring.

A run of `push` and `readBuf` calls is kept with what was pushed while there was room and what was
delivered. It delivers in order what was pushed, each call as much as it can, exactly if no
`readBuf` gets to the character `-1` (`ring_is_fifo`). `saveKey` pushes that character for one scan
code only (`saveKey_pushes_sentinel`).
-/

namespace TronKernel.Keyboard

open CircularBuffer Runs

abbrev BUF_SIZE : ℕ := 64

/-- `CircBuffer`. -/
structure CircBuffer where
  keys : ℕ → Int8
  read : ℕ
  write : ℕ
  size : ℕ

/-- `static CircBuffer buffer = {{0}, 0, 0, 0}`. -/
def emptyBuffer : CircBuffer := ⟨fun _ => 0, 0, 0, 0⟩

/-- `push`. -/
def push (b : CircBuffer) (c : Int8) : CircBuffer :=
  if b.size < BUF_SIZE then
    let b :=
      { b with
        keys := Function.update b.keys b.write c
        write := b.write + 1
        size := b.size + 1 }
    if b.write = BUF_SIZE then { b with write := 0 } else b
  else b

/-- `pop`: the ring and the `int` it returns. -/
def pop (b : CircBuffer) : CircBuffer × ℤ :=
  if b.size > 0 then
    let c := (b.keys b.read).toInt
    let b := { b with read := b.read + 1, size := b.size - 1 }
    (if b.read = BUF_SIZE then { b with read := 0 } else b, c)
  else (b, -1)

/-- The loop of `readBuf` from index `i` on, with `n` rounds left: the ring, the characters stored
from `str[i]` on, and the index at the end. -/
def readLoop : ℕ → ℕ → CircBuffer → CircBuffer × List Int8 × ℕ
  | 0, i, b => (b, [], i)
  | n + 1, i, b =>
    let (b, c) := pop b
    if c = -1 then (b, [], i)
    else
      let (b, str, k) := readLoop n (i + 1) b
      (b, Int8.ofInt c :: str, k)

/-- `readBuf`: the ring, the characters stored in `str`, and the returned number. -/
def readBuf (b : CircBuffer) (count : UInt32) : CircBuffer × List Int8 × ℕ :=
  readLoop count.toNat 0 b

/-- `getCount`. -/
def getCount (b : CircBuffer) : UInt8 := UInt8.ofNat b.size

/-! ## `saveKey` -/

/-- `kbd_US`. -/
def kbdUS : List UInt8 :=
  [0, 27, 49, 50, 51, 52, 53, 54, 55, 56, 57, 48, 45, 61, 8,
    9, 113, 119, 101, 114, 116, 121, 117, 105, 111, 112, 91, 93, 10,
    5, 97, 115, 100, 102, 103, 104, 106, 107, 108, 59, 39, 96, 94, 92, 122, 120, 99, 118, 98, 110,
    109, 44, 46, 47, 94,
    42, 94, 32, 94, 94,
    94, 94, 94, 94, 94, 94, 94, 94, 94,
    94, 94, 94, 3, 94, 45, 1, 94, 2, 43, 94, 4, 94, 94, 94, 94, 94, 94, 94, 94, 94]

/-- `getKey`. -/
def getKey (id : UInt8) : UInt8 :=
  if id ≥ 128 then 255 else kbdUS.getD id.toNat 0

/-- The static variables of the driver. -/
structure Driver where
  buffer : CircBuffer
  shift : Bool
  ctrl : Bool

/-- What `saveKey` does with a scan code besides setting `shift` and `ctrl`. -/
inductive KeyAction where
  | nothing
  | push (c : Int8)
  | killForeground
deriving DecidableEq

/-- The branches of `saveKey`: the new `shift` and `ctrl`, and the call that is made. -/
def keyAction (shift ctrl : Bool) (scanCode : UInt8) : Bool × Bool × KeyAction :=
  if scanCode = 0b111000 then (shift, ctrl, .nothing)
  else if scanCode = 1 then (shift, ctrl, .push 10)
  else if scanCode = 0x2A ∨ scanCode = 0x36 then (true, ctrl, .nothing)
  else if scanCode = 0xAA ∨ scanCode = 0xB6 then (false, ctrl, .nothing)
  else if scanCode = 0xE0 ∨ scanCode = 0x0 then (shift, false, .nothing)
  else if scanCode = 0x1D then (shift, true, .nothing)
  else if shift ∧ scanCode = 0x8 then (shift, ctrl, .push 38)
  else if shift ∧ scanCode = 0x2B then (shift, ctrl, .push 124)
  else if ctrl ∧ getKey scanCode = 99 then (shift, false, .killForeground)
  else if ctrl ∧ getKey scanCode = 100 then (shift, false, .push 4)
  else if scanCode > 128 then (shift, ctrl, .nothing)
  else (shift, ctrl, .push (Int8.ofInt ((getKey scanCode).toNat - if shift then 32 else 0)))

/-- `saveKey`. Killing the foreground process does not touch the driver's variables. -/
def saveKey (d : Driver) (scanCode : UInt8) : Driver :=
  let (shift, ctrl, action) := keyAction d.shift d.ctrl scanCode
  let buffer :=
    match action with
    | .push c => push d.buffer c
    | _ => d.buffer
  ⟨buffer, shift, ctrl⟩

/-- The one scan code that pushes the character `-1`. -/
theorem saveKey_pushes_sentinel (shift ctrl : Bool) (scanCode : UInt8) :
    (keyAction shift ctrl scanCode).2.2 = .push (-1) ↔ scanCode = 0x80 ∧ shift = false := by
  obtain ⟨⟨code⟩⟩ := scanCode
  revert shift ctrl code
  decide +kernel

/-! ## The ring as a queue -/

variable {b : CircBuffer} {n i : ℕ}

/-- The indices are in bounds and `write` is where the last character ends. -/
structure Within (b : CircBuffer) : Prop where
  read_lt : b.read < BUF_SIZE
  write_lt : b.write < BUF_SIZE
  size_le : b.size ≤ BUF_SIZE
  write_eq : b.write = (b.read + b.size) % BUF_SIZE

/-- The characters in the ring, the oldest first. -/
def contents (b : CircBuffer) : List Int8 := window b.keys BUF_SIZE b.read b.size

theorem within_emptyBuffer : Within emptyBuffer := ⟨by decide, by decide, by decide, by decide⟩

@[simp] theorem length_contents (b : CircBuffer) : (contents b).length = b.size := length_window

theorem push_full (h : b.size = BUF_SIZE) (c : Int8) : push b c = b := by
  rw [push, if_neg (by omega)]

/-- A push below the capacity appends. -/
theorem push_room (h : Within b) (hroom : b.size < BUF_SIZE) (c : Int8) :
    Within (push b c) ∧ contents (push b c) = contents b ++ [c] := by
  obtain ⟨hread, hwrite, hsize, heq⟩ := h
  have hcells : window (Function.update b.keys ((b.read + b.size) % BUF_SIZE) c) BUF_SIZE b.read
      (b.size + 1) = window b.keys BUF_SIZE b.read b.size ++ [c] := window_push c hroom
  rw [← heq] at hcells
  rw [push, if_pos hroom]
  simp only [BUF_SIZE] at *
  split_ifs with hend
  · refine ⟨?_, hcells⟩
    constructor <;> simp only [BUF_SIZE] <;> omega
  · refine ⟨?_, hcells⟩
    constructor <;> simp only [BUF_SIZE] <;> omega

theorem within_push (h : Within b) (c : Int8) : Within (push b c) := by
  by_cases hroom : b.size < BUF_SIZE
  · exact (push_room h hroom c).1
  · rw [push, if_neg hroom]
    exact h

theorem pop_empty (h : b.size = 0) : pop b = (b, -1) := by
  rw [pop, if_neg (by omega)]

/-- A pop of a ring that is not empty takes the oldest character. -/
theorem pop_some (h : Within b) (hpos : 0 < b.size) :
    ∃ c cs, contents b = c :: cs ∧ (pop b).2 = c.toInt ∧ Within (pop b).1 ∧
      contents (pop b).1 = cs := by
  obtain ⟨hread, hwrite, hsize, heq⟩ := h
  obtain ⟨k, hk⟩ : ∃ k, b.size = k + 1 := ⟨b.size - 1, by omega⟩
  have hcells : contents b =
      b.keys b.read :: window b.keys BUF_SIZE (b.read + 1) k := by
    rw [contents, hk, window_succ, Nat.mod_eq_of_lt hread]
  refine ⟨_, _, hcells, by rw [pop, if_pos hpos], ?_⟩
  rw [pop, if_pos hpos, hk, Nat.add_sub_cancel]
  simp only [BUF_SIZE] at *
  split_ifs with hend
  · have hzero : 0 % 64 = (b.read + 1) % 64 := by rw [hend]
    refine ⟨?_, window_modEq hzero⟩
    constructor <;> simp only [BUF_SIZE] <;> omega
  · refine ⟨?_, rfl⟩
    constructor <;> simp only [BUF_SIZE] <;> omega

theorem toInt_eq_sentinel {c : Int8} : c.toInt = -1 ↔ c = -1 := by
  rw [← Int8.toInt_inj]
  rfl

theorem readLoop_succ (n i : ℕ) (b : CircBuffer) :
    readLoop (n + 1) i b =
      if (pop b).2 = -1 then ((pop b).1, [], i)
      else
        ((readLoop n (i + 1) (pop b).1).1,
          Int8.ofInt (pop b).2 :: (readLoop n (i + 1) (pop b).1).2.1,
          (readLoop n (i + 1) (pop b).1).2.2) := rfl

/-- The returned number is that of the stored characters. -/
theorem readLoop_count (n i : ℕ) (b : CircBuffer) :
    (readLoop n i b).2.2 = i + (readLoop n i b).2.1.length := by
  induction n generalizing i b with
  | zero => rfl
  | succ n ih =>
    rw [readLoop_succ]
    split_ifs
    · rfl
    · simp only [ih, List.length_cons]
      omega

theorem within_readLoop (h : Within b) (n i : ℕ) : Within (readLoop n i b).1 := by
  induction n generalizing i b with
  | zero => exact h
  | succ n ih =>
    rw [readLoop_succ]
    have hpop : Within (pop b).1 := by
      rcases Nat.eq_zero_or_pos b.size with h0 | hpos
      · rw [pop_empty h0]
        exact h
      · obtain ⟨-, -, -, -, hpop, -⟩ := pop_some h hpos
        exact hpop
    split_ifs
    · exact hpop
    · exact ih hpop _

/-- Without the character `-1` the loop takes the first `n` characters, or all if there are
fewer. -/
theorem readLoop_takes (h : Within b) (hclean : (-1 : Int8) ∉ (contents b).take n) :
    (readLoop n i b).2.1 = (contents b).take n ∧
      contents (readLoop n i b).1 = (contents b).drop n := by
  induction n generalizing i b with
  | zero => exact ⟨rfl, rfl⟩
  | succ n ih =>
    rw [readLoop_succ]
    rcases Nat.eq_zero_or_pos b.size with h0 | hpos
    · have hnil : contents b = [] := List.length_eq_zero_iff.mp (by rw [length_contents, h0])
      rw [pop_empty h0, if_pos rfl, hnil]
      exact ⟨List.take_nil.symm, List.drop_nil.symm⟩
    · obtain ⟨c, cs, hb, hval, hwithin, hrest⟩ := pop_some h hpos
      rw [hb, List.take_succ_cons, List.mem_cons, not_or] at hclean
      have hne : (pop b).2 ≠ -1 := fun heq =>
        hclean.1 (toInt_eq_sentinel.mp (hval.symm.trans heq)).symm
      obtain ⟨hstr, hleft⟩ := ih (i := i + 1) hwithin (by rw [hrest]; exact hclean.2)
      rw [if_neg hne, hb]
      simp only [hstr, hleft, hrest, hval, Int8.ofInt_toInt, List.take_succ_cons,
        List.drop_succ_cons, and_self]

/-- With the character `-1` among them the loop stops too early, and swallows it. -/
theorem readLoop_swallows (h : Within b) (hhit : (-1 : Int8) ∈ (contents b).take n) :
    (readLoop n i b).2.1.length < n ∧
      (readLoop n i b).1.size + (readLoop n i b).2.1.length < b.size := by
  induction n generalizing i b with
  | zero => simp at hhit
  | succ n ih =>
    rw [readLoop_succ]
    have hpos : 0 < b.size := by
      rw [← length_contents]
      exact List.length_pos_of_mem (List.mem_of_mem_take hhit)
    obtain ⟨c, cs, hb, hval, hwithin, hrest⟩ := pop_some h hpos
    have hsize : b.size = (pop b).1.size + 1 := by
      rw [← length_contents, hb, List.length_cons, ← hrest, length_contents]
    by_cases hc : c = -1
    · rw [if_pos (hval.trans (toInt_eq_sentinel.mpr hc))]
      simp only [List.length_nil]
      omega
    · rw [hb, List.take_succ_cons, List.mem_cons] at hhit
      have hlt := ih (i := i + 1) hwithin (by
        rw [hrest]
        exact hhit.resolve_left fun heq => hc heq.symm)
      rw [if_neg fun heq => hc (toInt_eq_sentinel.mp (hval.symm.trans heq))]
      simp only [List.length_cons]
      omega

/-! ## Runs -/

/-- A call from outside: of `push`, or of `readBuf`. -/
inductive Call where
  | push (c : Int8)
  | readBuf (count : UInt32)
deriving DecidableEq

/-- The ring, the characters pushed while fewer than `BUF_SIZE` were pending, and the characters
delivered. -/
structure History where
  buffer : CircBuffer
  accepted : List Int8
  delivered : List Int8

def start : History := ⟨emptyBuffer, [], []⟩

/-- The number of characters that were accepted and not delivered. -/
def History.pending (s : History) : ℕ := s.accepted.length - s.delivered.length

def step (s : History) : Call → Option History
  | .push c =>
    some { s with
      buffer := push s.buffer c
      accepted := if s.pending < BUF_SIZE then s.accepted ++ [c] else s.accepted }
  | .readBuf count =>
    let (buffer, str, _) := readBuf s.buffer count
    some { s with buffer := buffer, delivered := s.delivered ++ str }

/-- A push on a full ring changes nothing, and one on a ring with room is kept. A `readBuf` delivers
the next characters that were accepted, as many as it can, and returns their number. -/
def Delivers (s : History) : Call → Prop
  | .push c => (s.pending = BUF_SIZE → push s.buffer c = s.buffer) ∧
      (s.pending < BUF_SIZE → (push s.buffer c).size = s.buffer.size + 1)
  | .readBuf count =>
    let (_, str, returned) := readBuf s.buffer count
    s.delivered ++ str <+: s.accepted ∧ str.length = min count.toNat s.pending ∧
      returned = str.length

/-- The call does not get to the character `-1`. -/
def Clean (s : History) : Call → Prop
  | .push _ => True
  | .readBuf count => (-1 : Int8) ∉ (s.accepted.drop s.delivered.length).take count.toNat

instance (s : History) : (c : Call) → Decidable (Clean s c)
  | .push _ => inferInstanceAs (Decidable True)
  | .readBuf count => inferInstanceAs
      (Decidable ((-1 : Int8) ∉ (s.accepted.drop s.delivered.length).take count.toNat))

/-- The ring holds what was accepted and not delivered. -/
structure Lossless (s : History) : Prop where
  within : Within s.buffer
  accepted : s.accepted = s.delivered ++ contents s.buffer

theorem Lossless.pending {s : History} (h : Lossless s) : s.pending = s.buffer.size := by
  rw [History.pending, h.accepted, List.length_append, length_contents, Nat.add_sub_cancel_left]

theorem Lossless.rest {s : History} (h : Lossless s) :
    s.accepted.drop s.delivered.length = contents s.buffer := by
  rw [h.accepted, List.drop_left]

/-- One call: it delivers what it should if and only if it is clean, and then the ring has lost
nothing. -/
theorem Lossless.step {s : History} (h : Lossless s) (c : Call) :
    (Delivers s c ↔ Clean s c) ∧ (Clean s c → ∀ s', step s c = some s' → Lossless s') := by
  obtain ⟨hwithin, haccepted⟩ := h
  have hpending := Lossless.pending ⟨hwithin, haccepted⟩
  have hrest := Lossless.rest ⟨hwithin, haccepted⟩
  cases c with
  | push c =>
    rw [Delivers, Clean, hpending]
    have hroom := push_room (b := s.buffer) hwithin
    refine ⟨iff_of_true ⟨fun hfull => push_full hfull c, fun hlt => ?_⟩ trivial, fun _ s' hs => ?_⟩
    · rw [← length_contents, (hroom hlt c).2, List.length_append, length_contents]
      rfl
    · obtain rfl := Option.some.inj hs
      refine ⟨within_push hwithin c, ?_⟩
      simp only [hpending]
      split_ifs with hlt
      · rw [(hroom hlt c).2, haccepted, List.append_assoc]
      · rw [push_full (Nat.le_antisymm hwithin.size_le (Nat.le_of_not_lt hlt)), haccepted]
  | readBuf count =>
    have hcount : (readBuf s.buffer count).2.2 = (readBuf s.buffer count).2.1.length := by
      rw [readBuf, readLoop_count, Nat.zero_add]
    rw [Clean, hrest]
    constructor
    · constructor
      · rintro ⟨-, hlength, -⟩ hhit
        have hlt := readLoop_swallows (i := 0) hwithin hhit
        rw [hpending] at hlength
        have hall : (readLoop count.toNat 0 s.buffer).2.1.length = min count.toNat s.buffer.size :=
          hlength
        omega
      · intro hclean
        obtain ⟨hstr, -⟩ := readLoop_takes (i := 0) hwithin hclean
        refine ⟨?_, ?_, hcount⟩
        · show s.delivered ++ (readLoop count.toNat 0 s.buffer).2.1 <+: s.accepted
          rw [hstr, haccepted, List.prefix_append_right_inj]
          exact List.take_prefix _ _
        · show (readLoop count.toNat 0 s.buffer).2.1.length = _
          rw [hstr, List.length_take, length_contents, hpending]
    · intro hclean s' hs
      obtain ⟨hstr, hleft⟩ := readLoop_takes (i := 0) hwithin hclean
      obtain rfl := Option.some.inj hs
      refine ⟨within_readLoop hwithin _ _, ?_⟩
      show s.accepted = s.delivered ++ (readLoop count.toNat 0 s.buffer).2.1 ++
        contents (readLoop count.toNat 0 s.buffer).1
      rw [hstr, hleft, List.append_assoc, List.take_append_drop, haccepted]

theorem within_step {s : History} (h : Within s.buffer) (c : Call) :
    ∃ s', step s c = some s' ∧ Within s'.buffer := by
  cases c with
  | push c => exact ⟨_, rfl, within_push h c⟩
  | readBuf count => exact ⟨_, rfl, within_readLoop h _ _⟩

/-- For any calls of `push` and `readBuf` the indices stay in bounds, and the ring is a lossless
queue if and only if no `readBuf` gets to the character `-1`. -/
theorem ring_is_fifo (calls : List Call) :
    (∃ s, run step start calls = some s ∧ Within s.buffer) ∧
      (Throughout step Delivers start calls ↔ Throughout step Clean start calls) := by
  have hstart : Lossless start := ⟨within_emptyBuffer, rfl⟩
  refine ⟨run_total (P := fun _ _ => True) within_emptyBuffer
    (throughout_of_forall fun _ _ => trivial) fun s c hs _ => within_step hs c, ?_, ?_⟩
  · intro h
    refine h.of_invariant hstart fun s c hs hc => ?_
    have hclean := (hs.step c).1.mp hc
    exact ⟨hclean, (hs.step c).2 hclean⟩
  · intro h
    exact h.of_invariant hstart fun s c hs hc => ⟨(hs.step c).1.mpr hc, (hs.step c).2 hc⟩

/-- The character `-1`, pushed for the scan code `0x80`, and a key behind it: a `readBuf` of two
characters delivers none. -/
theorem sentinel_swallowed :
    ¬ ∀ calls : List Call, Throughout step Delivers start calls := by
  intro hall
  obtain ⟨-, hrest⟩ := hall [.push (-1), .push 97, .readBuf 2]
  obtain ⟨-, hrest⟩ := hrest _ rfl
  obtain ⟨⟨-, hlength, -⟩, -⟩ := hrest _ rfl
  exact absurd hlength (by decide +kernel)

end TronKernel.Keyboard
