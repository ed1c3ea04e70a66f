import TronKernel.Shell.Arguments

/-!
# `inputRead`

The shell reads its line key by key: `getChar` returns a signed character, a backspace takes the
last character away, a key from the blank on is appended, and every other key is ignored. The
terminator is written anew at each change. The loop stops after a newline, or when the line has
`MAX_TERMINAL_CHARS - 1` characters. What it prints is left out. The buffer is a map from offsets,
and every store is recorded.

`inputRead_exact` gives the line as a fold over the keys (`lineOf`), and says where the reading
stops.
-/

namespace TronKernel.Shell.LineEditor

open Arguments (MAX_TERMINAL_CHARS)

def BACKSPACE : Int8 := 8

def NEWLINE : Int8 := 10

def BLANK : Int8 := 32

/-- The buffer by offsets, the offsets of the stores so far, and `i`. -/
structure Editor where
  buf : ℤ → Int8
  written : List ℤ
  i : ℤ

/-- `(*buf)[i] = c`. -/
def Editor.store (s : Editor) (c : Int8) : Editor :=
  { s with buf := Function.update s.buf s.i c, written := s.written ++ [s.i] }

/-- The body of the loop, for the key `c`. -/
def Editor.key (s : Editor) (c : Int8) : Editor :=
  if c = BACKSPACE then
    if s.i > 0 then Editor.store { s with i := s.i - 1 } 0 else s
  else if BLANK ≤ c then
    Editor.store { s.store c with i := s.i + 1 } 0
  else s

/-- The loop, with the keys that `getChar` returns. It ends with the keys it did not read, or waits
for the next one. -/
def inputLoop : Int8 → Editor → List Int8 → Editor × Option (List Int8)
  | c, s, keys =>
    if c ≠ NEWLINE ∧ s.i < MAX_TERMINAL_CHARS - 1 then
      match keys with
      | [] => (s, none)
      | key :: keys => inputLoop key (s.key key) keys
    else (s, some keys)

/-- `inputRead`. It returns `i`. -/
def inputRead (buf : ℤ → Int8) (keys : List Int8) : Editor × Option (List Int8) :=
  inputLoop 1 (Editor.store ⟨buf, [], 0⟩ 0) keys

/-! ## The edited line -/

/-- A key on a line. -/
def edit (text : List Int8) (key : Int8) : List Int8 :=
  if key = BACKSPACE then text.dropLast else if BLANK ≤ key then text ++ [key] else text

/-- The line after these keys. -/
def lineOf (keys : List Int8) : List Int8 := keys.foldl edit []

/-- The line ends with the last of these keys. -/
def Stops (keys : List Int8) : Prop :=
  keys.getLast? = some NEWLINE ∨ (lineOf keys).length = MAX_TERMINAL_CHARS - 1

/-- The keys end the line, and no fewer of them do. -/
def StopsFirst (keys : List Int8) : Prop :=
  Stops keys ∧ ∀ pre, pre <+: keys → Stops pre → pre = keys

variable {s : Editor} {text keys done rest : List Int8} {c : Int8}

/-- The buffer has the line as a string, and all stores so far were inside. -/
structure Edited (s : Editor) (text : List Int8) : Prop where
  index : s.i = text.length
  short : text.length < MAX_TERMINAL_CHARS
  clean : ∀ c ∈ text, BLANK ≤ c
  holds : ∀ j (hj : j < text.length), s.buf j = text[j]
  terminated : s.buf text.length = 0
  inside : ∀ o ∈ s.written, 0 ≤ o ∧ o < MAX_TERMINAL_CHARS

theorem lineOf_append (keys : List Int8) (key : Int8) :
    lineOf (keys ++ [key]) = edit (lineOf keys) key := List.foldl_concat ..

/-- A terminator behind a line. -/
theorem Edited.terminate (hindex : s.i = text.length) (hshort : text.length < MAX_TERMINAL_CHARS)
    (hclean : ∀ c ∈ text, BLANK ≤ c) (hholds : ∀ j (hj : j < text.length), s.buf j = text[j])
    (hinside : ∀ o ∈ s.written, 0 ≤ o ∧ o < MAX_TERMINAL_CHARS) : Edited (s.store 0) text where
  index := hindex
  short := hshort
  clean := hclean
  holds j hj := by
    have hne : (j : ℤ) ≠ s.i := by omega
    exact (Function.update_of_ne hne _ _).trans (hholds j hj)
  terminated := by
    rw [← hindex]
    exact Function.update_self _ _ _
  inside o ho := by
    rcases List.mem_append.mp ho with ho | ho
    · exact hinside o ho
    · obtain rfl := List.mem_singleton.mp ho
      omega

/-- The first characters of a line. -/
theorem Edited.cut (h : Edited s text) {n : ℕ} (hn : n ≤ text.length) :
    Edited (Editor.store { s with i := n } 0) (text.take n) := by
  have hlength : (text.take n).length = n := List.length_take_of_le hn
  have hshort := h.short
  refine Edited.terminate (by rw [hlength]) (by omega)
    (fun c hc => h.clean c (List.mem_of_mem_take hc)) (fun j hj => ?_) h.inside
  rw [List.getElem_take]
  exact h.holds j (by omega)

/-- A character behind a line. -/
theorem Edited.append (h : Edited s text) (hroom : text.length < MAX_TERMINAL_CHARS - 1)
    (hc : BLANK ≤ c) :
    Edited (Editor.store { s.store c with i := s.i + 1 } 0) (text ++ [c]) := by
  have hindex := h.index
  have hlength : (text ++ [c]).length = text.length + 1 := by simp
  refine Edited.terminate (by rw [hindex, hlength]; rfl) (by omega) (fun d hd => ?_)
    (fun j hj => ?_) (fun o ho => ?_)
  · rcases List.mem_append.mp hd with hd | hd
    · exact h.clean d hd
    · rwa [List.mem_singleton.mp hd]
  · by_cases hlast : j < text.length
    · have hne : (j : ℤ) ≠ s.i := by omega
      rw [List.getElem_append_left hlast]
      exact (Function.update_of_ne hne _ _).trans (h.holds j hlast)
    · obtain rfl : j = text.length := by omega
      rw [List.getElem_append_right (le_refl _)]
      simp [Editor.store, hindex]
  · rcases List.mem_append.mp ho with ho | ho
    · exact h.inside o ho
    · obtain rfl := List.mem_singleton.mp ho
      omega

/-- One key. -/
theorem Edited.key (h : Edited s text) (hroom : text.length < MAX_TERMINAL_CHARS - 1) :
    Edited (s.key c) (edit text c) := by
  unfold Editor.key edit
  split_ifs with hback hpos hblank
  · rw [List.dropLast_eq_take]
    have hindex : s.i - 1 = ((text.length - 1 : ℕ) : ℤ) := by
      rw [h.index] at hpos ⊢
      omega
    rw [hindex]
    exact h.cut (Nat.sub_le _ _)
  · have hnil : text = [] := by
      rw [h.index] at hpos
      exact List.eq_nil_of_length_eq_zero (by omega)
    subst hnil
    exact h
  · exact h.append hroom hblank
  · exact h

/-! ## The loop -/

/-- The terminator before the loop. -/
theorem edited_empty (buf : ℤ → Int8) : Edited (Editor.store ⟨buf, [], 0⟩ 0) (lineOf []) :=
  Edited.terminate rfl (by decide) (fun _ hc => absurd hc List.not_mem_nil)
    (fun _ hj => absurd hj (Nat.not_lt_zero _)) fun _ ho => absurd ho List.not_mem_nil

/-- What the editor has after a reading that began with the keys `done`. -/
structure Reads (done keys : List Int8) (out : Editor × Option (List Int8)) (read : List Int8) :
    Prop where
  edited : Edited out.1 (lineOf (done ++ read))
  returned : ∀ rest, out.2 = some rest → keys = read ++ rest ∧ StopsFirst (done ++ read)
  waiting : out.2 = none → keys = read ∧ ∀ pre, pre <+: done ++ read → ¬ Stops pre

/-- The loop goes on as long as the keys so far do not end the line. -/
theorem goesOn_iff (h : Edited s (lineOf done)) (hc : c = done.getLast?.getD 1) :
    (c ≠ NEWLINE ∧ s.i < MAX_TERMINAL_CHARS - 1) ↔ ¬ Stops done := by
  have hlast : c = NEWLINE ↔ done.getLast? = some NEWLINE := by
    rw [hc]
    cases done.getLast? with
    | none => decide
    | some k => simp
  have hshort := h.short
  rw [Stops, not_or, ← hlast, h.index]
  refine and_congr_right fun _ => ?_
  omega

theorem Reads.stopped (h : Edited s (lineOf done)) (hstop : StopsFirst done) :
    Reads done keys (s, some keys) [] where
  edited := by rwa [List.append_nil]
  returned rest hrest := by
    obtain rfl : keys = rest := Option.some.inj hrest
    rw [List.append_nil]
    exact ⟨rfl, hstop⟩
  waiting hnone := absurd hnone (Option.some_ne_none keys)

theorem Reads.waits (h : Edited s (lineOf done)) (hgo : ∀ pre, pre <+: done → ¬ Stops pre) :
    Reads done [] (s, none) [] where
  edited := by rwa [List.append_nil]
  returned rest hrest := absurd hrest.symm (Option.some_ne_none rest)
  waiting _ := by
    rw [List.append_nil]
    exact ⟨rfl, hgo⟩

theorem Reads.cons {out : Editor × Option (List Int8)} {read : List Int8}
    (h : Reads (done ++ [c]) keys out read) : Reads done (c :: keys) out (c :: read) where
  edited := by
    rw [List.append_cons]
    exact h.edited
  returned rest hrest := by
    obtain ⟨rfl, hstop⟩ := h.returned rest hrest
    rw [List.append_cons]
    exact ⟨rfl, hstop⟩
  waiting hnone := by
    obtain ⟨rfl, hgo⟩ := h.waiting hnone
    rw [List.append_cons]
    exact ⟨rfl, hgo⟩

/-- The loop reads until the keys end the line. -/
theorem inputLoop_spec (keys : List Int8) (h : Edited s (lineOf done))
    (hc : c = done.getLast?.getD 1) (hfirst : ∀ pre, pre <+: done → Stops pre → pre = done) :
    ∃ read, Reads done keys (inputLoop c s keys) read := by
  induction keys generalizing c s done with
  | nil =>
    rw [inputLoop]
    by_cases hstop : Stops done
    · rw [if_neg ((goesOn_iff h hc).not.mpr (not_not.mpr hstop))]
      exact ⟨[], .stopped h ⟨hstop, hfirst⟩⟩
    · rw [if_pos ((goesOn_iff h hc).mpr hstop)]
      exact ⟨[], .waits h fun pre hpre hpres => hstop (hfirst pre hpre hpres ▸ hpres)⟩
  | cons k keys ih =>
    rw [inputLoop]
    by_cases hstop : Stops done
    · rw [if_neg ((goesOn_iff h hc).not.mpr (not_not.mpr hstop))]
      exact ⟨[], .stopped h ⟨hstop, hfirst⟩⟩
    · rw [if_pos ((goesOn_iff h hc).mpr hstop)]
      have hroom : (lineOf done).length < MAX_TERMINAL_CHARS - 1 := by
        have hshort := h.short
        have hne := (not_or.mp hstop).2
        omega
      have hnext : Edited (s.key k) (lineOf (done ++ [k])) := by
        rw [lineOf_append]
        exact h.key hroom
      obtain ⟨read, hread⟩ := ih (c := k) hnext (by simp) fun pre hpre hpres => by
        rcases List.prefix_concat_iff.mp hpre with rfl | hpre
        · rfl
        · exact absurd (hfirst pre hpre hpres ▸ hpres) hstop
      exact ⟨k :: read, hread.cons⟩

/-- `inputRead` reads the keys until the line ends, and leaves the edited line in the buffer as a
string. It returns `i`, the length of the line, or waits for a key. -/
theorem inputRead_exact (buf : ℤ → Int8) (keys : List Int8) :
    ∃ read, Edited (inputRead buf keys).1 (lineOf read) ∧
      ((∃ rest, (inputRead buf keys).2 = some rest ∧ keys = read ++ rest ∧ StopsFirst read) ∨
        ((inputRead buf keys).2 = none ∧ keys = read ∧ ∀ pre, pre <+: keys → ¬ Stops pre)) := by
  have hfirst : ∀ pre, pre <+: ([] : List Int8) → Stops pre → pre = [] :=
    fun pre hpre _ => List.prefix_nil.mp hpre
  obtain ⟨read, hread⟩ := inputLoop_spec keys (edited_empty buf) rfl hfirst
  refine ⟨read, hread.edited, ?_⟩
  cases hout : (inputRead buf keys).2 with
  | some rest =>
    obtain ⟨hkeys, hstop⟩ := hread.returned rest hout
    exact Or.inl ⟨rest, rfl, hkeys, hstop⟩
  | none =>
    obtain ⟨rfl, hgo⟩ := hread.waiting hout
    exact Or.inr ⟨rfl, rfl, hgo⟩

end TronKernel.Shell.LineEditor
