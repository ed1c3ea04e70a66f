import TronKernel.Lib.Split
import TronKernel.Shell.Filters

/-!
# The counting part of `wc`

One pass over the text with a flag for being inside a word. The flag makes the word counter count
the maximal runs between separators (`Counts.foldl_spec`): a run is counted at its first byte, so a
run that has been entered before is one the rest of the text does not count again.

The buffer has 2048 bytes, so no counter comes near its limit.
-/

namespace TronKernel.Shell.WordCount

open Filters (NEWLINE)
open Split (runsOf)

abbrev TAB : UInt8 := 9

structure Counts where
  charCount : ℕ
  wordCount : ℕ
  lineCount : ℕ
  inWord : Bool
deriving DecidableEq, Repr

/-- The word boundaries. -/
def boundary (c : UInt8) : Bool := c = SPACE || c = TAB || c = NEWLINE

/-- The body of the loop. -/
def Counts.add (s : Counts) (c : UInt8) : Counts :=
  let s := { s with charCount := s.charCount + 1 }
  let s := if c = NEWLINE then { s with lineCount := s.lineCount + 1 } else s
  if boundary c then { s with inWord := false }
  else if !s.inWord then { s with inWord := true, wordCount := s.wordCount + 1 }
  else s

/-- The loop up to the terminator. It would leave a buffer without one. -/
def countLoop : Counts → List UInt8 → Option Counts
  | _, [] => none
  | s, c :: buff => if c ≠ 0 then countLoop (s.add c) buff else some s

/-- The line after the last newline. -/
def Counts.lastLine (s : Counts) (buff : List UInt8) : Option Counts :=
  if s.charCount > 0 then
    buff[s.charCount - 1]?.map fun c =>
      if c ≠ NEWLINE then { s with lineCount := s.lineCount + 1 } else s
  else some s

def count (buff : List UInt8) : Option Counts := do
  let s ← countLoop ⟨0, 0, 0, false⟩ buff
  s.lastLine buff

variable {s : Counts} {buff text : List UInt8} {c : UInt8}

/-- The text begins inside a word. -/
def beginsWord (text : List UInt8) : Bool := text.head?.any fun c => !boundary c

theorem countLoop_eq (s : Counts) (hbuff : 0 ∈ buff) :
    countLoop s buff = some ((buff.takeWhile (· ≠ 0)).foldl Counts.add s) := by
  induction buff generalizing s with
  | nil => simp at hbuff
  | cons c buff ih =>
    by_cases hc : c ≠ 0
    · rw [countLoop, if_pos hc, List.takeWhile_cons_of_pos (by simpa using hc), List.foldl_cons]
      exact ih _ ((List.mem_cons.mp hbuff).resolve_left hc.symm)
    · rw [countLoop, if_neg hc, List.takeWhile_cons_of_neg (by simpa using hc), List.foldl_nil]

theorem Counts.charCount_add : (s.add c).charCount = s.charCount + 1 := by
  unfold Counts.add
  dsimp only
  split_ifs <;> rfl

theorem Counts.lineCount_add :
    (s.add c).lineCount = s.lineCount + if c = NEWLINE then 1 else 0 := by
  unfold Counts.add
  dsimp only
  split_ifs <;> rfl

theorem Counts.inWord_add : (s.add c).inWord = !boundary c := by
  unfold Counts.add
  cases boundary c <;> cases s.inWord <;> by_cases hc : c = NEWLINE <;> simp [hc]

/-- A word is counted where it begins. -/
theorem Counts.wordCount_add :
    (s.add c).wordCount = s.wordCount + if boundary c || s.inWord then 0 else 1 := by
  unfold Counts.add
  cases boundary c <;> cases s.inWord <;> by_cases hc : c = NEWLINE <;> simp [hc]

/-- What the loop adds to the counters. A word that has been entered before is counted already. -/
theorem Counts.foldl_spec (s : Counts) (text : List UInt8) :
    (text.foldl Counts.add s).charCount = s.charCount + text.length ∧
      (text.foldl Counts.add s).lineCount = s.lineCount + text.count NEWLINE ∧
      (text.foldl Counts.add s).wordCount + (if s.inWord && beginsWord text then 1 else 0) =
        s.wordCount + (runsOf boundary text).length := by
  induction text generalizing s with
  | nil => simp [beginsWord]
  | cons c text ih =>
    obtain ⟨hchars, hlines, hwords⟩ := ih (s.add c)
    rw [List.foldl_cons]
    refine ⟨?_, ?_, ?_⟩
    · rw [hchars, Counts.charCount_add, List.length_cons]
      omega
    · rw [hlines, Counts.lineCount_add, List.count_cons]
      simp only [beq_iff_eq]
      omega
    · rw [Counts.wordCount_add, Counts.inWord_add] at hwords
      by_cases hc : boundary c
      · have hbegins : beginsWord (c :: text) = false := by simp [beginsWord, hc]
        rw [Split.runsOf_cons_separator hc, hbegins]
        simpa [hc] using hwords
      · have hbegins : beginsWord (c :: text) = true := by simp [beginsWord, hc]
        have hruns := Split.length_runsOf_cons (l := text) hc
        rw [hbegins, Bool.and_true]
        rw [Bool.not_eq_true] at hc
        rw [hc] at hwords
        simp only [Bool.not_false, Bool.true_and, Bool.false_or] at hwords
        unfold beginsWord at hwords
        cases hword : s.inWord with
        | true =>
          rw [hword, if_pos rfl] at hwords
          rw [if_pos rfl]
          omega
        | false =>
          rw [hword, if_neg Bool.false_ne_true] at hwords
          rw [if_neg Bool.false_ne_true]
          omega

/-- The last byte before the terminator. -/
theorem last_before_terminator (h : text = buff.takeWhile (· ≠ 0)) (hne : text ≠ []) :
    buff[text.length - 1]? = text.getLast? := by
  have hprefix : text <+: buff := h ▸ List.takeWhile_prefix _
  obtain ⟨rest, rfl⟩ := hprefix
  have hpos := List.length_pos_iff.mpr hne
  rw [List.getElem?_append_left (by omega), List.getLast?_eq_getElem?]

theorem Counts.lastLine_spec (h : text = buff.takeWhile (· ≠ 0))
    (hchars : s.charCount = text.length) :
    s.lastLine buff = some { s with lineCount := s.lineCount +
      if text ≠ [] ∧ text.getLast? ≠ some NEWLINE then 1 else 0 } := by
  unfold Counts.lastLine
  by_cases hne : text = []
  · rw [if_neg (by simp [hchars, hne]), if_neg fun hlast => hlast.1 hne, Nat.add_zero]
  · have hpos := List.length_pos_iff.mpr hne
    obtain ⟨last, hlast⟩ : ∃ last, text.getLast? = some last :=
      ⟨_, List.getLast?_eq_some_getLast hne⟩
    rw [hchars, if_pos hpos, last_before_terminator h hne, hlast, Option.map_some]
    by_cases hnewline : last = NEWLINE
    · rw [if_neg (not_not.mpr hnewline), if_neg (by simp [hnewline])]
      simp [← hchars]
    · rw [if_pos hnewline, if_pos ⟨hne, by simpa using hnewline⟩]

/-- `wc` counts the bytes, the maximal runs between separators, and the lines. -/
theorem count_exact (buff : List UInt8) (hbuff : 0 ∈ buff) :
    ∃ s, count buff = some s ∧ s.charCount = (buff.takeWhile (· ≠ 0)).length ∧
      s.wordCount = (runsOf boundary (buff.takeWhile (· ≠ 0))).length ∧
      s.lineCount = (buff.takeWhile (· ≠ 0)).count NEWLINE +
        if buff.takeWhile (· ≠ 0) ≠ [] ∧ (buff.takeWhile (· ≠ 0)).getLast? ≠ some NEWLINE
        then 1 else 0 := by
  set text := buff.takeWhile (· ≠ 0) with htext
  obtain ⟨hchars, hlines, hwords⟩ := Counts.foldl_spec ⟨0, 0, 0, false⟩ text
  set s := text.foldl Counts.add ⟨0, 0, 0, false⟩ with hs
  simp only [Bool.false_and, Nat.zero_add, Nat.add_zero, if_neg Bool.false_ne_true]
    at hchars hlines hwords
  have hcount : count buff = s.lastLine buff := by
    rw [count, countLoop_eq _ hbuff]
    rfl
  exact ⟨_, hcount.trans (Counts.lastLine_spec htext hchars), hchars, hwords, by rw [hlines]⟩

/-- The text `a b` with a newline, and `c`. -/
theorem count_exact_three_words : ∃ s, count [97, 32, 98, 10, 99, 0] = some s ∧
    s.charCount = 5 ∧ s.wordCount = 3 ∧ s.lineCount = 2 :=
  count_exact [97, 32, 98, 10, 99, 0] (by decide)

end TronKernel.Shell.WordCount
