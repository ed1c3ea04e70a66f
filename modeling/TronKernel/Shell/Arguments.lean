import TronKernel.Shell.Words

/-!
# The argument list of a command

`readBuffer` copies the first word of a line to `buf` and points `argv` to the others. It then looks
at `argv[numArgs - 1]`: if that is `"&"`, the command runs in the background and the element becomes
`NULL`. For a line with at least two words the list is what it should be. With fewer there is no
last argument, and what is read lies in front of `argv` (`readLine_spec`).
-/

namespace TronKernel.Shell.Arguments

open Words
open Sem (toInt)

def MAX_TERMINAL_CHARS : ℕ := 124

/-- An element of `argv`: not set for this line, `NULL`, or `words[k]`. -/
inductive Pointer where
  | unset
  | null
  | word (k : ℕ)
deriving DecidableEq

/-- The loop over the words from `i` on, with so many to go: `argv` and `numArgs`. -/
def fillArgv : ℕ → ℕ → (ℤ → Pointer) → ℕ → (ℤ → Pointer) × ℕ
  | 0, _, argv, numArgs => (argv, numArgs)
  | n + 1, i, argv, numArgs =>
    fillArgv n (i + 1) (Function.update argv numArgs (.word i)) (numArgs + 1)

/-- `strncpy(buf, words[k] + i, n)`: the copied characters, and the offsets that are read. -/
def strncpy (bytes : ℤ → UInt8) (k : ℕ) : ℕ → ℕ → List UInt8 × List ℤ
  | 0, i => ([], [offset k i])
  | n + 1, i =>
    if bytes (offset k i) = 0 then ([], [offset k i])
    else
      let (buf, read) := strncpy bytes k n (i + 1)
      (bytes (offset k i) :: buf, offset k i :: read)

/-- `!strcmp(words[k], AMPERSAND)`, and the offsets that are read. -/
def isAmpersand (bytes : ℤ → UInt8) (k : ℕ) : Bool × List ℤ :=
  if bytes (offset k 0) = 38 then (bytes (offset k 1) = 0, [offset k 0, offset k 1])
  else (false, [offset k 0])

/-- `!strcmp(pointer, AMPERSAND)`. Behind a pointer that was not set `strcmp` finds anything. -/
def isMarker (stray : Bool) (bytes : ℤ → UInt8) : Pointer → Bool × List ℤ
  | .word k => isAmpersand bytes k
  | _ => (stray, [])

/-- `argv` and `numArgs` once `argv[numArgs]` is `NULL`. -/
def setArgv (numWords : ℕ) : (ℤ → Pointer) × ℕ :=
  let (argv, numArgs) := fillArgv (numWords - 1) 1 (fun _ => .unset) 0
  (Function.update argv numArgs .null, numArgs)

/-- What `readBuffer` has made of its line, and what it has read for it. -/
structure Line where
  words : Cells
  buf : List UInt8
  argv : ℤ → Pointer
  background : Bool
  argvRead : List Pointer
  wordsRead : List ℤ

/-- The array once the words of the line are in it. -/
def wordsOf (bytes : ℤ → UInt8) (input : List UInt8) : Cells :=
  (Words.parseString ⟨bytes, []⟩ input).1

/-- `numWords`. -/
def numWordsOf (bytes : ℤ → UInt8) (input : List UInt8) : ℕ :=
  (Words.parseString ⟨bytes, []⟩ input).2

/-- `argv[numArgs - 1]`. -/
def lastPointer (numWords : ℕ) : Pointer := (setArgv numWords).1 ((setArgv numWords).2 - 1)

/-- `readBuffer` up to the test for the commands. -/
def readLine (stray : Bool) (bytes : ℤ → UInt8) (input : List UInt8) : Line :=
  let words := wordsOf bytes input
  let numWords := numWordsOf bytes input
  let copy := strncpy words.bytes 0 MAX_WORD_LENGTH 0
  let (argv, numArgs) := setArgv numWords
  let marker := isMarker stray words.bytes (lastPointer numWords)
  let argv := if marker.1 then Function.update argv (numArgs - 1) .null else argv
  ⟨words, copy.1, argv, marker.1, [lastPointer numWords], copy.2 ++ marker.2⟩

/-- The words of a line, as far as they fit into a row. -/
def cutWords (input : List UInt8) : List (List UInt8) :=
  (runs input).map (List.take MAX_WORD_LENGTH)

/-- `argv` points to these words and ends with `NULL`. -/
def Passes (bytes : ℤ → UInt8) (argv : ℤ → Pointer) (args : List (List UInt8)) : Prop :=
  (∀ (i : ℕ) word, args[i]? = some word → ∃ k, argv i = .word k ∧ Row bytes k word) ∧
    argv args.length = .null

/-! ## Reading a row -/

variable {bytes : ℤ → UInt8} {k n i : ℕ} {cs input : List UInt8} {stray : Bool}

/-- The characters of a row are copied up to the NUL. -/
theorem strncpy_row (h : Row bytes k cs) (hcs : 0 ∉ cs) (hi : i ≤ cs.length)
    (hn : cs.length ≤ i + n) :
    (strncpy bytes k n i).1 = cs.drop i ∧
      ∀ o ∈ (strncpy bytes k n i).2, ∃ j : ℕ, j ≤ cs.length ∧ o = offset k j := by
  induction n generalizing i with
  | zero =>
    obtain rfl : i = cs.length := by omega
    refine ⟨by rw [List.drop_length]; rfl, fun o ho => ⟨_, le_refl _, ?_⟩⟩
    exact List.mem_singleton.mp ho
  | succ n ih =>
    rw [strncpy]
    rcases Nat.lt_or_eq_of_le hi with hlt | rfl
    · have hne : cs[i] ≠ 0 := fun heq => hcs (heq ▸ List.getElem_mem hlt)
      obtain ⟨hbuf, hread⟩ := ih (i := i + 1) (by omega) (by omega)
      rw [h.1 i hlt, if_neg hne]
      refine ⟨?_, fun o ho => ?_⟩
      · rw [List.drop_eq_getElem_cons hlt, ← hbuf]
      · rcases List.mem_cons.mp ho with rfl | ho
        · exact ⟨i, hi, rfl⟩
        · exact hread o ho
    · rw [h.2, if_pos rfl]
      refine ⟨by rw [List.drop_length], fun o ho => ⟨_, le_refl _, ?_⟩⟩
      exact List.mem_singleton.mp ho

theorem isAmpersand_row (h : Row bytes k cs) (hcs : 0 ∉ cs) :
    ((isAmpersand bytes k).1 = true ↔ cs = AMPERSAND) ∧
      ∀ o ∈ (isAmpersand bytes k).2, ∃ j : ℕ, j ≤ cs.length ∧ o = offset k j := by
  obtain ⟨hget, hnul⟩ := h
  rw [isAmpersand]
  cases cs with
  | nil =>
    have hzero : bytes (offset k 0) = 0 := hnul
    rw [hzero, if_neg (by decide)]
    refine ⟨by simp [AMPERSAND, Shell.bytes], fun o ho => ⟨0, le_refl 0, ?_⟩⟩
    exact List.mem_singleton.mp ho
  | cons c cs =>
    have hfirst : bytes (offset k 0) = c := hget 0 (by simp)
    have hsecond : bytes (offset k 1) = 0 ↔ cs = [] := by
      cases cs with
      | nil => exact ⟨fun _ => rfl, fun _ => hnul⟩
      | cons d cs =>
        have hnext : bytes (offset k 1) = d := hget 1 (by simp)
        rw [hnext]
        constructor
        · rintro rfl
          simp at hcs
        · intro hnil
          cases hnil
    rw [hfirst]
    split_ifs with hc
    · refine ⟨?_, fun o ho => ?_⟩
      · rw [decide_eq_true_iff, hsecond, hc, show AMPERSAND = [38] from rfl, List.cons.injEq]
        simp
      · rcases List.mem_cons.mp ho with rfl | ho
        · exact ⟨0, Nat.zero_le _, rfl⟩
        · exact ⟨1, by simp, List.mem_singleton.mp ho⟩
    · refine ⟨?_, fun o ho => ⟨0, Nat.zero_le _, List.mem_singleton.mp ho⟩⟩
      rw [show AMPERSAND = [38] from rfl, List.cons.injEq]
      simp [hc]

theorem fillArgv_spec (n i : ℕ) (argv : ℤ → Pointer) (numArgs : ℕ) :
    (fillArgv n i argv numArgs).2 = numArgs + n ∧
      (∀ j : ℕ, j < n → (fillArgv n i argv numArgs).1 (numArgs + j : ℕ) = .word (i + j)) ∧
      ∀ x : ℤ, x < numArgs ∨ numArgs + n ≤ x → (fillArgv n i argv numArgs).1 x = argv x := by
  induction n generalizing i argv numArgs with
  | zero => exact ⟨rfl, fun j hj => absurd hj (Nat.not_lt_zero j), fun _ _ => rfl⟩
  | succ n ih =>
    obtain ⟨hnum, hset, hframe⟩ := ih (i + 1) (Function.update argv numArgs (.word i)) (numArgs + 1)
    rw [fillArgv]
    refine ⟨by rw [hnum]; omega, fun j hj => ?_, fun x hx => ?_⟩
    · cases j with
      | zero =>
        rw [hframe _ (by omega)]
        exact Function.update_self _ _ _
      | succ j =>
        have hnext := hset j (by omega)
        rw [show numArgs + 1 + j = numArgs + (j + 1) by omega] at hnext
        rw [hnext]
        congr 1
        omega
    · rw [hframe x (by omega), Function.update_of_ne (by omega)]

/-- `argv` points to the words behind the first one, in order. -/
theorem setArgv_spec (numWords : ℕ) :
    (setArgv numWords).2 = numWords - 1 ∧
      (∀ i : ℕ, i < numWords - 1 → (setArgv numWords).1 i = .word (i + 1)) ∧
      (setArgv numWords).1 (numWords - 1 : ℕ) = .null ∧ (setArgv numWords).1 (-1) = .unset := by
  obtain ⟨hnum, hset, hframe⟩ := fillArgv_spec (numWords - 1) 1 (fun _ => .unset) 0
  rw [Nat.zero_add] at hnum
  rw [setArgv]
  simp only [hnum]
  refine ⟨trivial, fun i hi => ?_, Function.update_self _ _ _, ?_⟩
  · have hget := hset i hi
    rw [Nat.zero_add, Nat.add_comm] at hget
    rw [Function.update_of_ne (by omega), hget]
  · rw [Function.update_of_ne (by omega), hframe _ (by omega)]

/-! ## The line -/

/-- The lines that the shell reads have room for all their words in the array. -/
theorem short_line (hinput : input.length ≤ MAX_TERMINAL_CHARS - 1) :
    kept input = runs input ∧ ∀ word ∈ runs input, Fits word := by
  rw [MAX_TERMINAL_CHARS] at hinput
  constructor
  · have hle := Split.two_mul_length_runsOf_le (fun x => decide (x = SPACE)) input
    apply List.take_of_length_le
    rw [runs, MAX_WORDS]
    omega
  · intro word hmem
    have hle := Split.length_le_of_mem_runsOf hmem
    rw [Fits, MAX_WORD_LENGTH, toInt]
    omega

theorem lastPointer_of_le {n : ℕ} (hn : n ≤ 1) : lastPointer n = .unset := by
  obtain ⟨hnum, -, -, hunset⟩ := setArgv_spec n
  rw [lastPointer, hnum, show ((n - 1 : ℕ) : ℤ) - 1 = -1 by omega]
  exact hunset

theorem lastPointer_of_lt {n : ℕ} (hn : 2 ≤ n) : lastPointer n = .word (n - 1) := by
  obtain ⟨hnum, hset, -, -⟩ := setArgv_spec n
  have hlast := hset (n - 2) (by omega)
  rw [lastPointer, hnum, show ((n - 1 : ℕ) : ℤ) - 1 = (n - 2 : ℕ) by omega, hlast]
  congr 1
  omega

section ShortLine

variable (hinput : input.length ≤ MAX_TERMINAL_CHARS - 1) (hnul : 0 ∉ input)
include hinput

theorem numWordsOf_eq : numWordsOf bytes input = (cutWords input).length := by
  rw [numWordsOf, parseString_eq, (short_line hinput).1, cutWords, List.length_map]

/-- A word of the line stands in its row, and the row was written for it. -/
theorem row_of_word (bytes : ℤ → UInt8) {word : List UInt8}
    (hword : (cutWords input)[k]? = some word) : Row (wordsOf bytes input).bytes k word ∧
      ∀ j : ℕ, j ≤ word.length → offset k j ∈ (wordsOf bytes input).written := by
  obtain ⟨hkept, hfits⟩ := short_line hinput
  have hall : ∀ word ∈ kept input, Fits word := by rwa [hkept]
  rw [cutWords, List.getElem?_map, Option.map_eq_some_iff] at hword
  obtain ⟨run, hrun, rfl⟩ := hword
  rw [← hkept] at hrun
  refine ⟨parseString_row hall hrun, fun j hj => ?_⟩
  rw [wordsOf, written_parseString, List.mem_append, (storeAll_spec hall).2.2]
  exact .inl (.inr ⟨k, run, hrun, j, hj, by rw [Nat.zero_add]⟩)

/-- The row that is copied to `buf`: an empty one where there is no word. -/
theorem row_zero (bytes : ℤ → UInt8) :
    Row (wordsOf bytes input).bytes 0 ((cutWords input).headD []) ∧
      ∀ j : ℕ, j ≤ ((cutWords input).headD []).length →
        offset 0 j ∈ (wordsOf bytes input).written := by
  cases hwords : cutWords input with
  | cons word words =>
    exact row_of_word hinput bytes (by rw [hwords]; rfl)
  | nil =>
    have hkept : kept input = [] := by
      rw [(short_line hinput).1]
      exact List.map_eq_nil_iff.mp hwords
    rw [wordsOf, bytes_parseString, written_parseString, hkept]
    refine ⟨⟨fun i hi => absurd hi (Nat.not_lt_zero i), Function.update_self _ _ _⟩, fun j hj => ?_⟩
    obtain rfl : j = 0 := Nat.le_zero.mp hj
    exact List.mem_append_right _ (List.mem_singleton_self _)

omit hinput in
include hnul in
theorem zero_notMem_word {word : List UInt8} (hword : word ∈ cutWords input) : 0 ∉ word := by
  rw [cutWords, List.mem_map] at hword
  obtain ⟨run, hrun, rfl⟩ := hword
  intro hmem
  exact hnul (Split.mem_of_mem_runsOf hrun (List.mem_of_mem_take hmem))

include hnul

/-- `buf` is the first word, and its row is read up to the NUL. -/
theorem copy_spec (bytes : ℤ → UInt8) :
    (strncpy (wordsOf bytes input).bytes 0 MAX_WORD_LENGTH 0).1 = (cutWords input).headD [] ∧
      ∀ o ∈ (strncpy (wordsOf bytes input).bytes 0 MAX_WORD_LENGTH 0).2,
        o ∈ (wordsOf bytes input).written := by
  obtain ⟨hrow, hwritten⟩ := row_zero hinput bytes
  have hfirst : 0 ∉ (cutWords input).headD [] ∧
      ((cutWords input).headD []).length ≤ MAX_WORD_LENGTH := by
    cases hwords : cutWords input with
    | nil => exact ⟨by simp, by simp⟩
    | cons word words =>
      have hmem : word ∈ cutWords input := by rw [hwords]; exact List.mem_cons_self
      refine ⟨zero_notMem_word hnul hmem, ?_⟩
      rw [cutWords, List.mem_map] at hmem
      obtain ⟨run, -, rfl⟩ := hmem
      exact List.length_take_le _ _
  obtain ⟨hbuf, hread⟩ := strncpy_row hrow hfirst.1 (i := 0) (Nat.zero_le _)
    (n := MAX_WORD_LENGTH) (by rw [Nat.zero_add]; exact hfirst.2)
  refine ⟨hbuf, fun o ho => ?_⟩
  obtain ⟨j, hj, rfl⟩ := hread o ho
  exact hwritten j hj

/-- With two words or more the marker is looked for in the last one, which was set for this line. -/
theorem marker_spec (htwo : 2 ≤ (cutWords input).length) :
    ((isMarker stray (wordsOf bytes input).bytes (lastPointer (cutWords input).length)).1 = true ↔
      (cutWords input).tail.getLast? = some AMPERSAND) ∧
      ∀ o ∈ (isMarker stray (wordsOf bytes input).bytes (lastPointer (cutWords input).length)).2,
        o ∈ (wordsOf bytes input).written := by
  set n := (cutWords input).length with hn
  have hlt : n - 1 < (cutWords input).length := by omega
  have hword : (cutWords input)[n - 1]? = some (cutWords input)[n - 1] :=
    List.getElem?_eq_getElem hlt
  obtain ⟨hrow, hwritten⟩ := row_of_word hinput bytes hword
  have hlast : (cutWords input).tail.getLast? = some (cutWords input)[n - 1] := by
    rw [List.getLast?_eq_getElem?, List.getElem?_tail, List.length_tail, ← hn,
      show n - 1 - 1 + 1 = n - 1 by omega, hword]
  obtain ⟨hmark, hread⟩ := isAmpersand_row hrow (zero_notMem_word hnul (List.getElem_mem hlt))
  rw [lastPointer_of_lt htwo, isMarker, hlast, Option.some.injEq]
  refine ⟨hmark, fun o ho => ?_⟩
  obtain ⟨j, hj, rfl⟩ := hread o ho
  exact hwritten j hj

omit hnul in
theorem setArgv_passes (bytes : ℤ → UInt8) :
    Passes (wordsOf bytes input).bytes (setArgv (cutWords input).length).1
      (cutWords input).tail := by
  obtain ⟨-, hset, hnull, -⟩ := setArgv_spec (cutWords input).length
  refine ⟨fun i word hword => ?_, by rw [List.length_tail]; exact hnull⟩
  rw [List.getElem?_tail] at hword
  have hlt := (List.getElem?_eq_some_iff.mp hword).1
  exact ⟨i + 1, hset i (by omega), (row_of_word hinput bytes hword).1⟩

end ShortLine

/-- The last argument is replaced by `NULL`. Without arguments the store goes in front of `argv`. -/
theorem Passes.dropLast {argv : ℤ → Pointer} {args : List (List UInt8)}
    (h : Passes bytes argv args) :
    Passes bytes (Function.update argv ((args.length : ℤ) - 1) .null) args.dropLast := by
  refine ⟨fun i word hword => ?_, ?_⟩
  · rw [List.getElem?_dropLast] at hword
    split_ifs at hword with hlt
    obtain ⟨k, hptr, hrow⟩ := h.1 i word hword
    exact ⟨k, by rw [Function.update_of_ne (by omega), hptr], hrow⟩
  · rw [List.length_dropLast]
    cases args with
    | nil => exact h.2
    | cons word args =>
      rw [List.length_cons, show ((args.length + 1 : ℕ) : ℤ) - 1 =
        (args.length + 1 - 1 : ℕ) by omega, Function.update_self]

/-- What `readBuffer` makes of a line: with two words or more everything it reads was set. -/
theorem readLine_spec (stray : Bool) (bytes : ℤ → UInt8)
    (hinput : input.length ≤ MAX_TERMINAL_CHARS - 1) (hnul : 0 ∉ input) :
    (readLine stray bytes input).buf = (cutWords input).headD [] ∧
      ((readLine stray bytes input).background = true ↔
        (cutWords input).tail.getLast? = some AMPERSAND ∨
          (cutWords input).length < 2 ∧ stray = true) ∧
      Passes (readLine stray bytes input).words.bytes (readLine stray bytes input).argv
        (if (readLine stray bytes input).background then (cutWords input).tail.dropLast
          else (cutWords input).tail) ∧
      (.unset ∈ (readLine stray bytes input).argvRead ↔ (cutWords input).length < 2) ∧
      ∀ o ∈ (readLine stray bytes input).wordsRead,
        o ∈ (readLine stray bytes input).words.written := by
  obtain ⟨hbuf, hcopied⟩ := copy_spec hinput hnul bytes
  have hpasses := setArgv_passes hinput bytes
  have hnum := (setArgv_spec (cutWords input).length).1
  simp only [readLine, numWordsOf_eq hinput, List.mem_singleton, List.mem_append]
  refine ⟨hbuf, ?_, ?_, ?_, ?_⟩
  · by_cases htwo : 2 ≤ (cutWords input).length
    · have hmany : ¬ (cutWords input).length < 2 := by omega
      rw [(marker_spec hinput hnul htwo).1]
      simp [hmany]
    · have hnone : (cutWords input).tail.getLast? = none := by
        rw [List.getLast?_eq_none_iff, ← List.length_eq_zero_iff, List.length_tail]
        omega
      rw [lastPointer_of_le (by omega), isMarker, hnone]
      simp [Nat.lt_of_not_le htwo]
      intro _ h
      cases h
  · split_ifs with hmark
    · rw [hnum]
      have hdrop := hpasses.dropLast
      rwa [List.length_tail] at hdrop
    · exact hpasses
  · by_cases htwo : 2 ≤ (cutWords input).length
    · rw [lastPointer_of_lt htwo]
      exact iff_of_false (by simp) (by omega)
    · rw [lastPointer_of_le (by omega)]
      exact iff_of_true rfl (by omega)
  · intro o ho
    rcases ho with hcopy | hlast
    · exact hcopied o hcopy
    · by_cases htwo : 2 ≤ (cutWords input).length
      · exact (marker_spec hinput hnul htwo).2 o hlast
      · rw [lastPointer_of_le (by omega)] at hlast
        cases hlast

/-! ## `readBuffer` on the words as lists -/

variable {w : World} {site : Site} {fdRead fdWrite isForeground : ℤ}

theorem parseString_eq_cutWords (hinput : input.length ≤ MAX_TERMINAL_CHARS - 1) :
    Shell.parseString input = cutWords input := by
  rw [Shell.parseString, parseWords_eq, ← kept, (short_line hinput).1, cutWords]

theorem inBackground_eq (argv : List (List UInt8)) (calls : List Event) :
    ∃ marked : Bool, inBackground w argv calls = .ok marked calls ∧
      (marked = true ↔ argv.getLast? = some AMPERSAND ∨ argv = [] ∧ w.stray calls = true) := by
  rw [inBackground]
  cases hlast : argv.getLast? with
  | none =>
    refine ⟨w.stray calls, rfl, ?_⟩
    rw [List.getLast?_eq_none_iff] at hlast
    simp [hlast]
  | some word =>
    refine ⟨decide (word = AMPERSAND), rfl, ?_⟩
    have hne : argv ≠ [] := by
      rintro rfl
      cases hlast
    simp [hne]

/-- `readBuffer` runs the first word with what the array model puts into `argv`, in the background
where the array model finds the marker. -/
theorem readBuffer_eq (calls : List Event) (bytes : ℤ → UInt8)
    (hinput : input.length ≤ MAX_TERMINAL_CHARS - 1) (hnul : 0 ∉ input) :
    readBuffer w site input fdRead fdWrite isForeground calls =
      (if (readLine (w.stray calls) bytes input).background then do
          let fd ← pipeOpen w site AMPERSAND
          runBuffer w site (readLine (w.stray calls) bytes input).buf (cutWords input).tail.dropLast
            fd fdWrite 0
        else
          runBuffer w site (readLine (w.stray calls) bytes input).buf (cutWords input).tail fdRead
            fdWrite isForeground) calls := by
  obtain ⟨hbuf, hback, -⟩ := readLine_spec (w.stray calls) bytes hinput hnul
  obtain ⟨marked, hrun, hmarked⟩ := inBackground_eq (w := w) (cutWords input).tail calls
  have hfew : (cutWords input).tail = [] ↔ (cutWords input).length < 2 := by
    rw [← List.length_eq_zero_iff, List.length_tail]
    omega
  have hsame : marked = (readLine (w.stray calls) bytes input).background := by
    rw [Bool.eq_iff_iff, hmarked, hback, hfew]
  rw [hbuf, ← hsame, readBuffer, parseString_eq_cutWords hinput]
  show EStateM.bind (inBackground w (cutWords input).tail) _ calls = _
  rw [EStateM.bind, hrun]

end TronKernel.Shell.Arguments
