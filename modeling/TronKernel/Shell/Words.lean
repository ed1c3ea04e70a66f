import TronKernel.Lib.Split
import TronKernel.Shell.Commands

/-!
# `parseString` and the array it fills

`parseString` copies the words of a line into the array `words` of its caller, which has `MAX_WORDS`
rows of `MAX_WORD_LENGTH + 1` characters, and ends with an empty word behind the last one. Here the
array is a map from offsets, and every store is recorded, so that a store behind the last row or in
front of the first one can be seen.

The words are the maximal runs of the line (`parseWords_eq`), and they arrive in their rows if each
length survives the `int wordLength` (`storeAll_spec`). All stores fall into the array exactly if in
addition there is a row left for the empty word (`parseString_splits_iff`).
-/

namespace TronKernel.Shell.Words

open Split
open Sem (toInt)

/-- The array, by offsets from its start, and the offsets of the stores so far. -/
structure Cells where
  bytes : ℤ → UInt8
  written : List ℤ

/-- The offset of `words[k][i]`. -/
def offset (k : ℕ) (i : ℤ) : ℤ := (MAX_WORD_LENGTH + 1) * k + i

/-- `words[k][i] = c`. -/
def store (s : Cells) (k : ℕ) (i : ℤ) (c : UInt8) : Cells :=
  ⟨Function.update s.bytes (offset k i) c, s.written ++ [offset k i]⟩

/-- The loop over `i`, with the characters that are still to be copied. -/
def copyWord (k : ℕ) : Cells → ℕ → List UInt8 → Cells
  | s, _, [] => s
  | s, i, c :: cs => copyWord k (store s k i c) (i + 1) cs

/-- `wordLength`, an `int`, once it is cut to `MAX_WORD_LENGTH`. -/
def wordLength (word : List UInt8) : ℤ :=
  if toInt word.length > MAX_WORD_LENGTH then MAX_WORD_LENGTH else toInt word.length

/-- The word and its terminator go to row `k`. -/
def storeWord (s : Cells) (k : ℕ) (word : List UInt8) : Cells :=
  let s := copyWord k s 0 (word.take (wordLength word).toNat)
  store s k (wordLength word) 0

/-- The loop of `parseString`, with room for so many words behind `numWords`. -/
def wordsLoop : ℕ → Cells → ℕ → List UInt8 → Cells × ℕ
  | 0, s, numWords, _ => (s, numWords)
  | room + 1, s, numWords, str =>
    let start := str.dropWhile (· = SPACE)
    if start = [] then (s, numWords)
    else
      let s := storeWord s numWords (start.takeWhile (· ≠ SPACE))
      wordsLoop room s (numWords + 1) (start.dropWhile (· ≠ SPACE))

/-- `parseString`: the array and `*numWords`. -/
def parseString (s : Cells) (str : List UInt8) : Cells × ℕ :=
  let (s, numWords) := wordsLoop MAX_WORDS s 0 str
  (store s numWords 0 0, numWords)

/-- The maximal runs of characters other than the space. -/
def runs (str : List UInt8) : List (List UInt8) := runsOf (· = SPACE) str

/-- Row `k` begins with the characters `cs` and a NUL behind them. -/
def Row (bytes : ℤ → UInt8) (k : ℕ) (cs : List UInt8) : Prop :=
  (∀ i (hi : i < cs.length), bytes (offset k i) = cs[i]) ∧ bytes (offset k cs.length) = 0

/-! ## One word -/

variable {s : Cells} {k room : ℕ} {o : ℤ} {word str cs : List UInt8} {ws : List (List UInt8)}

@[simp] theorem offset_def (k : ℕ) (i : ℤ) : offset k i = 51 * k + i := rfl

theorem copyWord_frame {i : ℕ} (h : ∀ j : ℕ, i ≤ j → j < i + cs.length → o ≠ offset k j) :
    (copyWord k s i cs).bytes o = s.bytes o := by
  induction cs generalizing s i with
  | nil => rfl
  | cons c cs ih =>
    rw [List.length_cons] at h
    rw [copyWord, ih fun j hle hlt => h j (by omega) (by omega)]
    exact Function.update_of_ne (h i (le_refl i) (by omega)) _ _

theorem copyWord_get {i j : ℕ} (hj : j < cs.length) :
    (copyWord k s i cs).bytes (offset k (i + j : ℕ)) = cs[j] := by
  induction cs generalizing s i j with
  | nil => simp at hj
  | cons c cs ih =>
    rw [copyWord]
    cases j with
    | zero =>
      rw [copyWord_frame]
      · exact Function.update_self _ _ _
      · intro j hle _
        simp only [offset_def]
        omega
    | succ j =>
      rw [List.length_cons] at hj
      rw [← Nat.add_assoc, Nat.add_right_comm]
      exact ih (by omega)

theorem written_copyWord {i : ℕ} :
    (copyWord k s i cs).written
      = s.written ++ (List.range' i cs.length).map fun j : ℕ => offset k j := by
  induction cs generalizing s i with
  | nil => simp [copyWord]
  | cons c cs ih =>
    rw [copyWord, ih, List.length_cons, List.range'_succ, List.map_cons, store, List.append_assoc]
    rfl

/-- The length of the word gets through the `int`, or is cut all the same. -/
def Fits (word : List UInt8) : Prop :=
  word.length < MAX_WORD_LENGTH ∨ (MAX_WORD_LENGTH : ℤ) ≤ toInt word.length

instance (word : List UInt8) : Decidable (Fits word) :=
  inferInstanceAs (Decidable (_ ∨ _))

theorem wordLength_le (word : List UInt8) : wordLength word ≤ 50 := by
  rw [wordLength, MAX_WORD_LENGTH]
  split_ifs <;> omega

theorem wordLength_of_fits (h : Fits word) :
    wordLength word = (word.take MAX_WORD_LENGTH).length := by
  rw [Fits, MAX_WORD_LENGTH] at h
  rw [wordLength, MAX_WORD_LENGTH, List.length_take]
  rw [toInt] at h ⊢
  split_ifs <;> omega

theorem bytes_storeWord (s : Cells) (k : ℕ) (word : List UInt8) :
    (storeWord s k word).bytes =
      Function.update (copyWord k s 0 (word.take (wordLength word).toNat)).bytes
        (offset k (wordLength word)) 0 := rfl

theorem written_storeWord (s : Cells) (k : ℕ) (word : List UInt8) :
    (storeWord s k word).written =
      (copyWord k s 0 (word.take (wordLength word).toNat)).written
        ++ [offset k (wordLength word)] := rfl

/-- A store elsewhere does not change a byte, and one of NUL does not make a NUL anything else. -/
theorem storeWord_frame
    (h : ∀ j : ℕ, j < (word.take (wordLength word).toNat).length → o ≠ offset k j)
    (hend : o = offset k (wordLength word) → s.bytes o = 0) :
    (storeWord s k word).bytes o = s.bytes o := by
  have hcopy : (copyWord k s 0 (word.take (wordLength word).toNat)).bytes o = s.bytes o :=
    copyWord_frame fun j _ hj => h j (by omega)
  rw [bytes_storeWord]
  by_cases ho : o = offset k (wordLength word)
  · rw [hend ho, ho, Function.update_self]
  · rw [Function.update_of_ne ho, hcopy]

/-- A word that fits arrives in its row, and nothing is stored behind its terminator. -/
theorem storeWord_fits (h : Fits word) :
    Row (storeWord s k word).bytes k (word.take MAX_WORD_LENGTH) ∧
      (∀ o, o < offset k 0 ∨ offset (k + 1) 0 ≤ o → (storeWord s k word).bytes o = s.bytes o) ∧
      ∀ o, o ∈ (storeWord s k word).written ↔
        o ∈ s.written ∨ ∃ i : ℕ, i ≤ (word.take MAX_WORD_LENGTH).length ∧ o = offset k i := by
  have hlength := wordLength_of_fits h
  have hshort : (word.take MAX_WORD_LENGTH).length ≤ 50 := List.length_take_le _ _
  have htake : word.take (wordLength word).toNat = word.take MAX_WORD_LENGTH := by
    rw [hlength, Int.toNat_natCast, List.length_take, ← List.take_take, List.take_length]
  refine ⟨⟨fun i hi => ?_, ?_⟩, fun o ho => ?_, fun o => ?_⟩
  · have hget := copyWord_get (s := s) (k := k) (i := 0) hi
    rw [Nat.zero_add] at hget
    rw [bytes_storeWord, htake, hlength, Function.update_of_ne, hget]
    simp only [offset_def]
    omega
  · rw [bytes_storeWord, hlength, Function.update_self]
  · apply storeWord_frame
    · intro j hj
      rw [htake] at hj
      simp only [offset_def] at ho ⊢
      omega
    · intro heq
      rw [hlength] at heq
      simp only [offset_def] at ho heq
      omega
  · rw [written_storeWord, List.mem_append, written_copyWord, htake, hlength]
    simp only [List.mem_append, List.mem_map, List.mem_range'_1, List.mem_singleton]
    constructor
    · rintro ((hold | ⟨j, hj, rfl⟩) | rfl)
      · exact .inl hold
      · exact .inr ⟨j, by omega, rfl⟩
      · exact .inr ⟨_, le_refl _, rfl⟩
    · rintro (hold | ⟨j, hj, rfl⟩)
      · exact .inl (.inl hold)
      · rcases Nat.lt_or_eq_of_le hj with hlt | rfl
        · exact .inl (.inr ⟨j, by omega, rfl⟩)
        · exact .inr rfl

/-! ## All words -/

/-- The words go to the rows from `k` on. -/
def storeAll : Cells → ℕ → List (List UInt8) → Cells
  | s, _, [] => s
  | s, k, word :: ws => storeAll (storeWord s k word) (k + 1) ws

theorem runs_eq_nil (h : str.dropWhile (· = SPACE) = []) : runs str = [] := by
  rw [runs, ← runsOf_dropWhile, h, runsOf_nil]

/-- The first run begins behind the leading spaces. -/
theorem runs_eq_cons {c : UInt8} {start : List UInt8}
    (h : str.dropWhile (· = SPACE) = c :: start) :
    runs str = (c :: start).takeWhile (· ≠ SPACE) ::
      runs ((c :: start).dropWhile (· ≠ SPACE)) := by
  have hc : ¬ decide (c = SPACE) := by
    have hhead := List.head_dropWhile_not (fun x => decide (x = SPACE)) (l := str) (by simp [h])
    simpa [h] using hhead
  have hcons := runsOf_cons (p := fun x => decide (x = SPACE)) (l := start) hc
  rw [runs, ← runsOf_dropWhile, h, hcons]
  simp only [decide_not, runs]

/-- The scan of `parseString` stores the runs of the line one after the other. -/
theorem wordsLoop_eq (room : ℕ) (s : Cells) (k : ℕ) (str : List UInt8) :
    wordsLoop room s k str =
      (storeAll s k ((runs str).take room), k + ((runs str).take room).length) := by
  induction room generalizing s k str with
  | zero => rfl
  | succ room ih =>
    rw [wordsLoop]
    cases hstart : str.dropWhile (· = SPACE) with
    | nil =>
      rw [if_pos rfl, runs_eq_nil hstart]
      rfl
    | cons c start =>
      rw [if_neg (List.cons_ne_nil c start), ih, runs_eq_cons hstart, List.take_succ_cons, storeAll,
        List.length_cons]
      congr 1
      omega

/-- The words of the list model are the runs, cut to a row. -/
theorem parseWords_eq (room : ℕ) (str : List UInt8) :
    parseWords room str = ((runs str).take room).map (List.take MAX_WORD_LENGTH) := by
  induction room generalizing str with
  | zero => rfl
  | succ room ih =>
    rw [parseWords]
    cases hstart : str.dropWhile (· = SPACE) with
    | nil => rw [if_pos rfl, runs_eq_nil hstart, List.take_nil, List.map_nil]
    | cons c start =>
      rw [if_neg (List.cons_ne_nil c start), ih, runs_eq_cons hstart, List.take_succ_cons,
        List.map_cons]

/-- Words that fit arrive in their rows, and the stores are those to their rows. -/
theorem storeAll_spec (h : ∀ word ∈ ws, Fits word) :
    (∀ j word, ws[j]? = some word →
      Row (storeAll s k ws).bytes (k + j) (word.take MAX_WORD_LENGTH)) ∧
      (∀ o, o < offset k 0 ∨ offset (k + ws.length) 0 ≤ o →
        (storeAll s k ws).bytes o = s.bytes o) ∧
      ∀ o, o ∈ (storeAll s k ws).written ↔ o ∈ s.written ∨
        ∃ j word, ws[j]? = some word ∧ ∃ i : ℕ, i ≤ (word.take MAX_WORD_LENGTH).length ∧
          o = offset (k + j) i := by
  induction ws generalizing s k with
  | nil => exact ⟨fun j word hj => absurd hj (by simp), fun _ _ => rfl, by simp [storeAll]⟩
  | cons word ws ih =>
    obtain ⟨hrow, hframe, hwritten⟩ := storeWord_fits (s := s) (k := k) (h word List.mem_cons_self)
    obtain ⟨hrows, hframes, hwrittens⟩ := ih (s := storeWord s k word) (k := k + 1)
      fun word hmem => h word (List.mem_cons_of_mem _ hmem)
    have hshort : (word.take MAX_WORD_LENGTH).length ≤ 50 := List.length_take_le _ _
    rw [storeAll]
    refine ⟨fun j word' hj => ?_, fun o ho => ?_, fun o => ?_⟩
    · cases j with
      | zero =>
        -- the first row lies in front of those of the other words
        obtain rfl : word = word' := by simpa using hj
        have hkeep : ∀ i : ℕ, i ≤ 50 →
            (storeAll (storeWord s k word) (k + 1) ws).bytes (offset k i)
              = (storeWord s k word).bytes (offset k i) := by
          intro i hi
          apply hframes
          simp only [offset_def]
          omega
        rw [Nat.add_zero k]
        refine ⟨fun i hi => ?_, ?_⟩
        · rw [hkeep i (by omega)]
          exact hrow.1 i hi
        · rw [hkeep _ hshort]
          exact hrow.2
      | succ j =>
        rw [Nat.add_comm j, ← Nat.add_assoc]
        exact hrows j word' (by simpa using hj)
    · rw [List.length_cons] at ho
      simp only [offset_def] at ho hframe hframes
      rw [hframes o (by omega), hframe o (by omega)]
    · rw [hwrittens, hwritten, or_assoc]
      apply or_congr_right
      constructor
      · rintro (⟨i, hi, rfl⟩ | ⟨j, word', hj, i, hi, rfl⟩)
        · exact ⟨0, word, by simp, i, hi, rfl⟩
        · exact ⟨j + 1, word', by simpa using hj, i, hi, by simp only [offset_def]; omega⟩
      · rintro ⟨j, word', hj, i, hi, rfl⟩
        cases j with
        | zero =>
          obtain rfl : word = word' := by simpa using hj
          exact .inl ⟨i, hi, rfl⟩
        | succ j =>
          refine .inr ⟨j, word', by simpa using hj, i, hi, ?_⟩
          simp only [offset_def]
          omega

/-- A NUL stays where no word is copied to. -/
theorem storeAll_nul (hnul : s.bytes o = 0)
    (h : ∀ j word, ws[j]? = some word →
      ∀ i : ℕ, i < (word.take (wordLength word).toNat).length → o ≠ offset (k + j) i) :
    (storeAll s k ws).bytes o = 0 := by
  induction ws generalizing s k with
  | nil => exact hnul
  | cons word ws ih =>
    rw [storeAll]
    apply ih
    · rw [storeWord_frame _ fun _ => hnul, hnul]
      exact h 0 word rfl
    · intro j word' hj i hi
      rw [Nat.add_assoc, Nat.add_comm 1]
      exact h (j + 1) word' (by simpa using hj) i hi

/-! ## The line -/

/-- The runs that `parseString` stores. -/
def kept (str : List UInt8) : List (List UInt8) := (runs str).take MAX_WORDS

theorem length_kept (str : List UInt8) : (kept str).length = min MAX_WORDS (runs str).length :=
  List.length_take

theorem parseString_eq (s : Cells) (str : List UInt8) :
    parseString s str =
      (store (storeAll s 0 (kept str)) (kept str).length 0 0, (kept str).length) := by
  rw [parseString, wordsLoop_eq, Nat.zero_add]
  rfl

theorem bytes_parseString (s : Cells) (str : List UInt8) :
    (parseString s str).1.bytes =
      Function.update (storeAll s 0 (kept str)).bytes (offset (kept str).length 0) 0 := by
  rw [parseString_eq]
  rfl

theorem written_parseString (s : Cells) (str : List UInt8) :
    (parseString s str).1.written =
      (storeAll s 0 (kept str)).written ++ [offset (kept str).length 0] := by
  rw [parseString_eq]
  rfl

/-- `parseString` gives the words of the line, and its stores stay in the array. -/
def Splits (str : List UInt8) : Prop :=
  ∀ bytes, (parseString ⟨bytes, []⟩ str).2 = min MAX_WORDS (runs str).length ∧
    (∀ k word, k < (parseString ⟨bytes, []⟩ str).2 → (runs str)[k]? = some word →
      Row (parseString ⟨bytes, []⟩ str).1.bytes k (word.take MAX_WORD_LENGTH)) ∧
    ∀ o ∈ (parseString ⟨bytes, []⟩ str).1.written,
      0 ≤ o ∧ o < (MAX_WORDS : ℤ) * (MAX_WORD_LENGTH + 1)

/-- The rows of the words, whatever is behind them. -/
theorem parseString_row (h : ∀ word ∈ kept str, Fits word) (hword : (kept str)[k]? = some word) :
    Row (parseString s str).1.bytes k (word.take MAX_WORD_LENGTH) := by
  obtain ⟨hrow, hnul⟩ := (storeAll_spec (s := s) (k := 0) h).1 k word hword
  have hk : k < (kept str).length := (List.getElem?_eq_some_iff.mp hword).1
  have hshort : (word.take MAX_WORD_LENGTH).length ≤ 50 := List.length_take_le _ _
  rw [Nat.zero_add] at hrow hnul
  rw [bytes_parseString]
  refine ⟨fun i hi => ?_, ?_⟩
  · rw [Function.update_of_ne, hrow i hi]
    simp only [offset_def]
    omega
  · rw [Function.update_of_ne, hnul]
    simp only [offset_def]
    omega

/-- A word whose length does not get through the `int` is not there: it has a NUL too early. -/
theorem parseString_lost (hword : (kept str)[k]? = some word) (hlost : ¬ Fits word) :
    (parseString ⟨fun _ => 0, []⟩ str).1.bytes (offset k (wordLength word).toNat) = 0 := by
  have hlong : wordLength word < 50 := by
    rw [Fits, MAX_WORD_LENGTH, not_or] at hlost
    rw [wordLength, MAX_WORD_LENGTH, if_neg (by omega)]
    omega
  rw [bytes_parseString]
  by_cases hlast : offset k (wordLength word).toNat = offset (kept str).length 0
  · rw [hlast, Function.update_self]
  · rw [Function.update_of_ne hlast]
    apply storeAll_nul rfl
    intro j word' hj i hi heq
    have hle := wordLength_le word'
    rw [List.length_take] at hi
    simp only [offset_def] at heq
    obtain rfl : k = j := by omega
    obtain rfl : word = word' := Option.some.inj (hword.symm.trans hj)
    omega

/-- The empty word behind the last one needs a row too. -/
theorem Splits.length_runs_lt (h : Splits str) : (runs str).length < MAX_WORDS := by
  obtain ⟨-, -, hwritten⟩ := h fun _ => 0
  rw [written_parseString] at hwritten
  obtain ⟨-, hlast⟩ := hwritten (offset (kept str).length 0) (by simp)
  rw [length_kept] at hlast
  simp only [offset_def, MAX_WORDS, MAX_WORD_LENGTH] at hlast ⊢
  omega

/-- `parseString` does what it should exactly if the line has fewer than `MAX_WORDS` words and the
length of each gets through the `int`. -/
theorem parseString_splits_iff (str : List UInt8) (hstr : 0 ∉ str) :
    Splits str ↔ (runs str).length < MAX_WORDS ∧ ∀ word ∈ runs str, Fits word := by
  constructor
  · intro h
    have hlt := h.length_runs_lt
    obtain ⟨-, hrows, -⟩ := h fun _ => 0
    rw [parseString_eq] at hrows
    have hkept : kept str = runs str := List.take_of_length_le hlt.le
    refine ⟨hlt, fun word hmem => ?_⟩
    obtain ⟨k, hk⟩ := List.getElem?_of_mem hmem
    by_contra hlost
    have hzero := parseString_lost (hkept ▸ hk) hlost
    have hlong : (wordLength word).toNat < (word.take MAX_WORD_LENGTH).length := by
      have hpos : 0 < word.length := List.length_pos_of_ne_nil (ne_nil_of_mem_runsOf hmem)
      rw [Fits, MAX_WORD_LENGTH, not_or] at hlost
      rw [wordLength, MAX_WORD_LENGTH, if_neg (by omega), List.length_take]
      omega
    have hklt : k < (kept str).length := by
      rw [hkept]
      exact (List.getElem?_eq_some_iff.mp hk).1
    -- a character of the line stands where the NUL is
    have hchar := (hrows k word hklt hk).1 _ hlong
    rw [parseString_eq] at hzero
    rw [hzero] at hchar
    apply hstr
    rw [hchar]
    exact mem_of_mem_runsOf hmem (List.mem_of_mem_take (List.getElem_mem hlong))
  · rintro ⟨hlt, hfits⟩ bytes
    have hkept : kept str = runs str := List.take_of_length_le hlt.le
    have hall : ∀ word ∈ kept str, Fits word := by rwa [hkept]
    refine ⟨by rw [parseString_eq, length_kept], fun k word hk hword => ?_, fun o ho => ?_⟩
    · exact parseString_row hall (hkept ▸ hword)
    · have hrows := hkept ▸ hlt
      rw [written_parseString, List.mem_append, List.mem_singleton,
        (storeAll_spec hall).2.2] at ho
      simp only [List.not_mem_nil, false_or, offset_def, MAX_WORDS, MAX_WORD_LENGTH] at ho hrows ⊢
      rcases ho with ⟨j, word, hj, i, hi, rfl⟩ | rfl
      · have hj := (List.getElem?_eq_some_iff.mp hj).1
        have hshort : (word.take 50).length ≤ 50 := List.length_take_le _ _
        omega
      · omega

/-- A line of two words. -/
theorem parseString_splits_example : Splits [107, 32, 50] :=
  (parseString_splits_iff [107, 32, 50] (by decide)).mpr (by decide +kernel)

/-- A line of a hundred words: the empty word behind them goes to `words[100]`. -/
theorem hundred_words : ¬ ∀ str : List UInt8, 0 ∉ str → Splits str := by
  intro hall
  have hlt := (hall (List.replicate 100 [97, 32]).flatten (by decide +kernel)).length_runs_lt
  exact absurd hlt (by decide +kernel)

end TronKernel.Shell.Words
