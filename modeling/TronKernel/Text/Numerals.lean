import TronKernel.Lib.Numerals
import TronKernel.Lib.Reversal

/-!
# Writing numbers

`numToBase` and `uintToBase` of the kernel and `sitoa` of the user library emit the digits of a
number lowest first and reverse them in place, `ultoa` counts them and fills them in from the end.
In C the remainder of a negative number is negative, so the digits that `numToBase` makes of one lie
below `'0'`.
-/

namespace TronKernel.Text

open Mem Numerals

/-! ## The functions -/

/-- `(remainder < 10) ? remainder + '0' : remainder + 'A' - 10`, as it is stored. -/
def upperDigit (remainder : ℤ) : UInt8 :=
  UInt8.ofInt (if remainder < 10 then remainder + 48 else remainder + 65 - 10)

/-- `(rem > 9) ? (rem - 10) + 'a' : rem + '0'`, as it is stored. -/
def lowerDigit (rem : ℤ) : UInt8 :=
  UInt8.ofInt (if rem > 9 then rem - 10 + 97 else rem + 48)

/-- More rounds than a number of 64 bits has digits. -/
def ROUNDS : ℕ := 65

/-- Emit digits behind the first `digits` ones until the value is zero: the memory and the number of
digits. `none` after too many rounds. -/
def emitDigits (digit : ℤ → UInt8) (buffer : ℕ) (base : ℤ) :
    ℕ → Mem → ℕ → ℤ → Option (Mem × ℕ)
  | 0, _, _, _ => none
  | rounds + 1, m, digits, value =>
    if value = 0 then some (m, digits)
    else
      let m := Function.update m (buffer + digits) (digit (value.tmod base))
      emitDigits digit buffer base rounds m (digits + 1) (value.tdiv base)

/-- The common body of `numToBase` and `uintToBase`: the memory and the returned count. The first
digit is emitted before the value is looked at. -/
def toBase (m : Mem) (value : ℤ) (buffer : ℕ) (base : ℤ) : Option (Mem × ℕ) := do
  let m := Function.update m buffer (upperDigit (value.tmod base))
  let (m, digits) ← emitDigits upperDigit buffer base ROUNDS m 1 (value.tdiv base)
  let m := Function.update m (buffer + digits) 0
  some (swapEnds m buffer (buffer + digits - 1), digits)

/-- `numToBase`. -/
def numToBase (m : Mem) (value : Int64) (buffer : ℕ) (base : Int32) : Option (Mem × ℕ) :=
  toBase m value.toInt buffer base.toInt

/-- `uintToBase`. -/
def uintToBase (m : Mem) (value : UInt64) (buffer : ℕ) (base : UInt32) : Option (Mem × ℕ) :=
  toBase m value.toNat buffer base.toNat

/-- `reverse`. -/
def reverse (m : Mem) (str length : ℕ) : Mem := swapEnds m str (str + length - 1)

/-- `sitoa`. -/
def sitoa (m : Mem) (num : Int32) (str : ℕ) (base : Int32) : Option Mem :=
  if num = 0 then some (Function.update (Function.update m str 48) (str + 1) 0)
  else do
    let isNegative := num < 0 ∧ base = 10
    let num := if isNegative then -num else num
    let (m, i) ← emitDigits lowerDigit str base.toInt ROUNDS m 0 num.toInt
    let (m, i) := if isNegative then (Function.update m (str + i) 45, i + 1) else (m, i)
    let m := Function.update m (str + i) 0
    some (reverse m str i)

/-- `for (long n = number / 10; n != 0; digits++, n /= 10)`. -/
def countDigits : ℕ → ℕ → ℕ → Option ℕ
  | 0, _, _ => none
  | rounds + 1, digits, n =>
    if n = 0 then some digits else countDigits rounds (digits + 1) (n / 10)

/-- `for (int i = digits - 1; i >= 0; i--)`, with so many digits to go. -/
def fillDigits (str : ℕ) : ℕ → Mem → ℕ → Mem
  | 0, m, _ => m
  | i + 1, m, number =>
    fillDigits str i (Function.update m (str + i) (UInt8.ofNat (number % 10 + 48))) (number / 10)

/-- `ultoa`. -/
def ultoa (m : Mem) (number : UInt64) (str : ℕ) : Option (Mem × ℕ) := do
  let digits ← countDigits ROUNDS 1 (number.toNat / 10)
  if digits = 1 then
    let m := Function.update m str (UInt8.ofNat (48 + number.toNat))
    some (Function.update m (str + 1) 0, digits)
  else
    let m := Function.update m (str + digits) 0
    some (fillDigits str digits m number.toNat, digits)

/-! ## Emitting digits -/

variable {m : Mem} {buffer b n i rounds : ℕ} {s : ℤ} {digit : ℤ → UInt8} {cs : List UInt8}

theorem signed_tmod (hs : s = 1 ∨ s = -1) (n b : ℕ) :
    (s * n : ℤ).tmod b = s * (n % b : ℕ) := by
  rcases hs with rfl | rfl
  · rw [one_mul, one_mul, Int.ofNat_tmod]
  · rw [neg_one_mul, neg_one_mul, Int.neg_tmod, Int.ofNat_tmod]

theorem signed_tdiv (hs : s = 1 ∨ s = -1) (n b : ℕ) :
    (s * n : ℤ).tdiv b = s * (n / b : ℕ) := by
  rcases hs with rfl | rfl
  · rw [one_mul, one_mul, Int.ofNat_tdiv]
  · rw [neg_one_mul, neg_one_mul, Int.neg_tdiv, Int.ofNat_tdiv]

/-- The digits are emitted lowest first, with the sign of the number. -/
theorem emitDigits_spec (digit : ℤ → UInt8) (m : Mem) (buffer i : ℕ) (hb : 1 < b)
    (hs : s = 1 ∨ s = -1) (hrounds : (Nat.digits b n).length < rounds) :
    ∃ m', emitDigits digit buffer b rounds m i (s * n) = some (m', i + (Nat.digits b n).length) ∧
      Holds m' (buffer + i) ((Nat.digits b n).map fun d : ℕ => digit (s * d)) ∧
      ∀ x, x < buffer + i ∨ buffer + i + (Nat.digits b n).length ≤ x → m' x = m x := by
  induction rounds generalizing m i n with
  | zero => omega
  | succ rounds ih =>
    by_cases hn : n = 0
    · subst hn
      refine ⟨m, ?_, by simp, fun _ _ => rfl⟩
      rw [emitDigits, if_pos (by simp)]
      simp
    · have hne : (s * n : ℤ) ≠ 0 := by
        rcases hs with rfl | rfl <;> omega
      have hdigits : Nat.digits b n = n % b :: Nat.digits b (n / b) :=
        Nat.digits_eq_cons_digits_div hb hn
      rw [hdigits, List.length_cons] at hrounds ⊢
      rw [emitDigits, if_neg hne, signed_tmod hs, signed_tdiv hs]
      obtain ⟨m', hrun, hholds, hframe⟩ :=
        ih (n := n / b) (Function.update m (buffer + i) (digit (s * (n % b : ℕ)))) (i + 1)
        (by omega)
      refine ⟨m', ?_, ?_, ?_⟩
      · rw [hrun]
        congr 2
        omega
      · rw [List.map_cons, holds_cons]
        refine ⟨?_, hholds⟩
        rw [hframe _ (by omega), Function.update_self]
      · intro x hx
        rw [hframe x (by omega), Function.update_of_ne (by omega)]

/-- A string that is terminated and reversed. -/
theorem holds_reversed (h : Holds m buffer cs) (hne : cs ≠ []) :
    Holds (swapEnds (Function.update m (buffer + cs.length) 0) buffer (buffer + cs.length - 1))
        buffer (cs.reverse ++ [0]) ∧
      ∀ x, x < buffer ∨ buffer + cs.length < x →
        swapEnds (Function.update m (buffer + cs.length) 0) buffer (buffer + cs.length - 1) x
          = m x := by
  have hpos : 0 < cs.length := List.length_pos_of_ne_nil hne
  have hheld : Holds (Function.update m (buffer + cs.length) 0) buffer cs :=
    h.congr fun x hle hlt => Function.update_of_ne (by omega) _ _
  refine ⟨?_, ?_⟩
  · rw [holds_append, List.length_reverse]
    refine ⟨hheld.swapEnds hne, ?_, trivial⟩
    rw [swapEnds_frame (by omega), Function.update_self]
  · intro x hx
    rw [swapEnds_frame (by omega), Function.update_of_ne (by omega)]

/-- The text of a number with the given sign. -/
def numeralText (digit : ℤ → UInt8) (s : ℤ) (b n : ℕ) : List UInt8 :=
  (numeral b n).map fun d : ℕ => digit (s * d)

theorem reverse_numeral (hb : 1 < b) (n : ℕ) :
    (numeral b n).reverse = n % b :: Nat.digits b (n / b) := by
  by_cases hn : n = 0
  · simp [hn]
  · rw [numeral_of_ne_zero hn, List.reverse_reverse, Nat.digits_eq_cons_digits_div hb hn]

/-- What `numToBase` and `uintToBase` write, and where. -/
theorem toBase_spec (m : Mem) (buffer : ℕ) (hb : 1 < b) (hs : s = 1 ∨ s = -1) (hn : n < 2 ^ 64) :
    ∃ m', toBase m (s * n) buffer b = some (m', (numeral b n).length) ∧
      Holds m' buffer (numeralText upperDigit s b n ++ [0]) ∧
      ∀ x, x < buffer ∨ buffer + (numeral b n).length < x → m' x = m x := by
  have hshort : (Nat.digits b (n / b)).length < ROUNDS := by
    have hle := length_digits_le hb ((Nat.div_le_self n b).trans_lt hn)
    rw [ROUNDS]
    omega
  obtain ⟨m₁, hrun, hholds, hframe⟩ := emitDigits_spec upperDigit
    (Function.update m buffer (upperDigit (s * (n % b : ℕ)))) buffer 1 hb hs hshort
  have hlow : Holds m₁ buffer ((numeral b n).reverse.map fun d : ℕ => upperDigit (s * d)) := by
    rw [reverse_numeral hb, List.map_cons, holds_cons]
    refine ⟨?_, hholds⟩
    rw [hframe _ (by omega), Function.update_self]
  have hlength : (numeral b n).length = 1 + (Nat.digits b (n / b)).length := by
    rw [← List.length_reverse, reverse_numeral hb, List.length_cons, Nat.add_comm]
  obtain ⟨hheld, hother⟩ := holds_reversed hlow (by simp [numeral_ne_nil])
  rw [List.length_map, List.length_reverse, ← List.map_reverse, List.reverse_reverse] at hheld
  rw [List.length_map, List.length_reverse] at hother
  refine ⟨_, ?_, hheld, ?_⟩
  · rw [toBase, signed_tmod hs, signed_tdiv hs, hrun, hlength]
    rfl
  · intro x hx
    rw [hother x hx, hframe x (by omega), Function.update_of_ne (by omega)]

/-! ## Decimal text -/

/-- The decimal digits of a number, as characters. -/
def decimal (n : ℕ) : List UInt8 := (numeral 10 n).map fun d => UInt8.ofNat (48 + d)

theorem upperDigit_of_lt_ten : ∀ d < 10, upperDigit (d : ℕ) = UInt8.ofNat (48 + d) := by decide

theorem lowerDigit_of_lt_ten : ∀ d < 10, lowerDigit (d : ℕ) = UInt8.ofNat (48 + d) := by decide

theorem numeralText_eq_decimal (h : ∀ d < 10, digit (d : ℕ) = UInt8.ofNat (48 + d)) (n : ℕ) :
    numeralText digit 1 10 n = decimal n := by
  rw [numeralText, decimal]
  apply List.map_congr_left
  intro d hd
  rw [one_mul, h d (lt_of_mem_numeral (by omega) hd)]

@[simp] theorem length_decimal (n : ℕ) : (decimal n).length = (numeral 10 n).length :=
  List.length_map _

/-- What `sitoa` writes for a number whose digits are emitted with the sign `s`. -/
theorem emitted_spec (m : Mem) (buffer : ℕ) (hs : s = 1 ∨ s = -1) (hn : n < 2 ^ 64) (hpos : n ≠ 0) :
    ∃ m', emitDigits lowerDigit buffer 10 ROUNDS m 0 (s * n)
        = some (m', (numeral 10 n).length) ∧
      Holds m' buffer (numeralText lowerDigit s 10 n).reverse := by
  have hlength : (numeral 10 n).length = (Nat.digits 10 n).length := by
    rw [numeral_of_ne_zero hpos, List.length_reverse]
  have hshort : (Nat.digits 10 n).length < ROUNDS := by
    have hle := length_digits_le (b := 10) (by omega) hn
    rw [ROUNDS]
    omega
  obtain ⟨m', hrun, hholds, -⟩ := emitDigits_spec lowerDigit m buffer 0 (b := 10) (by omega)
    hs hshort
  refine ⟨m', ?_, ?_⟩
  · rw [hlength, ← Nat.zero_add (Nat.digits 10 n).length]
    exact hrun
  · rw [numeralText, numeral_of_ne_zero hpos, ← List.map_reverse, List.reverse_reverse]
    exact hholds

/-- The sign with which `sitoa` emits the digits: `-num` is negative again for the least number. -/
def emittedSign (num : Int32) : ℤ := if num.toInt = -2 ^ 31 then -1 else 1

/-- What `sitoa` writes in base ten: a minus sign for a negative number, then its digits. -/
def sitoaText (num : Int32) : List UInt8 :=
  (if num.toInt < 0 then [45] else []) ++
    numeralText lowerDigit (emittedSign num) 10 num.toInt.natAbs

/-- The number whose digits are emitted. -/
theorem toInt_emitted (num : Int32) :
    (if num < 0 then -num else num).toInt = emittedSign num * (num.toInt.natAbs : ℕ) := by
  have hlow : -2 ^ 31 ≤ num.toInt := num.le_toInt
  have hhigh : num.toInt < 2 ^ 31 := num.toInt_lt
  have hzero : (0 : Int32).toInt = 0 := rfl
  rw [emittedSign]
  by_cases hneg : num < 0
  · have hlt : num.toInt < 0 := by rwa [Int32.lt_iff_toInt_lt, hzero] at hneg
    rw [if_pos hneg, Int32.toInt_neg]
    by_cases hmin : num.toInt = -2 ^ 31
    · rw [if_pos hmin, hmin]
      rfl
    · rw [if_neg hmin, Int.bmod_eq_of_le (by omega) (by omega)]
      omega
  · have hle : ¬ num.toInt < 0 := by rwa [Int32.lt_iff_toInt_lt, hzero] at hneg
    rw [if_neg hneg, if_neg (by omega)]
    omega

theorem sitoa_spec (m : Mem) (num : Int32) (str : ℕ) :
    ∃ m', sitoa m num str 10 = some m' ∧ Holds m' str (sitoaText num ++ [0]) := by
  by_cases h0 : num = 0
  · subst h0
    refine ⟨_, if_pos rfl, ?_⟩
    rw [show sitoaText 0 ++ [0] = [48, 0] from rfl]
    refine ⟨?_, ?_, trivial⟩
    · rw [Function.update_of_ne (by omega), Function.update_self]
    · rw [Function.update_self]
  have hsign : emittedSign num = 1 ∨ emittedSign num = -1 := by
    rw [emittedSign]
    split_ifs <;> simp
  have hlow : -2 ^ 31 ≤ num.toInt := num.le_toInt
  have hhigh : num.toInt < 2 ^ 31 := num.toInt_lt
  have hne : num.toInt ≠ 0 := fun h => h0 (Int32.toInt_inj.mp h)
  have hneg : num < 0 ↔ num.toInt < 0 := Int32.lt_iff_toInt_lt
  set digits := numeralText lowerDigit (emittedSign num) 10 num.toInt.natAbs with hdigits
  obtain ⟨m₁, hrun, hholds⟩ := emitted_spec m str (n := num.toInt.natAbs) hsign (by omega)
    (by omega)
  have hlength : (numeral 10 num.toInt.natAbs).length = digits.reverse.length := by
    rw [hdigits, numeralText, List.length_reverse, List.length_map]
  have hvalue := toInt_emitted num
  rw [← hvalue, hlength] at hrun
  rw [← hdigits] at hholds
  rw [sitoa, if_neg h0]
  simp only [and_true, show ((10 : Int32).toInt) = 10 from rfl]
  rw [hrun]
  simp only [Option.bind_eq_bind, Option.bind_some, Option.some.injEq, exists_eq_left', hneg]
  rw [sitoaText, ← hdigits]
  by_cases hlt : num.toInt < 0
  · simp only [if_pos hlt, reverse]
    have hheld : Holds (Function.update m₁ (str + digits.reverse.length) 45) str
        (digits.reverse ++ [45]) := by
      rw [holds_append]
      refine ⟨hholds.congr fun x _ hx => Function.update_of_ne (by omega) _ _, ?_, trivial⟩
      rw [Function.update_self]
    have hfinal := (holds_reversed hheld (by simp)).1
    rw [List.reverse_append, List.reverse_reverse, List.length_append] at hfinal
    exact hfinal
  · simp only [if_neg hlt, reverse, List.nil_append]
    have hfinal := (holds_reversed hholds (by simp [digits, numeralText, numeral_ne_nil])).1
    rw [List.reverse_reverse] at hfinal
    exact hfinal

/-! ## `ultoa` -/

theorem countDigits_spec (hrounds : (Nat.digits 10 n).length < rounds) :
    countDigits rounds i n = some (i + (Nat.digits 10 n).length) := by
  induction rounds generalizing i n with
  | zero => omega
  | succ rounds ih =>
    rw [countDigits]
    by_cases hn : n = 0
    · rw [if_pos hn, hn]
      rfl
    · have hdigits := Nat.digits_eq_cons_digits_div (b := 10) (by omega) hn
      rw [hdigits, List.length_cons] at hrounds ⊢
      rw [if_neg hn, ih (by omega)]
      congr 1
      omega

theorem fillDigits_frame {str k x : ℕ} (hx : x < str ∨ str + k ≤ x) :
    fillDigits str k m n x = m x := by
  induction k generalizing m n with
  | zero => rfl
  | succ k ih => rw [fillDigits, ih (by omega), Function.update_of_ne (by omega)]

/-- As many digits as the number has are filled in. -/
theorem fillDigits_spec {str k : ℕ} (hk : (numeral 10 n).length = k) :
    Holds (fillDigits str k m n) str (decimal n) := by
  induction k generalizing m n with
  | zero => exact absurd (List.length_eq_zero_iff.mp hk) numeral_ne_nil
  | succ k ih =>
    rw [fillDigits]
    by_cases hn : n < 10
    · rw [numeral_of_lt hn, List.length_singleton] at hk
      obtain rfl : k = 0 := by omega
      rw [decimal, numeral_of_lt hn, Nat.mod_eq_of_lt hn, fillDigits, Nat.add_comm n 48]
      exact ⟨Function.update_self _ _ _, trivial⟩
    · have hstep := numeral_step (b := 10) (by omega) (Nat.le_of_not_lt hn)
      rw [hstep, List.length_append, List.length_singleton] at hk
      rw [decimal, hstep, List.map_append, holds_append]
      refine ⟨ih (by omega), ?_, trivial⟩
      rw [List.length_map, fillDigits_frame (by omega), Nat.add_right_cancel hk,
        Function.update_self, Nat.add_comm]

/-- What `ultoa` writes. -/
theorem ultoa_spec (m : Mem) (number : UInt64) (str : ℕ) :
    ∃ m', ultoa m number str = some (m', (numeral 10 number.toNat).length) ∧
      Holds m' str (decimal number.toNat ++ [0]) := by
  have hlength : (numeral 10 number.toNat).length =
      1 + (Nat.digits 10 (number.toNat / 10)).length := by
    rw [← List.length_reverse, reverse_numeral (by omega), List.length_cons, Nat.add_comm]
  have hshort : (Nat.digits 10 (number.toNat / 10)).length < ROUNDS := by
    have hlt : number.toNat / 10 < 2 ^ 64 :=
      (Nat.div_le_self _ _).trans_lt number.toNat_lt
    have hle := length_digits_le (b := 10) (by omega) hlt
    rw [ROUNDS]
    omega
  rw [ultoa, countDigits_spec hshort, ← hlength]
  simp only [Option.bind_eq_bind, Option.bind_some]
  by_cases hone : (numeral 10 number.toNat).length = 1
  · have hlt : number.toNat < 10 := by
      have := (length_numeral_le_iff (b := 10) (k := 1) (by omega) (by omega)).mp hone.le
      omega
    rw [if_pos hone, decimal, numeral_of_lt hlt]
    refine ⟨_, rfl, ?_, ?_, trivial⟩
    · rw [Function.update_of_ne (by omega), Function.update_self]
    · rw [Function.update_self]
  · rw [if_neg hone]
    refine ⟨_, rfl, ?_⟩
    rw [holds_append, length_decimal]
    refine ⟨fillDigits_spec rfl, ?_, trivial⟩
    rw [fillDigits_frame (by omega), Function.update_self]

end TronKernel.Text
