import TronKernel.Shell.Commands
import TronKernel.Text.Numerals

/-!
# Numbers that are written and read back

`uintToBase` writes an exact numeral, and it fits in the kernel's buffer of 64 bytes exactly if base
two is not asked for a number of 64 digits (`uintToBase_exact_iff`). `atoul` adds up an `int`, so it
reads back what `ultoa` wrote for the numbers that an `int` extends to (`atoul_ultoa_iff`). `atoi`
reads back what `sitoa` wrote except for the least `int`, which has no absolute value
(`atoi_sitoa_iff`).
-/

namespace TronKernel.Text

open Mem Numerals
open Sem (toInt toUInt64)
open Shell (atoi atoiLoop)

variable {m : Mem} {n v b k : ℕ} {ds : List ℕ}

/-! ## `uintToBase` -/

/-- The digit that a character stands for, among `0-9A-Z`. -/
def digitOf (c : UInt8) : Option ℕ :=
  if 48 ≤ c ∧ c ≤ 57 then some (c.toNat - 48)
  else if 65 ≤ c ∧ c ≤ 90 then some (c.toNat - 65 + 10)
  else none

/-- The digits of a text, if each of its characters is a digit in base `b`. -/
def digitsOf (b : ℕ) : List UInt8 → Option (List ℕ)
  | [] => some []
  | c :: cs => do
    let d ← digitOf c
    let ds ← digitsOf b cs
    if d < b then some (d :: ds) else none

/-- The length of the static `buffer`. -/
def BUFFER_SIZE : ℕ := 64

/-- `uintToBase` leaves an exact numeral of the value in the buffer and nothing elsewhere. -/
def WritesNumeral (m : Mem) (value : UInt64) (buffer : ℕ) (base : UInt32) : Prop :=
  ∃ m' digits cs ds, uintToBase m value buffer base = some (m', digits) ∧ CString m' buffer cs ∧
    digitsOf base.toNat cs = some ds ∧ Numerals.value base.toNat ds = value.toNat ∧
    (cs.head? = some 48 → cs = [48]) ∧ cs.length = digits ∧ cs.length + 1 ≤ BUFFER_SIZE ∧
    ∀ x, x < buffer ∨ buffer + BUFFER_SIZE ≤ x → m' x = m x

/-- A digit is read back from its character. -/
theorem digitOf_upperDigit : ∀ d < 36, digitOf (upperDigit (d : ℕ)) = some d := by decide

theorem upperDigit_ne_zero : ∀ d < 36, upperDigit (d : ℕ) ≠ 0 := by decide

theorem upperDigit_eq_zero_digit : ∀ d < 36, upperDigit (d : ℕ) = 48 → d = 0 := by decide

theorem digitsOf_map (hb : b ≤ 36) (hds : ∀ d ∈ ds, d < b) :
    digitsOf b (ds.map fun d : ℕ => upperDigit (1 * d)) = some ds := by
  induction ds with
  | nil => rfl
  | cons d ds ih =>
    have hd : d < b := hds d List.mem_cons_self
    rw [List.map_cons, digitsOf, ih fun e he => hds e (List.mem_cons_of_mem d he), one_mul,
      digitOf_upperDigit d (by omega)]
    simp [hd]

/-- The numeral of a number of 64 bits has at most 63 digits, except in base two from `2^63` on. -/
theorem length_numeral_fits_iff (hb : 2 ≤ b) (hn : n < 2 ^ 64) :
    (numeral b n).length + 1 ≤ BUFFER_SIZE ↔ (b = 2 → n < 2 ^ 63) := by
  have hiff : (numeral b n).length ≤ 63 ↔ n < b ^ 63 :=
    length_numeral_le_iff (by omega) (by omega)
  rw [BUFFER_SIZE, Nat.succ_le_succ_iff, hiff]
  constructor
  · rintro h rfl
    exact h
  · intro h
    by_cases htwo : b = 2
    · rw [htwo]
      exact h htwo
    · have hpow : 3 ^ 63 ≤ b ^ 63 := Nat.pow_le_pow_left (by omega) 63
      exact (hn.trans (by norm_num)).trans_le hpow

/-- The numeral is exact in every base from 2 to 36, and it fits in the buffer unless the base is
two and the value has 64 digits. -/
theorem uintToBase_exact_iff (m : Mem) (value : UInt64) (buffer : ℕ) (base : UInt32)
    (hlow : 2 ≤ base.toNat) (hhigh : base.toNat ≤ 36) :
    WritesNumeral m value buffer base ↔ (base.toNat = 2 → value.toNat < 2 ^ 63) := by
  have hvalue : value.toNat < 2 ^ 64 := value.toNat_lt
  obtain ⟨m', hrun, hholds, hframe⟩ := toBase_spec m buffer (b := base.toNat)
    (by omega) (.inl rfl : (1 : ℤ) = 1 ∨ (1 : ℤ) = -1) hvalue
  rw [one_mul] at hrun
  have hbase : ∀ d ∈ numeral base.toNat value.toNat, d < base.toNat :=
    fun d => lt_of_mem_numeral (by omega)
  have hstring : CString m' buffer (numeralText upperDigit 1 base.toNat value.toNat) := by
    refine ⟨hholds, ?_⟩
    rw [numeralText, List.mem_map]
    rintro ⟨d, hd, heq⟩
    rw [one_mul] at heq
    exact upperDigit_ne_zero d (by have := hbase d hd; omega) heq
  rw [← length_numeral_fits_iff hlow hvalue]
  constructor
  · rintro ⟨m'', digits, cs, ds, hrun', hcs, -, -, -, hlength, hfits, -⟩
    obtain ⟨rfl, rfl⟩ := Prod.mk.inj (Option.some.inj (hrun.symm.trans hrun'))
    omega
  · intro hfits
    refine ⟨m', _, _, _, hrun, hstring, digitsOf_map hhigh hbase,
      value_numeral (by omega) _, ?_, List.length_map _, ?_, ?_⟩
    · apply head_map_numeral (g := fun d : ℕ => upperDigit (1 * d)) (by omega)
      intro d hd
      rw [one_mul]
      exact upperDigit_eq_zero_digit d (by omega)
    · rw [numeralText, List.length_map]
      exact hfits
    · intro x hx
      apply hframe x
      rw [BUFFER_SIZE] at hx hfits
      omega

/-- The numeral of 41 in base 16. -/
theorem uintToBase_exact_hex : WritesNumeral (fun _ => 0) 41 0 16 :=
  (uintToBase_exact_iff (fun _ => 0) 41 0 16 (by decide) (by decide)).mpr (by decide)

/-- `2^63` has 64 digits in base two. -/
theorem printBin_overflow :
    ¬ ∀ (value : UInt64) (base : UInt32), 2 ≤ base.toNat → base.toNat ≤ 36 →
      WritesNumeral (fun _ => 0) value 0 base := by
  intro hall
  obtain ⟨m', digits, cs, ds, hrun, -, -, -, -, hlength, hfits, -⟩ :=
    hall 9223372036854775808 2 (by decide) (by decide)
  obtain ⟨m'', hrun', -⟩ := toBase_spec (fun _ => 0) 0 (b := 2) (n := 2 ^ 63)
    (by omega) (.inl rfl : (1 : ℤ) = 1 ∨ (1 : ℤ) = -1) (by omega)
  obtain ⟨rfl, rfl⟩ := Prod.mk.inj (Option.some.inj (hrun.symm.trans hrun'))
  rw [hlength, length_numeral_fits_iff (by omega) (by omega)] at hfits
  exact absurd (hfits rfl) (by omega)

/-! ## `ultoa` and `atoul` -/

/-- `atoul`: the digits are added up in an `int`, which is returned as an `unsigned long`. -/
def atoul (str : List UInt8) : ℕ := toUInt64 (atoiLoop 0 str)

/-- `atoul` gives back the number from the text that `ultoa` makes of it. -/
def ReadsBackUnsigned (m : Mem) (x : UInt64) (str : ℕ) : Prop :=
  ∃ m' digits cs, ultoa m x str = some (m', digits) ∧ CString m' str cs ∧ atoul cs = x.toNat

theorem decimalDigit_ne_zero : ∀ d < 10, UInt8.ofNat (48 + d) ≠ 0 := by decide

theorem zero_notMem_decimal (n : ℕ) : 0 ∉ decimal n := by
  rw [decimal, List.mem_map]
  rintro ⟨d, hd, heq⟩
  exact decimalDigit_ne_zero d (lt_of_mem_numeral (by omega) hd) heq

/-- A digit is added to the `int` so far, which wraps around. -/
theorem atoiLoop_digit (result : ℤ) {d : ℕ} (hd : d < 10) (str : List UInt8) :
    atoiLoop result (UInt8.ofNat (48 + d) :: str) = atoiLoop (toInt (result * 10 + d)) str := by
  have hdigit : ∀ d < 10, 48 ≤ UInt8.ofNat (48 + d) ∧ UInt8.ofNat (48 + d) ≤ 57 ∧
      (UInt8.ofNat (48 + d)).toNat = 48 + d := by decide
  obtain ⟨hle, hge, hval⟩ := hdigit d hd
  rw [atoiLoop, if_pos ⟨hle, hge⟩, hval]
  congr 2
  omega

theorem toInt_mul_add (v : ℤ) (d : ℕ) : toInt (toInt v * 10 + d) = toInt (v * 10 + d) := by
  rw [toInt, toInt, toInt]
  omega

theorem atoiLoop_digits (v : ℕ) (hds : ∀ d ∈ ds, d < 10) :
    atoiLoop (toInt v) (ds.map fun d => UInt8.ofNat (48 + d)) = toInt (valueFrom 10 v ds) := by
  induction ds generalizing v with
  | nil => rfl
  | cons d ds ih =>
    have hd : d < 10 := hds d List.mem_cons_self
    have hnext : toInt (toInt v * 10 + d) = toInt (v * 10 + d : ℕ) := by
      rw [toInt_mul_add]
      norm_cast
    rw [List.map_cons, atoiLoop_digit _ hd, hnext,
      ih _ fun e he => hds e (List.mem_cons_of_mem d he), valueFrom]

/-- The digits of a number read as an `int` are the number, wrapped around. -/
theorem atoiLoop_decimal (n : ℕ) : atoiLoop 0 (decimal n) = toInt n := by
  have hzero : toInt (0 : ℕ) = 0 := rfl
  have hread := atoiLoop_digits 0 fun d (hd : d ∈ numeral 10 n) =>
    lt_of_mem_numeral (by omega) hd
  rw [hzero] at hread
  rw [decimal, hread]
  exact congrArg (fun v : ℕ => toInt v) (value_numeral (by omega) n)

/-- An `int` as an `unsigned long` is the number it was cut from for the numbers whose upper 33 bits
are all equal. -/
theorem toUInt64_toInt_eq_iff (hn : n < 2 ^ 64) :
    toUInt64 (toInt n) = n ↔ n < 2 ^ 31 ∨ 2 ^ 64 - 2 ^ 31 ≤ n := by
  rw [toUInt64, toInt]
  omega

/-- `atoul` reads back the numbers below `2^31`, and those that are a negative `int` extended to 64
bits. -/
theorem atoul_ultoa_iff (m : Mem) (x : UInt64) (str : ℕ) :
    ReadsBackUnsigned m x str ↔ x.toNat < 2 ^ 31 ∨ 2 ^ 64 - 2 ^ 31 ≤ x.toNat := by
  obtain ⟨m', hrun, hholds⟩ := ultoa_spec m x str
  have hstring : CString m' str (decimal x.toNat) := ⟨hholds, zero_notMem_decimal _⟩
  have hread : atoul (decimal x.toNat) = toUInt64 (toInt x.toNat) := by
    rw [atoul, atoiLoop_decimal]
  rw [← toUInt64_toInt_eq_iff x.toNat_lt, ← hread]
  constructor
  · rintro ⟨m'', digits, cs, hrun', hcs, heq⟩
    obtain ⟨rfl, rfl⟩ := Prod.mk.inj (Option.some.inj (hrun.symm.trans hrun'))
    rw [hstring.unique hcs]
    exact heq
  · intro heq
    exact ⟨m', _, _, hrun, hstring, heq⟩

/-- The address `2^31` comes back with its upper half set. -/
theorem address_lost :
    ¬ ∀ x : UInt64, ReadsBackUnsigned (fun _ => 0) x 0 := by
  intro hall
  obtain ⟨m', digits, cs, hrun, hcs, heq⟩ := hall 2147483648
  obtain ⟨m'', hrun', hholds⟩ := ultoa_spec (fun _ => 0) 2147483648 0
  obtain ⟨rfl, rfl⟩ := Prod.mk.inj (Option.some.inj (hrun.symm.trans hrun'))
  rw [hcs.unique ⟨hholds, zero_notMem_decimal _⟩, atoul, atoiLoop_decimal] at heq
  exact absurd heq (by decide)

/-! ## `sitoa` and `atoi` -/

/-- An optional minus sign and decimal digits without leading zeros. -/
def IsDecimal (cs : List UInt8) : Prop :=
  ∃ sign digits, cs = sign ++ digits ∧ (sign = [] ∨ sign = [45]) ∧ digits ≠ [] ∧
    (∀ c ∈ digits, 48 ≤ c ∧ c ≤ 57) ∧ (digits.head? = some 48 → digits = [48])

/-- `atoi` gives back the number from the text that `sitoa` makes of it in base ten. -/
def ReadsBackSigned (m : Mem) (num : Int32) (str : ℕ) : Prop :=
  ∃ m' cs, sitoa m num str 10 = some m' ∧ CString m' str cs ∧ atoi cs = num.toInt ∧ IsDecimal cs

theorem isDecimal_decimal (sign : List UInt8) (hsign : sign = [] ∨ sign = [45]) (n : ℕ) :
    IsDecimal (sign ++ decimal n) := by
  have hdigit : ∀ d < 10, 48 ≤ UInt8.ofNat (48 + d) ∧ UInt8.ofNat (48 + d) ≤ 57 := by decide
  have hzero : ∀ d < 10, UInt8.ofNat (48 + d) = UInt8.ofNat (48 + 0) → d = 0 := by decide
  refine ⟨sign, decimal n, rfl, hsign, by simp [decimal, numeral_ne_nil], ?_,
    head_map_numeral (by omega) hzero⟩
  intro c hc
  rw [decimal, List.mem_map] at hc
  obtain ⟨d, hd, rfl⟩ := hc
  exact hdigit d (lt_of_mem_numeral (by omega) hd)

/-- Behind a text that begins with a digit there is no sign. -/
theorem atoi_decimal (n : ℕ) : atoi (decimal n) = toInt n := by
  have hsign : ∀ d < 10, UInt8.ofNat (48 + d) ≠ 45 ∧ UInt8.ofNat (48 + d) ≠ 43 := by decide
  rw [← atoiLoop_decimal]
  cases hcs : numeral 10 n with
  | nil => exact absurd hcs numeral_ne_nil
  | cons d ds =>
    have hd : d < 10 := lt_of_mem_numeral (b := 10) (n := n) (by omega) (by simp [hcs])
    obtain ⟨hminus, hplus⟩ := hsign d hd
    rw [decimal, hcs, List.map_cons]
    unfold atoi
    split
    · rename_i heq
      exact absurd (List.cons.inj heq).1 hminus
    · rename_i heq
      exact absurd (List.cons.inj heq).1 hplus
    · rfl

/-- Behind a minus sign the number is negated, and wraps around once more. -/
theorem atoi_minus_decimal (n : ℕ) : atoi (45 :: decimal n) = toInt (-n) := by
  show toInt (-atoiLoop 0 (decimal n)) = toInt (-n)
  rw [atoiLoop_decimal, toInt, toInt, toInt]
  omega

/-- The text that `sitoa` makes of a number with an absolute value. -/
theorem sitoaText_eq {num : Int32} (hne : num.toInt ≠ -2 ^ 31) :
    sitoaText num = (if num.toInt < 0 then [45] else []) ++ decimal num.toInt.natAbs := by
  rw [sitoaText, emittedSign, if_neg hne, numeralText_eq_decimal lowerDigit_of_lt_ten]

/-- The digits of the least `int` are emitted as characters below `'0'`. -/
theorem sitoaText_least {num : Int32} (hnum : num.toInt = -2 ^ 31) :
    sitoaText num = [45, 46, 47, 44, 41, 44, 40, 45, 42, 44, 40] := by
  have hdigits : numeral 10 2147483648 = [2, 1, 4, 7, 4, 8, 3, 6, 4, 8] := by
    norm_num [numeral]
  rw [sitoaText, emittedSign, if_pos hnum, hnum, numeralText]
  simp only [show (-2 ^ 31 : ℤ).natAbs = 2147483648 from rfl, hdigits]
  decide

/-- `atoi` reads back what `sitoa` writes, a decimal numeral, for every number but the least. -/
theorem atoi_sitoa_iff (m : Mem) (num : Int32) (str : ℕ) :
    ReadsBackSigned m num str ↔ num.toInt ≠ -2 ^ 31 := by
  obtain ⟨m', hrun, hholds⟩ := sitoa_spec m num str
  have hlow : -2 ^ 31 ≤ num.toInt := num.le_toInt
  have hhigh : num.toInt < 2 ^ 31 := num.toInt_lt
  constructor
  · rintro ⟨m'', cs, hrun', hcs, heq, -⟩ hleast
    obtain rfl : m' = m'' := Option.some.inj (hrun.symm.trans hrun')
    rw [sitoaText_least hleast] at hholds
    rw [hcs.unique ⟨hholds, by decide⟩, hleast] at heq
    exact absurd heq (by decide)
  · intro hne
    rw [sitoaText_eq hne] at hholds
    refine ⟨m', _, hrun, ⟨hholds, ?_⟩, ?_, isDecimal_decimal _ (by split_ifs <;> simp) _⟩
    · rw [List.mem_append, not_or]
      exact ⟨by split_ifs <;> decide, zero_notMem_decimal _⟩
    · by_cases hneg : num.toInt < 0
      · rw [if_pos hneg, List.singleton_append, atoi_minus_decimal, toInt]
        omega
      · rw [if_neg hneg, List.nil_append, atoi_decimal, toInt]
        omega

/-- The least `int` is read back as zero. -/
theorem least_int_lost : ¬ ∀ num : Int32, ReadsBackSigned (fun _ => 0) num 0 := by
  intro hall
  obtain ⟨m', cs, hrun, hcs, heq, -⟩ := hall (-2147483648)
  obtain ⟨m'', hrun', hholds⟩ := sitoa_spec (fun _ => 0) (-2147483648) 0
  obtain rfl : m' = m'' := Option.some.inj (hrun.symm.trans hrun')
  rw [sitoaText_least (by decide)] at hholds
  rw [hcs.unique ⟨hholds, by decide⟩] at heq
  exact absurd heq (by decide)

end TronKernel.Text
