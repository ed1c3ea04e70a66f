import TronKernel.Lib.Concat
import TronKernel.Text.Print
import TronKernel.Text.ReadBack

/-!
# When `print` prints what the format says

The digits of a negative number that goes through `numToBase` lie below `'0'`, `sitoa` gets the
least `int` wrong in the same way, `%x`, `%X` and `%p` write octal digits, and a zero byte ends a
string before it starts. Such a piece comes out wrong, and no other piece of the format can make up
for it: what `print` emits is what the format says if and only if each piece is emitted right
(`print_iff`).
-/

namespace TronKernel.Text

open Mem Numerals Concat

/-- The signed decimal numeral. -/
def decimalOf (n : Int32) : List UInt8 :=
  (if n.toInt < 0 then ['-'.toUInt8] else []) ++ decimal n.toInt.natAbs

/-- `0x` and the hexadecimal numeral. -/
def hexText (digit : ℤ → UInt8) (n : ℕ) : List UInt8 :=
  '0'.toUInt8 :: 'x'.toUInt8 :: numeralText digit 1 16 n

/-- What the format says. -/
def Piece.text : Piece → List UInt8
  | .lit c _ => [c]
  | .char n => [n.toUInt32.toUInt8]
  | .str s _ => s
  | .dec n => decimalOf n
  | .int n => decimalOf n
  | .oct n => numeralText upperDigit 1 8 n.toUInt32.toNat
  | .hex n => hexText lowerDigit n.toUInt32.toNat
  | .upperHex n => hexText upperDigit n.toUInt32.toNat
  | .ptr p => hexText lowerDigit p.toNat
  | .percent => ['%'.toUInt8]

def textOf (qs : List Piece) : List UInt8 := qs.flatMap Piece.text

/-- The values that `%d` and `%i` print. -/
def Version.Prints : Version → Int32 → Prop
  | .kernel, n => 0 ≤ n.toInt
  | .user, n => n.toInt ≠ -2 ^ 31

/-- The values that a piece prints. -/
def Piece.Exact (v : Version) : Piece → Prop
  | .char n => n.toUInt32.toUInt8 ≠ 0
  | .dec n => v.Prints n
  | .int n => v.Prints n
  | .oct n => 0 ≤ n.toInt
  | .hex n => n.toUInt32.toNat < 8
  | .upperHex n => n.toUInt32.toNat < 8
  | .ptr p => p.toNat < 8
  | _ => True

/-! ## Octal digits of a hexadecimal numeral -/

variable {n p : ℕ} {ds : List ℕ}

/-- Digits that say the same number of 31 bits in the bases 8 and 16, up to `2 ^ 32`, are zeros but
for the lowest one. -/
theorem ofDigits_eq_zero {i : ℕ} (hi : 1 ≤ i) (hds : ∀ d ∈ ds, d < 8)
    (hlt : 8 ^ i * Nat.ofDigits 8 ds < 2 ^ 31)
    (hmod : 16 ^ i * Nat.ofDigits 16 ds % 2 ^ 32 = 8 ^ i * Nat.ofDigits 8 ds % 2 ^ 32) :
    Nat.ofDigits 8 ds = 0 := by
  induction ds generalizing i with
  | nil => rfl
  | cons d ds ih =>
    obtain ⟨hd, hrest⟩ := List.forall_mem_cons.mp hds
    rw [Nat.ofDigits_cons] at hlt hmod ⊢
    rw [Nat.ofDigits_cons] at hmod
    have hzero : d = 0 := by
      by_contra hne
      have hsmall : 8 ^ i < 8 ^ 11 := by
        have hle : 8 ^ i * 1 ≤ 8 ^ i * (d + 8 * Nat.ofDigits 8 ds) :=
          Nat.mul_le_mul_left _ (by omega)
        omega
      have hle : i < 11 := (Nat.pow_lt_pow_iff_right (by omega)).mp hsmall
      interval_cases i <;> omega
    subst hzero
    have h8 : 8 ^ (i + 1) * Nat.ofDigits 8 ds = 8 ^ i * (0 + 8 * Nat.ofDigits 8 ds) := by
      rw [pow_succ, Nat.mul_assoc, Nat.zero_add]
    have h16 : 16 ^ (i + 1) * Nat.ofDigits 16 ds = 16 ^ i * (0 + 16 * Nat.ofDigits 16 ds) := by
      rw [pow_succ, Nat.mul_assoc, Nat.zero_add]
    rw [ih (i := i + 1) (by omega) hrest (by rw [h8]; exact hlt) (by rw [h8, h16]; exact hmod)]

/-- A number whose hexadecimal numeral is the octal one of its lower bits has one digit. -/
theorem lt_eight_of_numeral_eq (h : numeral 8 n = numeral 16 p) (hn : n < 2 ^ 31)
    (hmod : p % 2 ^ 32 = n) : p < 8 := by
  have hsmall : n < 8 := by
    by_cases h0 : n = 0
    · omega
    by_cases hp0 : p = 0
    · omega
    rw [numeral_of_ne_zero h0, numeral_of_ne_zero hp0, List.reverse_inj] at h
    have hdigits8 := Nat.ofDigits_digits 8 n
    have hdigits16 := Nat.ofDigits_digits 16 p
    rw [← h] at hdigits16
    have hlt : ∀ d ∈ Nat.digits 8 n, d < 8 := fun d hd => Nat.digits_lt_base (by omega) hd
    cases hds : Nat.digits 8 n with
    | nil => exact absurd (Nat.digits_eq_nil_iff_eq_zero.mp hds) h0
    | cons d ds =>
      rw [hds] at hdigits8 hdigits16 hlt
      obtain ⟨hd, hlt⟩ := List.forall_mem_cons.mp hlt
      rw [Nat.ofDigits_cons] at hdigits8 hdigits16
      have hzero := ofDigits_eq_zero (i := 1) le_rfl hlt (by omega) (by omega)
      omega
  have hp := value_numeral (b := 16) (by omega) p
  rw [← h, numeral_of_lt hsmall, value, valueFrom, valueFrom] at hp
  omega

/-! ## Characters -/

/-- A hexadecimal digit, in either case. -/
def IsHex (c : UInt8) : Prop := 48 ≤ c ∧ c ≤ 57 ∨ 65 ≤ c ∧ c ≤ 70 ∨ 97 ≤ c ∧ c ≤ 102

/-- A decimal digit. -/
def IsDigit (c : UInt8) : Prop := 48 ≤ c ∧ c ≤ 57

instance (c : UInt8) : Decidable (IsHex c) := inferInstanceAs (Decidable (_ ∨ _))

instance (c : UInt8) : Decidable (IsDigit c) := inferInstanceAs (Decidable (_ ∧ _))

theorem IsDigit.isHex {c : UInt8} (h : IsDigit c) : IsHex c := .inl h

theorem upperDigit_isDigit : ∀ d < 10, IsDigit (upperDigit (d : ℕ)) := by decide

theorem upperDigit_isHex : ∀ d < 16, IsHex (upperDigit (d : ℕ)) := by decide

theorem lowerDigit_isHex : ∀ d < 16, IsHex (lowerDigit (d : ℕ)) := by decide

/-- A digit below 8 looks like no other one, in either case. -/
theorem upperDigit_inj : ∀ d < 8, ∀ d' < 16, upperDigit (d : ℕ) = upperDigit (d' : ℕ) → d = d' := by
  decide

theorem upperDigit_eq_lowerDigit :
    ∀ d < 8, ∀ d' < 16, upperDigit (d : ℕ) = lowerDigit (d' : ℕ) → d = d' := by decide

/-- The digits of a negative number, and the first of them. -/
theorem negativeDigit_le : ∀ d < 10, upperDigit (-(d : ℕ)) ≤ 48 ∧ lowerDigit (-(d : ℕ)) ≤ 48 := by
  decide

theorem negativeDigit_not_isHex : ∀ d < 10, d ≠ 0 → ¬ IsHex (upperDigit (-(d : ℕ))) := by decide

variable {b V : ℕ} {num : Int32} {digit : ℤ → UInt8} {x : UInt8} {c c' e w X Y : List UInt8}

theorem forall_numeralText {P : UInt8 → Prop} {s : ℤ} (hb : 1 < b)
    (h : ∀ d < b, P (digit (s * (d : ℕ)))) : ∀ c ∈ numeralText digit s b n, P c := by
  intro c hc
  rw [numeralText, List.mem_map] at hc
  obtain ⟨d, hd, rfl⟩ := hc
  exact h d (lt_of_mem_numeral hb hd)

theorem isDigit_numeralText (hb : 1 < b) (hle : b ≤ 10) :
    ∀ c ∈ numeralText upperDigit 1 b n, IsDigit c := by
  apply forall_numeralText (P := IsDigit) hb
  intro d hd
  rw [one_mul]
  exact upperDigit_isDigit d (by omega)

theorem isHex_numeralText (hdigit : ∀ d < 16, IsHex (digit (d : ℕ))) :
    ∀ c ∈ numeralText digit 1 16 n, IsHex c := by
  apply forall_numeralText (P := IsHex) (by omega)
  intro d hd
  rw [one_mul]
  exact hdigit d hd

theorem signedText_nonneg (h : 0 ≤ num.toInt) :
    signedText b num = numeralText upperDigit 1 b num.toInt.natAbs := by
  rw [signedText, if_neg (by omega)]

theorem exists_numeral_cons (hb : 1 < b) (hn : n ≠ 0) :
    ∃ d ds, d ≠ 0 ∧ d < b ∧ numeral b n = d :: ds := by
  cases hd : numeral b n with
  | nil => exact absurd hd numeral_ne_nil
  | cons d ds =>
    refine ⟨d, ds, ?_, lt_of_mem_numeral hb (by rw [hd]; exact List.mem_cons_self), rfl⟩
    rintro rfl
    exact hn (head_numeral (by rw [hd]; rfl))

/-- The text of a negative number does not start with a digit, and has nothing above `'0'`. -/
theorem signedText_neg (h : num.toInt < 0) (hb : 1 < b) (hle : b ≤ 10) :
    ∃ x c', signedText b num = x :: c' ∧ ¬ IsHex x ∧ ∀ z ∈ signedText b num, z ≤ 48 := by
  obtain ⟨d, ds, hd, hlt, hnumeral⟩ := exists_numeral_cons hb (n := num.toInt.natAbs) (by omega)
  have htext : signedText b num = numeralText upperDigit (-1) b num.toInt.natAbs := by
    rw [signedText, if_pos h]
  refine ⟨upperDigit (-1 * (d : ℕ)), _, by rw [htext, numeralText, hnumeral, List.map_cons], ?_, ?_⟩
  · rw [neg_one_mul]
    exact negativeDigit_not_isHex d (by omega) hd
  · rw [htext]
    apply forall_numeralText (P := (· ≤ 48)) hb
    intro d hd
    rw [neg_one_mul]
    exact (negativeDigit_le d (by omega)).1

theorem toNat_toUInt32 (num : Int32) :
    (num.toUInt32.toNat : ℤ) = if num.toInt < 0 then num.toInt + 2 ^ 32 else num.toInt := by
  have hlt : num.toUInt32.toNat < 2 ^ 32 := num.toUInt32.toNat_lt
  have hcond := BitVec.toInt_eq_toNat_cond num.toBitVec
  rw [Int32.toInt_toBitVec, Int32.toNat_toBitVec] at hcond
  split_ifs at hcond ⊢ <;> omega

/-! ## Pieces that come out wrong -/

/-- What the expected text can have more than the emitted one. -/
def LongRest (w : List UInt8) : Prop := w ≠ [] ∧ ∀ c ∈ w, IsHex c

/-- What the emitted text can have more than the expected one. -/
def ShortRest (w : List UInt8) : Prop := w ≠ [] ∧ (∀ c ∈ w, IsDigit c) ∧ w.length ≤ 10

theorem LongRest.perm {w' : List UInt8} (hp : w'.Perm w) (h : LongRest w) : LongRest w' := by
  refine ⟨?_, fun c hc => h.2 c (hp.mem_iff.mp hc)⟩
  rintro rfl
  exact h.1 (List.nil_perm.mp hp)

theorem ShortRest.perm {w' : List UInt8} (hp : w'.Perm w) (h : ShortRest w) : ShortRest w' := by
  refine ⟨?_, fun c hc => h.2.1 c (hp.mem_iff.mp hc), hp.length_eq.le.trans h.2.2⟩
  rintro rfl
  exact h.1 (List.nil_perm.mp hp)

/-- A text that starts with another character does not make up for missing digits. -/
theorem not_long_of_head (hc : c = x :: c') (hx : ¬ IsHex x) (hw : LongRest w) :
    c ++ X ≠ w ++ (e ++ Y) := by
  rw [hc, List.cons_append]
  intro hall
  obtain ⟨hne, hhex⟩ := hw
  cases w with
  | nil => exact hne rfl
  | cons z w =>
    rw [List.cons_append, List.cons.injEq] at hall
    exact hx (hall.1 ▸ hhex z List.mem_cons_self)

/-- A negative decimal number. -/
theorem apart_decimal (hn : n ≠ 0) (hc : c = x :: c') (hx : ¬ IsHex x) (hle : ∀ z ∈ c, z ≤ 48) :
    Apart LongRest ShortRest c ('-'.toUInt8 :: decimal n) := by
  obtain ⟨d, ds, hd, hlt, hnumeral⟩ := exists_numeral_cons (b := 10) (by omega) hn
  have hdecimal : decimal n = numeralText upperDigit 1 10 n :=
    (numeralText_eq_decimal upperDigit_of_lt_ten n).symm
  -- the first digit that is expected is not emitted
  have hshort : ∀ w, c ≠ '-'.toUInt8 :: decimal n ++ w := by
    intro w heq
    have hmem : UInt8.ofNat (48 + d) ∈ c := by
      rw [heq, decimal, hnumeral]
      simp
    have hhigh : ∀ d < 10, d ≠ 0 → ¬ UInt8.ofNat (48 + d) ≤ 48 := by decide
    exact hhigh d hlt hd (hle _ hmem)
  refine ⟨fun w hw => ?_, fun w hw => absurd hw (hshort w),
    fun w X Y hw => not_long_of_head hc hx hw, fun w X Y hw hall => ?_⟩
  · refine ⟨?_, fun z hz => ?_⟩
    · rintro rfl
      exact hshort [] (by rw [List.append_nil, hw, List.append_nil])
    · rw [hc, List.cons_append, List.cons.injEq] at hw
      have hmem : z ∈ decimal n := by
        rw [hw.2]
        exact List.mem_append_right _ hz
      rw [hdecimal] at hmem
      exact (isDigit_numeralText (by omega) (by omega) z hmem).isHex
  · obtain ⟨hne, hdigit, -⟩ := hw
    cases w with
    | nil => exact hne rfl
    | cons z w =>
      rw [List.cons_append, List.cons_append, List.cons.injEq] at hall
      have hminus := hdigit z List.mem_cons_self
      rw [hall.1] at hminus
      exact absurd hminus (by decide)

/-- A negative octal number. -/
theorem apart_octal (hneg : num.toInt < 0) :
    Apart LongRest ShortRest (signedText 8 num)
      (numeralText upperDigit 1 8 num.toUInt32.toNat) := by
  obtain ⟨x, c', hc, hx, -⟩ := signedText_neg hneg (b := 8) (by omega) (by omega)
  have hdigit := isDigit_numeralText (n := num.toUInt32.toNat) (b := 8) (by omega) (by omega)
  set e := numeralText upperDigit 1 8 num.toUInt32.toNat with he
  have hlow : -2 ^ 31 ≤ num.toInt := num.le_toInt
  have hvalue := toNat_toUInt32 num
  rw [if_pos hneg] at hvalue
  have hlength : 10 < e.length := by
    rw [he, numeralText, List.length_map]
    by_contra hle
    have := (length_numeral_le_iff (n := num.toUInt32.toNat) (b := 8) (k := 10) (by omega)
      (by omega)).mp (by omega)
    omega
  have hnotMem : x ∉ e := fun hmem => hx (hdigit x hmem).isHex
  have hhead : ∀ u v, e = u ++ v → v ≠ [] → ∀ X Y, x :: X ≠ v ++ Y := by
    intro u v heq hv X Y hall
    cases v with
    | nil => exact hv rfl
    | cons z v =>
      rw [List.cons_append, List.cons.injEq] at hall
      apply hnotMem
      rw [heq, hall.1]
      simp
  have hne : e ≠ [] := by
    intro hnil
    rw [hnil] at hlength
    simp at hlength
  rw [hc]
  refine ⟨fun w hw => ?_, fun w hw => ?_, fun w X Y hw => not_long_of_head rfl hx hw,
    fun w X Y hw hall => ?_⟩
  · exact absurd (by rw [hw]; simp) hnotMem
  · exact absurd hw (hhead [] e rfl hne c' w)
  · rcases List.append_eq_append_iff.mp hall with ⟨v, hv, hrest⟩ | ⟨v, hv, -⟩
    · have hlong : v ≠ [] := by
        rintro rfl
        rw [hv, List.append_nil] at hlength
        have := hw.2.2
        omega
      exact hhead w v hv hlong _ _ hrest
    · have hshort := hw.2.2
      rw [hv, List.length_append] at hshort
      omega

theorem eq_of_map_eq {f g : ℕ → UInt8} {ds es : List ℕ}
    (h : ∀ d ∈ ds, ∀ e ∈ es, f d = g e → d = e) (hmap : ds.map f = es.map g) : ds = es := by
  induction ds generalizing es with
  | nil => exact (List.map_eq_nil_iff.mp hmap.symm).symm
  | cons d ds ih =>
    cases es with
    | nil => cases hmap
    | cons e es =>
      rw [List.map_cons, List.map_cons, List.cons.injEq] at hmap
      rw [h d List.mem_cons_self e List.mem_cons_self hmap.1, ih (fun d hd e he =>
        h d (List.mem_cons_of_mem _ hd) e (List.mem_cons_of_mem _ he)) hmap.2]

/-- The letters of a directive in base 16: digits, and not mistaken for those in base 8. -/
structure HexDigits (digit : ℤ → UInt8) : Prop where
  isHex : ∀ d < 16, IsHex (digit (d : ℕ))
  inj : ∀ d < 8, ∀ d' < 16, upperDigit (d : ℕ) = digit (d' : ℕ) → d = d'
  eq : ∀ d < 8, digit (d : ℕ) = upperDigit (d : ℕ)

theorem hexDigits_upper : HexDigits upperDigit :=
  ⟨upperDigit_isHex, upperDigit_inj, fun _ _ => rfl⟩

theorem hexDigits_lower : HexDigits lowerDigit :=
  ⟨lowerDigit_isHex, upperDigit_eq_lowerDigit, by decide⟩

/-- Octal digits are those of the hexadecimal numeral for the numbers below 8 only. -/
theorem signedText_eq_hex_iff (hdigit : HexDigits digit) (hV : V % 2 ^ 32 = num.toUInt32.toNat) :
    signedText 8 num = numeralText digit 1 16 V ↔ V < 8 := by
  have hvalue := toNat_toUInt32 num
  constructor
  · intro heq
    by_cases hneg : num.toInt < 0
    · obtain ⟨x, c', hc, hx, -⟩ := signedText_neg hneg (b := 8) (by omega) (by omega)
      have hmem : x ∈ numeralText digit 1 16 V := by
        rw [← heq, hc]
        exact List.mem_cons_self
      exact absurd (isHex_numeralText hdigit.isHex x hmem) hx
    · have hhigh : num.toInt < 2 ^ 31 := num.toInt_lt
      rw [if_neg hneg] at hvalue
      rw [signedText_nonneg (by omega), numeralText, numeralText] at heq
      apply lt_eight_of_numeral_eq (n := num.toInt.natAbs) _ (by omega) (by omega)
      apply eq_of_map_eq _ heq
      intro d hd d' hd' hsame
      rw [one_mul, one_mul] at hsame
      exact hdigit.inj d (lt_of_mem_numeral (by omega) hd) d' (lt_of_mem_numeral (by omega) hd')
        hsame
  · intro hlt
    have hlow : -2 ^ 31 ≤ num.toInt := num.le_toInt
    have hnum : num.toInt = V := by
      split_ifs at hvalue <;> omega
    rw [signedText_nonneg (by omega), hnum, Int.natAbs_natCast, numeralText, numeralText,
      numeral_of_lt hlt, numeral_of_lt (by omega), List.map_singleton, List.map_singleton, one_mul,
      hdigit.eq V hlt]

/-- The prefix `0x` is not found again behind digits. -/
theorem prefixed_ne (hne : w ≠ []) (hletter : 'x'.toUInt8 ∉ w) :
    '0'.toUInt8 :: 'x'.toUInt8 :: X ≠ w ++ '0'.toUInt8 :: 'x'.toUInt8 :: Y := by
  intro hall
  cases w with
  | nil => exact hne rfl
  | cons z w =>
    rw [List.cons_append, List.cons.injEq] at hall
    cases w with
    | nil =>
      rw [List.nil_append, List.cons.injEq] at hall
      exact absurd hall.2.1 (by decide)
    | cons z' w =>
      rw [List.cons_append, List.cons.injEq] at hall
      apply hletter
      rw [hall.2.1]
      simp

/-- Octal digits for a hexadecimal number. -/
theorem apart_hex (hdigit : HexDigits digit) (hV : V % 2 ^ 32 = num.toUInt32.toNat)
    (hlarge : 8 ≤ V) :
    Apart LongRest ShortRest (prefixedText num) (hexText digit V) := by
  have hne : signedText 8 num ≠ numeralText digit 1 16 V := fun heq => by
    have := (signedText_eq_hex_iff hdigit hV).mp heq
    omega
  have hhex := isHex_numeralText (n := V) hdigit.isHex
  set e := numeralText digit 1 16 V with he
  have hpos : 0 < e.length := by
    rw [he, numeralText, List.length_map]
    exact List.length_pos_of_ne_nil numeral_ne_nil
  rw [prefixedText, hexText, ← he]
  refine ⟨fun w hw => ?_, fun w hw => ?_, fun w X Y hw hall => ?_, fun w X Y hw hall => ?_⟩
  · have hrest : e = signedText 8 num ++ w := by simpa using hw
    refine ⟨?_, fun z hz => hhex z (by rw [hrest]; exact List.mem_append_right _ hz)⟩
    rintro rfl
    exact hne (by rw [hrest, List.append_nil])
  · have hrest : signedText 8 num = e ++ w := by simpa using hw
    have hlength := length_signedText (b := 8) (by omega) num
    refine ⟨?_, fun z hz => ?_, ?_⟩
    · rintro rfl
      exact hne (by rw [hrest, List.append_nil])
    · by_cases hneg : num.toInt < 0
      · exfalso
        obtain ⟨x, c', hc, hx, -⟩ := signedText_neg hneg (b := 8) (by omega) (by omega)
        cases hcons : e with
        | nil => simp [hcons] at hpos
        | cons d ds =>
          rw [hc, hcons, List.cons_append, List.cons.injEq] at hrest
          exact hx (hrest.1 ▸ hhex d (by rw [hcons]; exact List.mem_cons_self))
      · apply isDigit_numeralText (b := 8) (n := num.toInt.natAbs) (by omega) (by omega)
        rw [← signedText_nonneg (by omega), hrest]
        exact List.mem_append_right _ hz
    · rw [hrest, List.length_append] at hlength
      omega
  · have hletter : 'x'.toUInt8 ∉ w := fun hmem => absurd (hw.2 _ hmem) (by decide)
    exact prefixed_ne hw.1 hletter hall
  · have hletter : 'x'.toUInt8 ∉ w := fun hmem => absurd (hw.2.1 _ hmem) (by decide)
    exact prefixed_ne hw.1 hletter hall.symm

/-! ## All pieces -/

theorem lower_bits_int (num : Int32) : num.toUInt32.toNat % 2 ^ 32 = num.toUInt32.toNat :=
  Nat.mod_eq_of_lt num.toUInt32.toNat_lt

theorem lower_bits_ptr (p : UInt64) :
    p.toNat % 2 ^ 32 = p.toUInt32.toInt32.toUInt32.toNat := by
  rw [UInt32.toUInt32_toInt32, UInt64.toNat_toUInt32]

/-- An octal text where a hexadecimal one is due, for the numbers below 8. -/
theorem prefixedText_eq (hdigit : HexDigits digit) (hV : V % 2 ^ 32 = num.toUInt32.toNat)
    (hlt : V < 8) : prefixedText num = hexText digit V := by
  rw [prefixedText, hexText, (signedText_eq_hex_iff hdigit hV).mpr hlt]

theorem decimalText_eq {v : Version} (h : v.Prints num) : v.decimalText num = decimalOf num := by
  cases v with
  | kernel =>
    have h : 0 ≤ num.toInt := h
    rw [Version.decimalText, signedText_nonneg h, numeralText_eq_decimal upperDigit_of_lt_ten,
      decimalOf, if_neg (by omega), List.nil_append]
  | user => exact sitoaText_eq h

/-- The values that are not printed right are negative. -/
theorem apart_decimalText {v : Version} (h : ¬ v.Prints num) :
    Apart LongRest ShortRest (v.decimalText num) (decimalOf num) := by
  cases v with
  | kernel =>
    have hneg : num.toInt < 0 := not_le.mp h
    obtain ⟨x, c', hc, hx, hle⟩ := signedText_neg hneg (b := 10) (by omega) (by omega)
    rw [decimalOf, if_pos hneg]
    exact apart_decimal (by omega) hc hx hle
  | user =>
    have hleast : num.toInt = -2 ^ 31 := not_not.mp h
    have hneg : num.toInt < 0 := by omega
    rw [decimalOf, if_pos hneg, Version.decimalText, sitoaText, if_pos hneg, emittedSign,
      if_pos hleast, List.singleton_append]
    refine apart_decimal (by omega) rfl (by decide) (List.forall_mem_cons.mpr ⟨by decide, ?_⟩)
    apply forall_numeralText (P := (· ≤ 48)) (by omega)
    intro d hd
    rw [neg_one_mul]
    exact (negativeDigit_le d hd).2

theorem emitted_of_exact {v : Version} {q : Piece} (h : q.Exact v) : q.emitted v = q.text := by
  cases q with
  | lit c hc => rfl
  | char n =>
    apply List.takeWhile_eq_self_iff.mpr
    intro c hc
    rw [List.mem_singleton.mp hc, decide_eq_true_eq]
    exact h
  | str s hs => rfl
  | dec n => exact decimalText_eq h
  | int n => exact decimalText_eq h
  | oct n =>
    have h : 0 ≤ n.toInt := h
    have hvalue := toNat_toUInt32 n
    rw [if_neg (by omega)] at hvalue
    rw [Piece.emitted, Piece.text, signedText_nonneg h]
    congr 1
    omega
  | hex n => exact prefixedText_eq hexDigits_lower (lower_bits_int n) h
  | upperHex n => exact prefixedText_eq hexDigits_upper (lower_bits_int n) h
  | ptr p => exact prefixedText_eq hexDigits_lower (lower_bits_ptr p) h
  | percent => rfl

theorem apart_of_not_exact {v : Version} {q : Piece} (hzero : 0 ∉ q.text) (h : ¬ q.Exact v) :
    Apart LongRest ShortRest (q.emitted v) q.text := by
  cases q with
  | lit c hc => exact absurd trivial h
  | char n =>
    apply absurd _ hzero
    rw [Piece.text, List.mem_singleton]
    exact (not_not.mp h).symm
  | str s hs => exact absurd trivial h
  | dec n => exact apart_decimalText h
  | int n => exact apart_decimalText h
  | oct n => exact apart_octal (not_le.mp h)
  | hex n => exact apart_hex hexDigits_lower (lower_bits_int n) (not_lt.mp h)
  | upperHex n => exact apart_hex hexDigits_upper (lower_bits_int n) (not_lt.mp h)
  | ptr p => exact apart_hex hexDigits_lower (lower_bits_ptr p) (not_lt.mp h)
  | percent => exact absurd trivial h

/-- No zero byte is emitted. -/
theorem zero_notMem_emitted (v : Version) (q : Piece) : 0 ∉ q.emitted v := by
  have hdecimal : ∀ n, 0 ∉ v.decimalText n := fun n => by
    obtain ⟨-, -, -, hzero⟩ := convertDecimal_spec v (fun _ => 0) n 0
    exact hzero
  have hoctal : ∀ n, 0 ∉ signedText 8 n := fun n => by
    obtain ⟨-, -, -, hzero⟩ := convertOctal_spec (fun _ => 0) n 0
    exact hzero
  have hprefixed : ∀ n, 0 ∉ prefixedText n := fun n => by
    rw [prefixedText, List.mem_cons, List.mem_cons, not_or, not_or]
    exact ⟨by decide, by decide, hoctal n⟩
  cases q with
  | lit c hc => simpa [Piece.emitted] using Ne.symm hc.1
  | char n =>
    intro hmem
    simpa using List.mem_takeWhile_imp hmem
  | str s hs => exact hs
  | dec n => exact hdecimal n
  | int n => exact hdecimal n
  | oct n => exact hoctal n
  | hex n => exact hprefixed n
  | upperHex n => exact hprefixed n
  | ptr p => exact hprefixed _
  | percent =>
    rw [Piece.emitted]
    decide

/-- Both copies of `print` emit what the format says if and only if every piece is within the values
that its directive prints. -/
theorem print_iff (v : Version) (m : Mem) (buffer : ℕ) (qs : List Piece) (rest : List Arg) :
    print v m buffer (formatOf qs) (argsOf qs ++ rest) = some (textOf qs) ↔
      ∀ q ∈ qs, q.Exact v := by
  rw [print_eq, Option.some.injEq]
  constructor
  · intro hall
    have hzero : ∀ q ∈ qs, 0 ∉ q.text := by
      intro q hq hmem
      have htext : 0 ∈ textOf qs := List.mem_flatMap.mpr ⟨q, hq, hmem⟩
      rw [← hall] at htext
      obtain ⟨q', -, hmem'⟩ := List.mem_flatMap.mp htext
      exact zero_notMem_emitted v q' hmem'
    have hpieces : ∀ q ∈ qs, q.emitted v = q.text ∨
        Apart LongRest ShortRest (q.emitted v) q.text := by
      intro q hq
      by_cases hexact : q.Exact v
      · exact .inl (emitted_of_exact hexact)
      · exact .inr (apart_of_not_exact (hzero q hq) hexact)
    have hequal := (flatMap_eq_iff (fun _ _ => LongRest.perm) (fun _ _ => ShortRest.perm)
      ⟨fun h => h.1 rfl, fun h => h.1 rfl⟩ hpieces).mp hall
    intro q hq
    by_contra hexact
    have hrest := (apart_of_not_exact (hzero q hq) hexact).long []
      (by rw [hequal q hq, List.append_nil])
    exact hrest.1 rfl
  · intro hexact
    exact List.flatMap_congr fun q hq => emitted_of_exact (hexact q hq)

/-- `%x` prints 8 as `0x10`. -/
theorem printf_hex_wrong :
    ¬ ∀ (v : Version) (m : Mem) (buffer : ℕ) (qs : List Piece) (rest : List Arg),
      print v m buffer (formatOf qs) (argsOf qs ++ rest) = some (textOf qs) := by
  intro hall
  have hprint := hall .kernel (fun _ => 0) 0 [.hex 8] []
  rw [print_eq, Option.some.injEq] at hprint
  exact absurd hprint (by decide +kernel)

end TronKernel.Text
