import Mathlib.Data.Nat.Digits.Lemmas

/-!
# Numerals

The digits of a number in base `b`, the highest first, as they are read and written. The numeral of
zero is one digit. A numeral stands for its number (`value_numeral`), begins with no zero unless the
number is zero (`head_numeral`), and is as long as the number needs (`length_numeral_le_iff`).
-/

namespace TronKernel.Numerals

/-- The digits of `n` in base `b`, the highest first. -/
def numeral (b n : ℕ) : List ℕ := if n = 0 then [0] else (Nat.digits b n).reverse

/-- The number that a string of digits stands for, read on from `v`. -/
def valueFrom (b : ℕ) : ℕ → List ℕ → ℕ
  | v, [] => v
  | v, d :: ds => valueFrom b (v * b + d) ds

/-- The number that a string of digits stands for. -/
def value (b : ℕ) (ds : List ℕ) : ℕ := valueFrom b 0 ds

variable {b n v k d : ℕ} {ds es : List ℕ}

@[simp] theorem numeral_zero : numeral b 0 = [0] := rfl

theorem numeral_of_ne_zero (hn : n ≠ 0) : numeral b n = (Nat.digits b n).reverse := if_neg hn

theorem numeral_ne_nil : numeral b n ≠ [] := by
  by_cases hn : n = 0
  · simp [hn]
  · rw [numeral_of_ne_zero hn, ne_eq, List.reverse_eq_nil_iff]
    exact Nat.digits_ne_nil_iff_ne_zero.mpr hn

/-- A number below the base is its own digit. -/
theorem numeral_of_lt (hn : n < b) : numeral b n = [n] := by
  by_cases h0 : n = 0
  · rw [h0, numeral_zero]
  · rw [numeral_of_ne_zero h0, Nat.digits_of_lt b n h0 hn, List.reverse_singleton]

/-- The last digit comes off the end. -/
theorem numeral_step (hb : 1 < b) (hn : b ≤ n) : numeral b n = numeral b (n / b) ++ [n % b] := by
  have hquot : n / b ≠ 0 := (Nat.div_pos hn (by omega)).ne'
  rw [numeral_of_ne_zero (by omega), numeral_of_ne_zero hquot,
    Nat.digits_eq_cons_digits_div hb (by omega), List.reverse_cons]

theorem lt_of_mem_numeral (hb : 1 < b) (hd : d ∈ numeral b n) : d < b := by
  by_cases hn : n = 0
  · rw [hn, numeral_zero, List.mem_singleton] at hd
    omega
  · rw [numeral_of_ne_zero hn, List.mem_reverse] at hd
    exact Nat.digits_lt_base hb hd

/-- Only the numeral of zero begins with a zero. -/
theorem head_numeral (h : (numeral b n).head? = some 0) : n = 0 := by
  by_contra hn
  have hne : Nat.digits b n ≠ [] := Nat.digits_ne_nil_iff_ne_zero.mpr hn
  rw [numeral_of_ne_zero hn, List.head?_reverse, List.getLast?_eq_some_getLast hne] at h
  exact Nat.getLast_digit_ne_zero b hn (Option.some.inj h)

/-- A numeral with its digits as characters begins with the character of zero only where it is that
character. -/
theorem head_map_numeral {α : Type*} {g : ℕ → α} (hb : 1 < b) (hg : ∀ d < b, g d = g 0 → d = 0)
    (h : ((numeral b n).map g).head? = some (g 0)) : (numeral b n).map g = [g 0] := by
  rw [List.head?_map, Option.map_eq_some_iff] at h
  obtain ⟨d, hhead, hd⟩ := h
  have hlt : d < b := lt_of_mem_numeral hb (List.mem_of_head? hhead)
  rw [hg d hlt hd] at hhead
  rw [head_numeral hhead, numeral_zero, List.map_singleton]

theorem length_numeral_le_iff (hb : 1 < b) (hk : 0 < k) :
    (numeral b n).length ≤ k ↔ n < b ^ k := by
  by_cases hn : n = 0
  · have hpos : 0 < b ^ k := Nat.pow_pos (by omega)
    simp only [hn, numeral_zero, List.length_singleton, hpos, iff_true]
    omega
  · rw [numeral_of_ne_zero hn, List.length_reverse]
    exact Nat.digits_length_le_iff hb n

theorem length_digits_le (hb : 1 < b) (h : n < 2 ^ k) : (Nat.digits b n).length ≤ k := by
  rw [Nat.digits_length_le_iff hb]
  exact h.trans_le (Nat.pow_le_pow_left hb k)

/-! ## Reading -/

theorem valueFrom_append : valueFrom b v (ds ++ es) = valueFrom b (valueFrom b v ds) es := by
  induction ds generalizing v with
  | nil => rfl
  | cons d ds ih => rw [List.cons_append, valueFrom, ih, valueFrom]

theorem value_concat : value b (ds ++ [d]) = value b ds * b + d := valueFrom_append

/-- A numeral stands for its number. -/
theorem value_numeral (hb : 1 < b) (n : ℕ) : value b (numeral b n) = n := by
  induction n using Nat.strong_induction_on with
  | _ n ih =>
    by_cases hn : n < b
    · rw [numeral_of_lt hn, value, valueFrom, valueFrom, Nat.zero_mul, Nat.zero_add]
    · have hlt : n / b < n := Nat.div_lt_self (by omega) hb
      rw [numeral_step hb (by omega), value_concat, ih (n / b) hlt, Nat.div_add_mod']

end TronKernel.Numerals
