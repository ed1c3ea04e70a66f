import TronKernel.Modules.Image

/-!
# What `memcpy` does

`memcpy` goes forward, by words or by bytes. Both paths copy (`memcpy_eq`), also between ranges that
overlap, as long as the destination does not begin inside the source: what has been overwritten then
lies behind what is still to be read.
-/

namespace TronKernel.Modules

open Mem

variable {m : Mem} {d s n : ℕ}

theorem copied_succ_outside {k x : ℕ} (h : x < d + n ∨ d + n + k ≤ x) :
    copied m d s (n + k) x = copied m d s n x := by
  unfold copied
  by_cases hx : d ≤ x ∧ x < d + n
  · rw [if_pos hx, if_pos (by omega)]
  · rw [if_neg hx, if_neg (by omega)]

/-- A byte that the copy has not changed. -/
theorem copied_source {x : ℕ} (h : d ≤ x → d + n ≤ x) : copied m d s n x = m x := by
  unfold copied
  rw [if_neg (by omega)]

/-- The word loop copies. -/
theorem copyWords_eq (m : Mem) (d s n : ℕ) (hover : d ≤ s ∨ s + 4 * n ≤ d) :
    copyWords m d s n = copied m d s (4 * n) := by
  induction n with
  | zero =>
    funext x
    rw [copied_source (by omega)]
    rfl
  | succ n ih =>
    have hprev := ih (by omega)
    funext x
    simp only [copyWords, sizeofUint32, hprev]
    by_cases hx : d + 4 * n ≤ x ∧ x < d + 4 * n + 4
    · rw [storeLE_loadLE _ _ _ _ _ _ hx.1 hx.2, copied_source fun hle => ?_]
      · rw [copied, if_pos (by omega)]
        congr 1
        omega
      · omega
    · rw [storeLE_frame (by omega), Nat.mul_add, copied_succ_outside (by omega)]

/-- The byte loop copies. -/
theorem copyBytes_eq (m : Mem) (d s n : ℕ) (hover : d ≤ s ∨ s + n ≤ d) :
    copyBytes m d s n = copied m d s n := by
  induction n with
  | zero =>
    funext x
    rw [copied_source (by omega)]
    rfl
  | succ n ih =>
    have hprev := ih (by omega)
    funext x
    simp only [copyBytes, hprev]
    by_cases hx : x = d + n
    · rw [hx, Function.update_self, copied_source fun hle => ?_]
      · rw [copied, if_pos (by omega)]
        congr 1
        omega
      · omega
    · rw [Function.update_of_ne hx, copied_succ_outside (by omega)]

/-- Both paths of `memcpy` copy, unless the destination begins inside the source. -/
theorem memcpy_eq (m : Mem) (d s n : ℕ) (hover : d ≤ s ∨ s + n ≤ d) :
    memcpy m d s n = copied m d s n := by
  unfold memcpy
  split_ifs with haligned
  · have hwords : 4 * (n / sizeofUint32) = n := Nat.mul_div_cancel' (Nat.dvd_of_mod_eq_zero
      haligned.2.2)
    rw [copyWords_eq m d s _ (by rwa [hwords]), hwords]
  · exact copyBytes_eq m d s n hover

theorem copied_dest {i : ℕ} (hi : i < n) : copied m d s n (d + i) = m (s + i) := by
  unfold copied
  rw [if_pos (by omega), Nat.add_sub_cancel_left]

theorem copied_frame {x : ℕ} (hx : x < d ∨ d + n ≤ x) : copied m d s n x = m x := by
  unfold copied
  rw [if_neg (by omega)]

/-- Between ranges that are disjoint, or of which the destination does not begin behind the source,
`memcpy` copies the original bytes and changes no others, and both loops would give the same. -/
theorem memcpy_exact (m : Mem) (d s n : ℕ) (h : d + n ≤ s ∨ s + n ≤ d ∨ d ≤ s) :
    (∀ i < n, memcpy m d s n (d + i) = m (s + i)) ∧
      (∀ x, x < d ∨ d + n ≤ x → memcpy m d s n x = m x) ∧
      memcpy m d s n = copyBytes m d s n ∧
      (n % sizeofUint32 = 0 → memcpy m d s n = copyWords m d s (n / sizeofUint32)) := by
  have hover : d ≤ s ∨ s + n ≤ d := by omega
  have heq := memcpy_eq m d s n hover
  refine ⟨fun i hi => ?_, fun x hx => ?_, ?_, fun hn => ?_⟩
  · rw [heq, copied_dest hi]
  · rw [heq, copied_frame hx]
  · rw [heq, copyBytes_eq m d s n hover]
  · have hwords : 4 * (n / sizeofUint32) = n := Nat.mul_div_cancel' (Nat.dvd_of_mod_eq_zero hn)
    rw [heq, copyWords_eq m d s _ (by rwa [hwords]), hwords]

/-- Eight bytes that move down by a word, into themselves. -/
theorem memcpy_exact_overlap :
    memcpy (fun x => UInt8.ofNat x) 4 8 8 11 = 15 ∧
      memcpy (fun x => UInt8.ofNat x) 4 8 8 12 = 12 := by
  obtain ⟨hcopy, hframe, -⟩ :=
    memcpy_exact (fun x => UInt8.ofNat x) 4 8 8 (Or.inr (Or.inr (by decide)))
  exact ⟨hcopy 7 (by decide), hframe 12 (by decide)⟩

end TronKernel.Modules
