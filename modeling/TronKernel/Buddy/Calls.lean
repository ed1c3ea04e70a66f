import TronKernel.Buddy.Operations
import Mathlib.Data.Nat.Log

/-!
# `malloc` and `free` keep the tiling

`malloc` finds the least level that holds the request (`levelFor_le`), the least non-empty bucket
from there on (`minAbove_spec`) and splits its first head down (`splitDown_represents`). Both calls
end with no head in hand and no two free buddies.
-/

namespace TronKernel.Buddy

open DyadicTiling DoublyLinked
open FirstFit (wadd wsub)

variable {top i k : ℕ} {s : State} {free alloc : List Interval} {b : Interval}

/-! ## The level of a request -/

theorem log2nLoop_eq (fuel : ℕ) :
    ∀ (n ret k : ℕ), 2 ^ k ≤ n → n < 2 ^ (k + 1) → k ≤ fuel → log2nLoop fuel n ret = ret + k := by
  induction fuel with
  | zero =>
    intro n ret k _ _ hk
    obtain rfl := Nat.le_zero.mp hk
    rfl
  | succ fuel ih =>
    intro n ret k hlo hhi hk
    rw [log2nLoop, Nat.shiftRight_one]
    cases k with
    | zero => rw [if_neg (by simp at hlo hhi ⊢; omega)]; rfl
    | succ k =>
      have hpow : 2 ^ (k + 2) = 2 ^ (k + 1) * 2 := pow_succ 2 (k + 1)
      have hpow' : 2 ^ (k + 1) = 2 ^ k * 2 := pow_succ 2 k
      have hpos := Nat.two_pow_pos k
      rw [if_pos (by omega), ih (n / 2) (ret + 1) k (by omega) (by omega) (by omega)]
      omega

/-- `log2n` is the integer logarithm. -/
theorem log2n_eq {n : ℕ} (hlo : 2 ^ k ≤ n) (hhi : n < 2 ^ (k + 1)) (hk : k ≤ 64) : log2n n = k := by
  rw [log2n, log2nLoop_eq 64 n 0 k hlo hhi hk, Nat.zero_add]

theorem log2n_zero : log2n 0 = 0 := by decide

/-- A request that fits into the region needs no level above the top. -/
theorem levelFor_le {size : ℕ} (hsize : size ≤ SIZE top) (htop : top < LEVEL_LIMIT) :
    levelFor size ≤ top := by
  have htop' : top < 13 := htop
  simp only [levelFor, SIZE, BLOCK_UNIT] at hsize ⊢
  by_cases hq : size / 256 = 0
  · rw [hq, log2n_zero, if_neg (by omega)]
    exact Nat.zero_le _
  obtain ⟨k, hlo, hhi⟩ : ∃ k, 2 ^ k ≤ size / 256 ∧ size / 256 < 2 ^ (k + 1) :=
    ⟨Nat.log 2 (size / 256), Nat.pow_log_le_self 2 hq, Nat.lt_pow_succ_log_self Nat.one_lt_two _⟩
  have hk : k ≤ top := (Nat.pow_le_pow_iff_right Nat.one_lt_two).mp (by omega)
  rw [log2n_eq hlo hhi (by omega)]
  split_ifs with hround
  · -- the level is rounded up only below the top
    rcases Nat.lt_or_eq_of_le hk with hlt | rfl
    · exact hlt
    · omega
  · exact hk

/-- The search ends at the first level with a free head, or behind the last level. -/
theorem minAbove_spec (hlimit : s.levelsCount ≤ LEVEL_LIMIT) (fuel : ℕ) :
    ∀ level, level ≤ s.levelsCount → s.levelsCount ≤ level + fuel →
      ∃ above, minAbove s fuel level = some above ∧ level ≤ above ∧ above ≤ s.levelsCount ∧
        (above < s.levelsCount → s.bucket above ≠ none) ∧
        ∀ k, level ≤ k → k < above → s.bucket k = none := by
  induction fuel with
  | zero =>
    exact fun level hle hfuel =>
      ⟨level, rfl, le_rfl, hle, fun h => by omega, fun k h₁ h₂ => absurd h₂ (by omega)⟩
  | succ fuel ih =>
    intro level hle hfuel
    rw [minAbove]
    by_cases hlt : level < s.levelsCount
    · rw [if_pos hlt, bucketAt_eq (by omega), Option.bind_eq_bind, Option.bind_some]
      cases hbucket : s.bucket level with
      | none =>
        obtain ⟨above, hval, hge, hle', hne, hempty⟩ := ih (level + 1) (by omega) (by omega)
        refine ⟨above, hval, by omega, hle', hne, fun k h₁ h₂ => ?_⟩
        rcases Nat.eq_or_lt_of_le h₁ with rfl | h₁
        · exact hbucket
        · exact hempty k h₁ h₂
      | some j =>
        exact ⟨level, rfl, le_rfl, hle, fun _ => by rw [hbucket]; simp,
          fun k h₁ h₂ => absurd h₂ (Nat.not_lt.mpr h₁)⟩
    · rw [if_neg hlt]
      exact ⟨level, rfl, le_rfl, hle, fun h => absurd h hlt,
        fun k h₁ h₂ => absurd h₂ (Nat.not_lt.mpr h₁)⟩

/-! ## `malloc` -/

/-- After a split only the lower half may have a free buddy: the upper half is its buddy, and the
other heads kept theirs. -/
theorem MergedExcept.split {f₁ f₂ : List Interval}
    (hm : MergedExcept ⟨i, k + 1⟩ top (f₁ ++ ⟨i, k + 1⟩ :: f₂)) (hi : 2 ^ (k + 1) ∣ i)
    (hnot : (⟨i, k + 1⟩ : Interval) ∉ f₁ ++ f₂) (halign : ∀ b ∈ f₁ ++ f₂, 2 ^ b.level ∣ b.index) :
    MergedExcept ⟨i, k⟩ top (⟨i, k⟩ :: ⟨i + 2 ^ k, k⟩ :: (f₁ ++ f₂)) := by
  intro x hx y hy hx' hy' hlt hlevel hindex
  have hxmem := (List.mem_cons.mp hx).resolve_left hx'
  have hymem := (List.mem_cons.mp hy).resolve_left hy'
  obtain ⟨j, l⟩ := y
  obtain rfl : l = x.level := hlevel
  obtain rfl : j = buddyIndex x.index x.level := hindex
  rcases List.mem_cons.mp hxmem with rfl | hxf
  · exact hy' (by rw [buddyIndex_add hi])
  rcases List.mem_cons.mp hymem with hyeq | hyf
  · have hindex := congrArg Interval.index hyeq
    have hlevel : x.level = k := congrArg Interval.level hyeq
    refine hx' ?_
    have := buddyIndex_buddyIndex (halign x hxf)
    simp only at hindex
    rw [hindex, hlevel, buddyIndex_add hi] at this
    rw [this, ← hlevel]
  have hold : ∀ z ∈ f₁ ++ f₂, z ∈ f₁ ++ ⟨i, k + 1⟩ :: f₂ := fun z hz => by
    simp only [List.mem_append, List.mem_cons] at hz ⊢
    tauto
  exact hm x (hold x hxf) _ (hold _ hyf) (fun h => hnot (h ▸ hxf)) (fun h => hnot (h ▸ hyf)) hlt
    rfl rfl

/-- Splitting the first head of a level down to a lower level. -/
theorem splitDown_represents (level rounds : ℕ) :
    ∀ (s : State) (free : List Interval), Represents top s free alloc [] →
      s.bucket (level + rounds) = some i → level + rounds < LEVEL_LIMIT →
      MergedExcept ⟨i, level + rounds⟩ top free →
      ∃ s' free', splitDown s level rounds = some s' ∧ SameRegion s s' ∧
        Represents top s' free' alloc [] ∧ s'.bucket level = some i ∧
        MergedExcept ⟨i, level⟩ top free' ∧ Grows s s' free free' := by
  induction rounds with
  | zero =>
    exact fun s free h hi _ hm => ⟨s, free, rfl, SameRegion.refl s, h, hi, hm, Grows.refl s free⟩
  | succ rounds ih =>
    intro s free h hi hlt hm
    rw [← Nat.add_assoc] at hi hlt hm
    obtain ⟨f₁, f₂, rfl⟩ := List.append_of_mem (h.bucket_mem hlt hi)
    have hdvd : 2 ^ (level + rounds + 1) ∣ i :=
      h.shape.aligned ⟨i, level + rounds + 1⟩ (by simp)
    have hnot : (⟨i, level + rounds + 1⟩ : Interval) ∉ f₁ ++ f₂ := by
      have hnodup := (List.nodup_append.mp h.shape.nodup).1
      exact (List.nodup_cons.mp (hnodup.perm List.perm_middle)).1
    have halign : ∀ b ∈ f₁ ++ f₂, 2 ^ b.level ∣ b.index := fun b hb =>
      h.shape.aligned b (by
        simp only [List.mem_append, List.mem_cons] at hb ⊢
        tauto)
    obtain ⟨s₁, hval₁, hregion₁, hr₁, hgrows₁⟩ := splitBlock_represents h hi
    have hi₁ : s₁.bucket (level + rounds) = some i := by
      rw [(hr₁.bucket (level + rounds) (by omega)).head_eq]
      simp [bucketOf]
    obtain ⟨s', free', hval, hregion, hr, hi', hm', hgrows⟩ :=
      ih s₁ _ hr₁ hi₁ (by omega) (hm.split hdvd hnot halign)
    refine ⟨s', free', ?_, hregion₁.trans hregion, hr, hi', hm', hgrows₁.trans hgrows⟩
    rw [splitDown, ← Nat.add_assoc, hval₁]
    exact hval

/-- What a call of `malloc` does: nothing, or it moves one head to the handed out ones, after some
splits. -/
theorem takeBlock_represents (h : Represents top s free alloc []) (hk : k < LEVEL_LIMIT)
    (hi : s.bucket k = some i) (hm : MergedExcept ⟨i, k⟩ top free) :
    ∃ s' free', takeBlock s k = some (s', some (getAddress s i)) ∧ SameRegion s s' ∧
      Represents top s' free' (⟨i, k⟩ :: alloc) [] ∧ Merged top free' ∧
      Grows s s' (free ++ alloc) (free' ++ ⟨i, k⟩ :: alloc) := by
  obtain ⟨f₁, f₂, rfl⟩ := List.append_of_mem (h.bucket_mem hk hi)
  obtain ⟨s₁, hval₁, hregion₁, hr₁, hflag, hflags⟩ := removeBlock_represents h
  have hnot : (⟨i, k⟩ : Interval) ∉ f₁ ++ f₂ := by
    have hnodup := (List.nodup_append.mp h.shape.nodup).1
    exact (List.nodup_cons.mp (hnodup.perm List.perm_middle)).1
  have hold : ∀ z ∈ f₁ ++ f₂, z ∈ f₁ ++ ⟨i, k⟩ :: f₂ := fun z hz => by
    simp only [List.mem_append, List.mem_cons] at hz ⊢
    tauto
  refine ⟨s₁, f₁ ++ f₂, ?_, hregion₁, hr₁.handOut hflag, fun x hx y hy =>
    hm x (hold x hx) y (hold y hy) (fun h => hnot (h ▸ hx)) fun h => hnot (h ▸ hy),
    fun x hx => ?_, fun x hx => ?_⟩
  · have haddr : getAddress s₁ i = getAddress s i := by
      rw [getAddress, getAddress, hregion₁.baseAddress]
    simp only [takeBlock, bucketAt_eq hk, hi, hval₁, haddr, Option.bind_eq_bind, Option.bind_some]
  · simp only [isHead_append, isHead_cons] at hx ⊢
    tauto
  · simp only [isHead_append, isHead_cons, not_or] at hx
    exact hflags x (Ne.symm hx.2.1)

/-- A level has a free head exactly if its bucket is not empty. -/
theorem Represents.bucket_eq_none (h : Represents top s free alloc []) (hk : k < LEVEL_LIMIT) :
    s.bucket k = none ↔ ∀ f ∈ free, f.level ≠ k := by
  rw [(h.bucket k hk).head_eq, List.head?_eq_none_iff]
  constructor
  · intro hnil f hf hlevel
    have hmem : f.index ∈ bucketOf free k := mem_bucketOf.mpr (hlevel ▸ hf)
    rw [hnil] at hmem
    exact absurd hmem (List.not_mem_nil)
  · intro hnone
    exact List.eq_nil_iff_forall_not_mem.mpr fun i hi => hnone _ (mem_bucketOf.mp hi) rfl

/-- A call of `malloc` either finds no free head of the request's level or above, returns null and
changes nothing, or hands out a head of that level. -/
theorem malloc_represents (h : Represents top s free alloc []) (hm : Merged top free) {size : ℕ}
    (hsize : size ≤ SIZE top) :
    (malloc s size = some (s, none) ∧ ∀ f ∈ free, f.level < levelFor size) ∨
      ∃ s' free' b, malloc s size = some (s', some (getAddress s b.index)) ∧ SameRegion s s' ∧
        Represents top s' free' (b :: alloc) [] ∧ Merged top free' ∧
        Grows s s' (free ++ alloc) (free' ++ b :: alloc) ∧ b.level = levelFor size ∧
        ∃ f ∈ free, levelFor size ≤ f.level := by
  have hle := levelFor_le hsize h.lt_limit
  have hlimit := h.lt_limit
  set level := levelFor size with hlevel
  cases hbucket : s.bucket level with
  | some i =>
    right
    obtain ⟨s', free', hval, hregion, hr, hm', hgrows⟩ :=
      takeBlock_represents h (by omega) hbucket hm.except
    refine ⟨s', free', ⟨i, level⟩, ?_, hregion, hr, hm', hgrows, rfl,
      ⟨i, level⟩, h.bucket_mem (by omega) hbucket, le_rfl⟩
    simp only [malloc, ← hlevel, bucketAt_eq (show level < LEVEL_LIMIT by omega), hbucket,
      Option.bind_eq_bind, Option.bind_some, hval]
  | none =>
    have hcount := h.levelsCount
    obtain ⟨above, habove, hge, hle', hne, hempty⟩ :=
      minAbove_spec (s := s) (by omega) s.levelsCount (level + 1) (by omega) (by omega)
    by_cases hall : above = s.levelsCount
    · refine Or.inl ⟨?_, fun f hf => ?_⟩
      · simp only [malloc, ← hlevel, bucketAt_eq (show level < LEVEL_LIMIT by omega), hbucket,
          Option.bind_eq_bind, Option.bind_some, habove, if_pos hall]
      · -- the bucket of a free head is not empty
        have hlevels := h.shape.level_le (List.mem_append_left _ hf)
        by_contra hnot
        refine (h.bucket_eq_none (by omega)).mp ?_ f hf rfl
        rcases Nat.eq_or_lt_of_le (Nat.not_lt.mp hnot) with heq | hlt
        · rw [← heq]; exact hbucket
        · exact hempty f.level hlt (by omega)
    · right
      obtain ⟨i, hi⟩ := Option.ne_none_iff_exists'.mp (hne (lt_of_le_of_ne hle' hall))
      have hrounds : level + (above - level) = above := by omega
      obtain ⟨s₁, free₁, hval₁, hregion₁, hr₁, hi₁, hm₁, hgrows₁⟩ :=
        splitDown_represents level (above - level) s free h (by rw [hrounds]; exact hi)
          (by omega) (by rw [hrounds]; exact hm.except)
      obtain ⟨s', free', hval, hregion, hr, hm', hgrows⟩ :=
        takeBlock_represents hr₁ (by omega) hi₁ hm₁
      refine ⟨s', free', ⟨i, level⟩, ?_, hregion₁.trans hregion, hr, hm',
        (hgrows₁.append alloc).trans hgrows, rfl, ⟨i, above⟩, h.bucket_mem (by omega) hi,
        by simp only; omega⟩
      have haddr : getAddress s₁ i = getAddress s i := by
        rw [getAddress, getAddress, hregion₁.baseAddress]
      simp only [malloc, ← hlevel, bucketAt_eq (show level < LEVEL_LIMIT by omega), hbucket,
        Option.bind_eq_bind, Option.bind_some, habove, if_neg hall, hval₁, hval, haddr]

/-! ## `free` -/

/-- A call of `free` with the address of a handed out head puts it back. -/
theorem free_represents {alloc' : List Interval}
    (h : Represents top s free (alloc ++ b :: alloc') []) (hm : Merged top free) :
    ∃ s' free', Buddy.free s (getAddress s b.index) = some s' ∧ SameRegion s s' ∧
      Represents top s' free' (alloc ++ alloc') [] ∧ Merged top free' ∧
      Shrinks s s' (free ++ (alloc ++ b :: alloc')) (free' ++ (alloc ++ alloc')) := by
  have hmem : b ∈ free ++ (alloc ++ b :: alloc' ++ []) := by simp
  have hlt := h.shape.index_lt hmem
  have hi := h.index_lt hmem
  have htop : 2 ^ top ≤ 2 ^ 12 := Nat.pow_le_pow_right Nat.two_pos (Nat.le_of_lt_succ h.lt_limit)
  have hoffset : wsub (getAddress s b.index) s.baseAddress = b.index * BLOCK_UNIT := by
    simp only [getAddress, wsub, wadd, BLOCK_UNIT]
    omega
  have hflag := h.alloc_flag b (by simp)
  obtain ⟨s₁, hval₁, hregion₁, hr₁, hflags₁⟩ := addBlock_represents h.hold
  have hnot : b ∉ free := fun hb => by
    have := (List.nodup_append.mp h.shape.nodup).2.2 b hb b (by simp)
    exact this rfl
  have hm₁ : MergedExcept b top (b :: free) := fun x hx y hy hx' hy' =>
    hm x ((List.mem_cons.mp hx).resolve_left hx') y ((List.mem_cons.mp hy).resolve_left hy')
  obtain ⟨s', free', hval, hregion, hr, hm', hshrinks⟩ :=
    mergeBuddy_represents LEVEL_LIMIT s₁ b free hr₁ hm₁ (by have := h.lt_limit; omega)
  have hput : Shrinks s s₁ (free ++ (alloc ++ b :: alloc')) (b :: free ++ (alloc ++ alloc')) := by
    have hsame : ∀ x, IsHead (free ++ (alloc ++ b :: alloc')) x ↔
        IsHead (b :: free ++ (alloc ++ alloc')) x := fun x => by
      simp only [isHead_append, isHead_cons]
      tauto
    refine ⟨fun x hx => (hsame x).mpr hx, fun x hx => ?_⟩
    have hxb : x ≠ b.index := fun h => hx (by simp [h])
    rw [hflags₁ x hxb, hsame, or_iff_left hx]
  refine ⟨s', free', ?_, hregion₁.trans hregion, hr, hm',
    hput.trans (hshrinks.append (alloc ++ alloc'))⟩
  have hindex : b.index * BLOCK_UNIT / BLOCK_UNIT = b.index :=
    Nat.mul_div_cancel _ (by decide)
  have hcount : ¬ b.index ≥ s.blocksCount := by rw [h.blocksCount]; omega
  simp only [Buddy.free, hoffset, Nat.mul_mod_left, ne_eq, not_true_eq_false, if_false, hindex,
    if_neg hcount, block_eq hi, Option.bind_eq_bind, Option.bind_some, hflag, Bool.true_eq_false,
    hval₁, hval]

end TronKernel.Buddy
