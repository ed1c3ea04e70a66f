import TronKernel.Buddy.Allocator
import TronKernel.Lib.Dyadic
import TronKernel.Lib.DoublyLinked
import Mathlib.Data.List.Nodup

/-!
# The buddy allocator's arrays represent a tiling

A head block is an aligned dyadic interval of block indices. `Represents top s free alloc held`
reads the arrays: the heads tile the region, the `level` field of each head is its level, and the
bucket of a level is a doubly linked list of the free heads of that level. `held` are heads that the
code has taken off a bucket and not yet put back or handed out: their flag says nothing.

Of the blocks that are not heads nothing is known, so what the code reads there is stale. It never
does: each index it follows is that of a head (`IsTiling.buddy_mem`).
-/

namespace TronKernel.Buddy

open DyadicTiling DoublyLinked Tiling
open FirstFit (MemoryInfo wadd wsub)

/-- The indices of the free heads of a level, in the order of the list. -/
def bucketOf (free : List Interval) (k : ℕ) : List ℕ :=
  (free.filter fun b => b.level = k).map Interval.index

section BucketOf

variable {free free' : List Interval} {b : Interval} {i k : ℕ}

theorem mem_bucketOf : i ∈ bucketOf free k ↔ (⟨i, k⟩ : Interval) ∈ free := by
  simp only [bucketOf, List.mem_map, List.mem_filter, decide_eq_true_eq]
  constructor
  · rintro ⟨b, ⟨hb, rfl⟩, rfl⟩
    exact hb
  · exact fun h => ⟨⟨i, k⟩, ⟨h, rfl⟩, rfl⟩

@[simp] theorem bucketOf_nil : bucketOf [] k = [] := rfl

@[simp] theorem bucketOf_append :
    bucketOf (free ++ free') k = bucketOf free k ++ bucketOf free' k := by
  simp [bucketOf]

theorem bucketOf_cons_self : bucketOf (b :: free) b.level = b.index :: bucketOf free b.level := by
  simp [bucketOf]

theorem bucketOf_cons_of_ne (h : b.level ≠ k) : bucketOf (b :: free) k = bucketOf free k := by
  simp [bucketOf, h]

end BucketOf

/-! ## What `addBlock` and `removeBlock` write -/

/-- The static variables that only `initMemoryManager` sets. -/
structure SameRegion (s s' : State) : Prop where
  levelsCount : s'.levelsCount = s.levelsCount
  blocksCount : s'.blocksCount = s.blocksCount
  baseAddress : s'.baseAddress = s.baseAddress
  total : s'.memoryInfo.total = s.memoryInfo.total

theorem SameRegion.refl (s : State) : SameRegion s s := ⟨rfl, rfl, rfl, rfl⟩

theorem SameRegion.trans {s₁ s₂ s₃ : State} (h : SameRegion s₁ s₂) (h' : SameRegion s₂ s₃) :
    SameRegion s₁ s₃ :=
  ⟨h'.1.trans h.1, h'.2.trans h.2, h'.3.trans h.3, h'.4.trans h.4⟩

variable {s : State} {i : ℕ}

theorem block_eq (hi : i < BLOCK_LIMIT) : s.block i = some (s.blocks i) := if_pos hi

theorem setBlock_eq (hi : i < BLOCK_LIMIT) (f : BlockData → BlockData) :
    s.setBlock i f = some { s with blocks := Function.update s.blocks i (f (s.blocks i)) } :=
  if_pos hi

theorem bucketAt_eq {k : ℕ} (hk : k < LEVEL_LIMIT) : s.bucketAt k = some (s.bucket k) := if_pos hk

theorem setBucket_eq {k : ℕ} (hk : k < LEVEL_LIMIT) (p : Option ℕ) :
    s.setBucket k p = some { s with bucket := Function.update s.bucket k p } := if_pos hk

theorem addBlock_spec (hi : i < BLOCK_LIMIT) (hk : (s.blocks i).level < LEVEL_LIMIT)
    (hhead : ∀ j, s.bucket (s.blocks i).level = some j → j < BLOCK_LIMIT ∧ j ≠ i) :
    ∃ s', addBlock s i = some s' ∧ SameRegion s s' ∧
      s'.blocks i = ⟨false, (s.blocks i).level, s.bucket (s.blocks i).level, none⟩ ∧
      (∀ x, x ≠ i → s'.blocks x =
        { s.blocks x with
          prev := if s.bucket (s.blocks i).level = some x then some i else (s.blocks x).prev }) ∧
      s'.bucket = Function.update s.bucket (s.blocks i).level (some i) ∧
      s'.memoryInfo.allocated = wsub s.memoryInfo.allocated (SIZE (s.blocks i).level) ∧
      s'.memoryInfo.free = wadd s.memoryInfo.free (SIZE (s.blocks i).level) := by
  cases hnext : s.bucket (s.blocks i).level with
  | none =>
    simp only [addBlock, block_eq hi, bucketAt_eq hk, hnext, setBlock_eq hi, setBucket_eq hk,
      Option.bind_eq_bind, Option.bind_some]
    refine ⟨_, rfl, ⟨rfl, rfl, rfl, rfl⟩, by simp, fun x hx => ?_, rfl, rfl, rfl⟩
    simp [Function.update_of_ne hx]
  | some j =>
    obtain ⟨hj, hji⟩ := hhead j hnext
    simp only [addBlock, block_eq hi, bucketAt_eq hk, hnext, setBlock_eq hi, setBucket_eq hk,
      setBlock_eq hj, Option.bind_eq_bind, Option.bind_some]
    refine ⟨_, rfl, ⟨rfl, rfl, rfl, rfl⟩, by simp [Function.update_of_ne hji.symm], fun x hx => ?_,
      rfl, rfl, rfl⟩
    by_cases hxj : x = j
    · subst hxj
      simp [Function.update_of_ne hx]
    · simp [Function.update_of_ne hx, Function.update_of_ne hxj, Ne.symm hxj]

theorem removeBlock_spec (hi : i < BLOCK_LIMIT) (hk : (s.blocks i).level < LEVEL_LIMIT)
    (hnext : ∀ j, (s.blocks i).next = some j → j < BLOCK_LIMIT ∧ j ≠ i)
    (hprev : ∀ j, (s.blocks i).prev = some j → j < BLOCK_LIMIT ∧ j ≠ i) :
    ∃ s', removeBlock s i = some s' ∧ SameRegion s s' ∧
      s'.blocks i = ⟨true, (s.blocks i).level, none, none⟩ ∧
      (∀ x, x ≠ i → s'.blocks x =
        { s.blocks x with
          next := if (s.blocks i).prev = some x then (s.blocks i).next else (s.blocks x).next
          prev := if (s.blocks i).next = some x then (s.blocks i).prev else (s.blocks x).prev }) ∧
      s'.bucket = (if (s.blocks i).prev = none then
        Function.update s.bucket (s.blocks i).level (s.blocks i).next else s.bucket) ∧
      s'.memoryInfo.allocated = wadd s.memoryInfo.allocated (SIZE (s.blocks i).level) ∧
      s'.memoryInfo.free = wsub s.memoryInfo.free (SIZE (s.blocks i).level) := by
  cases hn : (s.blocks i).next with
  | none =>
    cases hp : (s.blocks i).prev with
    | none =>
      simp only [removeBlock, block_eq hi, hn, hp, setBlock_eq hi, setBucket_eq hk,
        Option.bind_eq_bind, Option.bind_some]
      refine ⟨_, rfl, ⟨rfl, rfl, rfl, rfl⟩, by simp, fun x hx => ?_, by simp, rfl, rfl⟩
      simp [Function.update_of_ne hx]
    | some q =>
      obtain ⟨hq, hqi⟩ := hprev q hp
      simp only [removeBlock, block_eq hi, hn, hp, setBlock_eq hi, setBlock_eq hq,
        Option.bind_eq_bind, Option.bind_some]
      refine ⟨_, rfl, ⟨rfl, rfl, rfl, rfl⟩, by simp [Function.update_of_ne hqi.symm],
        fun x hx => ?_, by simp, rfl, rfl⟩
      by_cases hxq : x = q
      · subst hxq
        simp [Function.update_of_ne hx]
      · simp [Function.update_of_ne hx, Function.update_of_ne hxq, Ne.symm hxq]
  | some n =>
    obtain ⟨hnlt, hni⟩ := hnext n hn
    cases hp : (s.blocks i).prev with
    | none =>
      simp only [removeBlock, block_eq hi, hn, hp, setBlock_eq hi, setBlock_eq hnlt,
        setBucket_eq hk, Option.bind_eq_bind, Option.bind_some]
      refine ⟨_, rfl, ⟨rfl, rfl, rfl, rfl⟩, by simp [Function.update_of_ne hni.symm],
        fun x hx => ?_, by simp, rfl, rfl⟩
      by_cases hxn : x = n
      · subst hxn
        simp [Function.update_of_ne hx]
      · simp [Function.update_of_ne hx, Function.update_of_ne hxn, Ne.symm hxn]
    | some q =>
      obtain ⟨hq, hqi⟩ := hprev q hp
      simp only [removeBlock, block_eq hi, hn, hp, setBlock_eq hi, setBlock_eq hnlt,
        setBlock_eq hq, Option.bind_eq_bind, Option.bind_some]
      refine ⟨_, rfl, ⟨rfl, rfl, rfl, rfl⟩,
        by simp [Function.update_of_ne hni.symm, Function.update_of_ne hqi.symm],
        fun x hx => ?_, by simp, rfl, rfl⟩
      by_cases hxq : x = q
      · subst hxq
        by_cases hxn : x = n
        · subst hxn
          simp [Function.update_of_ne hx]
        · simp [Function.update_of_ne hx, Function.update_of_ne hxn, Ne.symm hxn]
      · by_cases hxn : x = n
        · subst hxn
          simp [Function.update_of_ne hx, Function.update_of_ne hxq, Ne.symm hxq]
        · simp [Function.update_of_ne hx, Function.update_of_ne hxq, Function.update_of_ne hxn,
            Ne.symm hxq, Ne.symm hxn]

/-! ## The representation -/

/-- `block_ptr->next`. -/
def State.next (s : State) (i : ℕ) : Option ℕ := (s.blocks i).next

/-- `block_ptr->prev`. -/
def State.prev (s : State) (i : ℕ) : Option ℕ := (s.blocks i).prev

/-- The arrays hold the free heads in the buckets; the other heads are handed out or held. -/
structure Represents (top : ℕ) (s : State) (free alloc held : List Interval) : Prop where
  one_le : 1 ≤ top
  lt_limit : top < LEVEL_LIMIT
  levelsCount : s.levelsCount = top + 1
  blocksCount : s.blocksCount = 2 ^ top
  shape : IsTiling top (free ++ (alloc ++ held))
  level_eq : ∀ b ∈ free ++ (alloc ++ held), (s.blocks b.index).level = b.level
  free_flag : ∀ b ∈ free, (s.blocks b.index).allocated = false
  alloc_flag : ∀ b ∈ alloc, (s.blocks b.index).allocated = true
  bucket : ∀ k < LEVEL_LIMIT, DList s.next s.prev (s.bucket k) (bucketOf free k)
  info_allocated : s.memoryInfo.allocated = units (alloc ++ held) * BLOCK_UNIT
  info_free : s.memoryInfo.free = units free * BLOCK_UNIT
  info_total : s.memoryInfo.total = SIZE top

variable {top : ℕ} {free free' alloc held : List Interval} {b : Interval}

namespace Represents

theorem index_lt (h : Represents top s free alloc held) (hb : b ∈ free ++ (alloc ++ held)) :
    b.index < BLOCK_LIMIT := by
  refine (h.shape.index_lt hb).trans_le (Nat.pow_le_pow_right Nat.two_pos ?_)
  have := h.lt_limit
  omega

theorem level_lt (h : Represents top s free alloc held) (hb : b ∈ free ++ (alloc ++ held)) :
    b.level < LEVEL_LIMIT :=
  (h.shape.level_le hb).trans_lt h.lt_limit

theorem nodup_bucketOf (h : Represents top s free alloc held) (k : ℕ) :
    (bucketOf free k).Nodup := by
  have hfree : free.Nodup := (List.nodup_append.mp h.shape.nodup).1
  refine List.Nodup.map_on (fun b hb c hc heq => ?_) (hfree.filter _)
  exact h.shape.index_inj (List.mem_append_left _ (List.mem_of_mem_filter hb))
    (List.mem_append_left _ (List.mem_of_mem_filter hc)) heq

/-- The counters never leave the range of `size_t`. -/
theorem units_le (h : Represents top s free alloc held) :
    (units free + units (alloc ++ held)) * BLOCK_UNIT < 2 ^ 64 := by
  have htotal := h.shape.total
  rw [units_append] at htotal
  rw [htotal]
  have htop : 2 ^ top ≤ 2 ^ 12 := Nat.pow_le_pow_right Nat.two_pos (Nat.le_of_lt_succ h.lt_limit)
  calc 2 ^ top * BLOCK_UNIT ≤ 2 ^ 12 * BLOCK_UNIT := Nat.mul_le_mul_right _ htop
    _ < 2 ^ 64 := by decide

/-- A head that is handed out may be regarded as held. -/
theorem hold (h : Represents top s free (alloc ++ b :: free') held) :
    Represents top s free (alloc ++ free') (b :: held) := by
  have hperm : (alloc ++ b :: free' ++ held).Perm (alloc ++ free' ++ b :: held) := by
    simp only [List.append_assoc, List.cons_append]
    exact List.Perm.append_left _ List.perm_middle.symm
  have hperm' := hperm.append_left free
  exact
    { h with
      shape := h.shape.perm hperm'
      level_eq := fun c hc => h.level_eq c (hperm'.mem_iff.mpr hc)
      alloc_flag := fun c hc => h.alloc_flag c (by
        rcases List.mem_append.mp hc with hc | hc
        · exact List.mem_append_left _ hc
        · exact List.mem_append_right _ (List.mem_cons_of_mem _ hc))
      info_allocated := by rw [h.info_allocated, units, (hperm.map _).sum_eq]; rfl }

end Represents

/-- The flags of all blocks but one are as before. -/
def SameFlags (i : ℕ) (s s' : State) : Prop :=
  ∀ x, x ≠ i → (s'.blocks x).allocated = (s.blocks x).allocated

/-- Putting a held head into its bucket. -/
theorem addBlock_represents (h : Represents top s free alloc (b :: held)) :
    ∃ s', addBlock s b.index = some s' ∧ SameRegion s s' ∧
      Represents top s' (b :: free) alloc held ∧ SameFlags b.index s s' := by
  have hperm : (free ++ (alloc ++ b :: held)).Perm (b :: free ++ (alloc ++ held)) := by
    rw [← List.append_assoc, ← List.append_assoc]
    exact List.perm_middle
  have hshape := h.shape.perm hperm
  have hb : b ∈ free ++ (alloc ++ b :: held) := by simp
  have hlevel := h.level_eq b hb
  have hk := h.level_lt hb
  have hlist := h.bucket b.level hk
  -- the other heads have other indices
  have hne : ∀ c ∈ free ++ (alloc ++ held), c.index ≠ b.index := fun c hc =>
    (hshape.index_ne hc).symm
  have hhead : ∀ j, s.bucket (s.blocks b.index).level = some j →
      (⟨j, b.level⟩ : Interval) ∈ free := by
    intro j hj
    rw [hlevel, hlist.head_eq] at hj
    exact mem_bucketOf.mp (List.mem_of_head? hj)
  obtain ⟨s', hval, hregion, hself, hother, hbucket, hinfoA, hinfoF⟩ :=
    addBlock_spec (s := s) (h.index_lt hb) (hlevel ▸ hk) fun j hj =>
      ⟨h.index_lt (List.mem_append_left _ (hhead j hj)),
        hne _ (List.mem_append_left _ (hhead j hj))⟩
  simp only [hlevel] at hself hother hbucket hinfoA hinfoF hhead
  have hunits := h.units_le
  simp only [units_append, units_cons] at hunits
  refine ⟨s', hval, hregion, ⟨h.one_le, h.lt_limit, hregion.levelsCount.trans h.levelsCount,
    hregion.blocksCount.trans h.blocksCount, hshape, fun c hc => ?_, fun c hc => ?_, fun c hc => ?_,
    fun k hklt => ?_, ?_, ?_, hregion.total.trans h.info_total⟩, fun x hx => by rw [hother x hx]⟩
  · rcases List.mem_cons.mp hc with rfl | hc
    · rw [hself]
    · rw [hother _ (hne c hc)]
      exact h.level_eq c (hperm.mem_iff.mpr (List.mem_cons_of_mem _ hc))
  · rcases List.mem_cons.mp hc with rfl | hc
    · rw [hself]
    · rw [hother _ (hne c (List.mem_append_left _ hc))]
      exact h.free_flag c hc
  · rw [hother _ (hne c (List.mem_append_right _ (List.mem_append_left _ hc)))]
    exact h.alloc_flag c hc
  · have hmem : ∀ x ∈ bucketOf free k, x ≠ b.index := fun x hx =>
      hne ⟨x, k⟩ (List.mem_append_left _ (mem_bucketOf.mp hx))
    by_cases hkb : b.level = k
    · subst hkb
      rw [hbucket, Function.update_self, bucketOf_cons_self]
      refine hlist.push (h.nodup_bucketOf _) (by rw [State.next, hself]) (by rw [State.prev, hself])
        (fun x hx => ?_) fun x hx => ?_
      · rw [State.next, hother x (hmem x hx)]; rfl
      · rw [State.prev, hother x (hmem x hx)]; rfl
    · -- another level's list has no cell in common with this one
      rw [hbucket, Function.update_of_ne (Ne.symm hkb), bucketOf_cons_of_ne hkb]
      refine (h.bucket k hklt).congr (fun x hx => ?_) fun x hx => ?_
      · rw [State.next, hother x (hmem x hx)]; rfl
      · rw [State.prev, hother x (hmem x hx), if_neg]
        · rfl
        · intro hx'
          have := h.shape.index_inj (List.mem_append_left _ (hhead x hx'))
            (List.mem_append_left _ (mem_bucketOf.mp hx)) rfl
          exact hkb (congrArg Interval.level this)
  · rw [hinfoA, h.info_allocated]
    simp only [units_append, units_cons, SIZE, wsub, Nat.add_mul, BLOCK_UNIT] at hunits ⊢
    omega
  · rw [hinfoF, h.info_free]
    simp only [units_cons, SIZE, wadd, Nat.add_mul, BLOCK_UNIT] at hunits ⊢
    omega

/-- Taking a free head out of its bucket. -/
theorem removeBlock_represents (h : Represents top s (free ++ b :: free') alloc held) :
    ∃ s', removeBlock s b.index = some s' ∧ SameRegion s s' ∧
      Represents top s' (free ++ free') alloc (b :: held) ∧
      (s'.blocks b.index).allocated = true ∧ SameFlags b.index s s' := by
  have hperm : (free ++ b :: free' ++ (alloc ++ held)).Perm
      (b :: (free ++ free' ++ (alloc ++ held))) := by
    simp only [List.append_assoc, List.cons_append]
    exact List.perm_middle
  have hperm' : (free ++ b :: free' ++ (alloc ++ held)).Perm
      (free ++ free' ++ (alloc ++ b :: held)) := by
    refine hperm.trans ?_
    rw [← List.append_assoc, ← List.append_assoc]
    exact List.perm_middle.symm
  have hshape := h.shape.perm hperm
  have hb : b ∈ free ++ b :: free' ++ (alloc ++ held) := by simp
  have hlevel := h.level_eq b hb
  have hk := h.level_lt hb
  have hlist := h.bucket b.level hk
  have hnodup := h.nodup_bucketOf b.level
  rw [bucketOf_append, bucketOf_cons_self] at hlist hnodup
  have hne : ∀ c ∈ free ++ free' ++ (alloc ++ held), c.index ≠ b.index := fun c hc =>
    (hshape.index_ne hc).symm
  -- both neighbours are free heads of the same level
  have hneighbour : ∀ j, s.next b.index = some j ∨ s.prev b.index = some j →
      (⟨j, b.level⟩ : Interval) ∈ free ++ free' := by
    intro j hj
    have hmem : j ∈ bucketOf free b.level ++ bucketOf free' b.level := by
      obtain ⟨hnext, hprev⟩ := hlist.links _ _ _ rfl
      rw [hnext, hprev] at hj
      rcases hj with hj | hj
      · exact List.mem_append_right _ (List.mem_of_head? hj)
      · exact List.mem_append_left _ (List.mem_of_getLast? hj)
    rw [← bucketOf_append] at hmem
    exact mem_bucketOf.mp hmem
  have hbound : ∀ j, s.next b.index = some j ∨ s.prev b.index = some j →
      j < BLOCK_LIMIT ∧ j ≠ b.index := fun j hj => by
    have hmem := List.mem_append_left (alloc ++ held) (hneighbour j hj)
    exact ⟨h.index_lt (hperm.mem_iff.mpr (List.mem_cons_of_mem _ hmem)), hne _ hmem⟩
  obtain ⟨s', hval, hregion, hself, hother, hbucket, hinfoA, hinfoF⟩ :=
    removeBlock_spec (s := s) (h.index_lt hb) (hlevel ▸ hk) (fun j hj => hbound j (Or.inl hj))
      fun j hj => hbound j (Or.inr hj)
  simp only [hlevel] at hself hbucket hinfoA hinfoF
  have hunits := h.units_le
  simp only [units_append, units_cons] at hunits
  refine ⟨s', hval, hregion, ⟨h.one_le, h.lt_limit, hregion.levelsCount.trans h.levelsCount,
    hregion.blocksCount.trans h.blocksCount, h.shape.perm hperm', fun c hc => ?_, fun c hc => ?_,
    fun c hc => ?_, fun k hklt => ?_, ?_, ?_, hregion.total.trans h.info_total⟩, by rw [hself],
    fun x hx => by rw [hother x hx]⟩
  · have hold := hperm'.mem_iff.mpr hc
    rcases List.mem_cons.mp (hperm.mem_iff.mp hold) with rfl | hc
    · rw [hself]
    · rw [hother _ (hne c hc)]
      exact h.level_eq c hold
  · rw [hother _ (hne c (List.mem_append_left _ hc))]
    refine h.free_flag c ?_
    rcases List.mem_append.mp hc with hc | hc
    · exact List.mem_append_left _ hc
    · exact List.mem_append_right _ (List.mem_cons_of_mem _ hc)
  · rw [hother _ (hne c (List.mem_append_right _ (List.mem_append_left _ hc)))]
    exact h.alloc_flag c hc
  · have hmem : ∀ x ∈ bucketOf (free ++ free') k, x ≠ b.index := fun x hx =>
      hne ⟨x, k⟩ (List.mem_append_left _ (mem_bucketOf.mp hx))
    by_cases hkb : b.level = k
    · subst hkb
      have hunlink : DList s'.next s'.prev
          (if s.prev b.index = none then s.next b.index else s.bucket b.level)
          (bucketOf free b.level ++ bucketOf free' b.level) :=
        hlist.unlink hnodup
          (fun x hx => by
            rw [State.next, hother x (hmem x (by rwa [bucketOf_append]))]; rfl)
          fun x hx => by
            rw [State.prev, hother x (hmem x (by rwa [bucketOf_append]))]; rfl
      rw [bucketOf_append]
      have hhead : s'.bucket b.level =
          if s.prev b.index = none then s.next b.index else s.bucket b.level := by
        rw [hbucket, State.prev]
        split_ifs
        · exact Function.update_self _ _ _
        · rfl
      rw [hhead]
      exact hunlink
    · have hold : bucketOf (free ++ b :: free') k = bucketOf (free ++ free') k := by
        rw [bucketOf_append, bucketOf_append, bucketOf_cons_of_ne hkb]
      have hlistk := h.bucket k hklt
      rw [hold] at hlistk
      have hhead : s'.bucket k = s.bucket k := by
        rw [hbucket]
        split_ifs
        · exact Function.update_of_ne (Ne.symm hkb) _ _
        · rfl
      -- a neighbour of the head is on no other level's list
      have hapart : ∀ x ∈ bucketOf (free ++ free') k,
          ¬ (s.next b.index = some x ∨ s.prev b.index = some x) := fun x hx hx' => by
        have hmem₁ := List.mem_append_left (alloc ++ held) (hneighbour x hx')
        have hmem₂ := List.mem_append_left (alloc ++ held) (mem_bucketOf.mp hx)
        have := hshape.index_inj (List.mem_cons_of_mem _ hmem₁) (List.mem_cons_of_mem _ hmem₂) rfl
        exact hkb (congrArg Interval.level this)
      rw [hhead]
      refine hlistk.congr (fun x hx => ?_) fun x hx => ?_
      · rw [State.next, hother x (hmem x hx)]
        exact if_neg fun hp => hapart x hx (Or.inr hp)
      · rw [State.prev, hother x (hmem x hx)]
        exact if_neg fun hn => hapart x hx (Or.inl hn)
  · rw [hinfoA, h.info_allocated]
    simp only [units_append, units_cons, SIZE, wadd, Nat.add_mul, BLOCK_UNIT] at hunits ⊢
    omega
  · rw [hinfoF, h.info_free]
    simp only [units_append, units_cons, SIZE, wsub, Nat.add_mul, BLOCK_UNIT] at hunits ⊢
    omega

/-! ## Changing the level of held heads -/

/-- New `level` fields for two blocks of which no head is left: what the code writes there. -/
theorem Represents.relevel (hs gs : List Interval) {s' : State}
    (h : Represents top s free alloc (hs ++ held))
    (hshape : IsTiling top (gs ++ (free ++ (alloc ++ held)))) (hunits : units gs = units hs)
    (hregion : SameRegion s s') (hbucket : s'.bucket = s.bucket)
    (hinfo : s'.memoryInfo = s.memoryInfo)
    (hsame : ∀ c ∈ free ++ (alloc ++ held), s'.blocks c.index = s.blocks c.index)
    (hlevel : ∀ c ∈ gs, (s'.blocks c.index).level = c.level) :
    Represents top s' free alloc (gs ++ held) := by
  have hperm : (gs ++ (free ++ (alloc ++ held))).Perm (free ++ (alloc ++ (gs ++ held))) := by
    rw [← List.append_assoc free, ← List.append_assoc free, ← List.append_assoc gs,
      ← List.append_assoc (free ++ alloc)]
    exact List.perm_append_comm.append_right _
  have hlinks : ∀ k, ∀ x ∈ bucketOf free k, s'.blocks x = s.blocks x := fun k x hx =>
    hsame ⟨x, k⟩ (List.mem_append_left _ (mem_bucketOf.mp hx))
  exact
    { one_le := h.one_le
      lt_limit := h.lt_limit
      levelsCount := hregion.levelsCount.trans h.levelsCount
      blocksCount := hregion.blocksCount.trans h.blocksCount
      shape := hshape.perm hperm
      level_eq := fun c hc => by
        rcases List.mem_append.mp (hperm.mem_iff.mpr hc) with hc | hc
        · exact hlevel c hc
        · rw [hsame c hc]
          refine h.level_eq c ?_
          simp only [List.mem_append] at hc ⊢
          rcases hc with hc | hc | hc
          · exact Or.inl hc
          · exact Or.inr (Or.inl hc)
          · exact Or.inr (Or.inr (Or.inr hc))
      free_flag := fun c hc => by
        rw [hsame c (List.mem_append_left _ hc)]
        exact h.free_flag c hc
      alloc_flag := fun c hc => by
        rw [hsame c (List.mem_append_right _ (List.mem_append_left _ hc))]
        exact h.alloc_flag c hc
      bucket := fun k hk => by
        rw [hbucket]
        exact (h.bucket k hk).congr (fun x hx => by rw [State.next, hlinks k x hx]; rfl)
          fun x hx => by rw [State.prev, hlinks k x hx]; rfl
      info_allocated := by
        rw [hinfo, h.info_allocated]
        simp only [units_append, hunits]
      info_free := by rw [hinfo, h.info_free]
      info_total := by rw [hinfo, h.info_total] }

end TronKernel.Buddy
