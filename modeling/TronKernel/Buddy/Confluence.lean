import TronKernel.Buddy.Structure

/-!
# The order of merges does not matter

`mergeBuddy` goes on until no two buddies are free, and a tiling in which that is so is determined
by the blocks that are handed out (`mem_of_noBuddies`): each free head is as large as they let it
be. So freeing some blocks ends in the same free heads and the same counters in any order, and
freeing all of them in the one block of the whole region (`merge_confluent`).
-/

namespace TronKernel.Buddy

open DyadicTiling DoublyLinked Runs
open FirstFit (Call MemoryInfo wadd)

variable {top : ℕ} {s s' : State} {free free' alloc alloc' : List Interval} {b c : Interval}

/-- A free head block: it is on the list of its level. -/
def FreeHead (s : State) (b : Interval) : Prop :=
  b.level < LEVEL_LIMIT ∧ ∃ l, DList s.next s.prev (s.bucket b.level) l ∧ b.index ∈ l

theorem Represents.freeHead_iff (h : Represents top s free alloc []) :
    FreeHead s b ↔ b ∈ free := by
  constructor
  · rintro ⟨hlevel, l, hl, hb⟩
    obtain rfl := hl.unique (h.bucket b.level hlevel)
    exact mem_bucketOf.mp hb
  · intro hb
    have hlevel := h.level_lt (List.mem_append_left _ hb)
    exact ⟨hlevel, _, h.bucket b.level hlevel, mem_bucketOf.mpr hb⟩

/-- Different blocks have different addresses. -/
theorem Represents.getAddress_inj (h : Represents top s free alloc []) (hb : b ∈ alloc)
    (hc : c ∈ alloc) (heq : getAddress s b.index = getAddress s c.index) : b = c := by
  have hbmem : b ∈ free ++ (alloc ++ []) := by simp [hb]
  have hcmem : c ∈ free ++ (alloc ++ []) := by simp [hc]
  have hblt := h.index_lt hbmem
  have hclt := h.index_lt hcmem
  refine h.shape.index_inj hbmem hcmem ?_
  simp only [getAddress, wadd, BLOCK_UNIT] at heq
  have hlimit : BLOCK_LIMIT = 4096 := rfl
  omega

/-- Two fully merged states with the same blocks handed out have the same free heads. -/
theorem Represents.freeHead_congr (h : Represents top s free alloc [])
    (h' : Represents top s' free' alloc' []) (hm : Merged top free) (hm' : Merged top free')
    (hrest : ∀ c, c ∈ alloc ↔ c ∈ alloc') : FreeHead s b ↔ FreeHead s' b := by
  have hshape := h.shape
  have hshape' := h'.shape
  rw [List.append_nil] at hshape hshape'
  rw [h.freeHead_iff, h'.freeHead_iff]
  constructor
  · exact hshape.mem_of_noBuddies hshape' hm hm' hrest
  · exact hshape'.mem_of_noBuddies hshape hm' hm fun c => (hrest c).symm

theorem units_congr {hs gs : List Interval} (hhs : hs.Nodup) (hgs : gs.Nodup)
    (h : ∀ b, b ∈ hs ↔ b ∈ gs) : units hs = units gs := by
  have hperm : hs.Perm gs := (List.perm_ext_iff_of_nodup hhs hgs).mpr h
  exact (hperm.map _).sum_eq

theorem memoryInfo_ext {i j : MemoryInfo} (hallocated : i.allocated = j.allocated)
    (hfree : i.free = j.free) (htotal : i.total = j.total) : i = j := by
  cases i
  cases j
  rw [MemoryInfo.mk.injEq]
  exact ⟨hallocated, hfree, htotal⟩

/-- The counters follow from the blocks that are handed out. -/
theorem Represents.memoryInfo_congr (h : Represents top s free alloc [])
    (h' : Represents top s' free' alloc' []) (hrest : ∀ c, c ∈ alloc ↔ c ∈ alloc') :
    s.memoryInfo = s'.memoryInfo := by
  have hunits : units (alloc ++ []) = units (alloc' ++ []) := by
    have hnodup := (List.nodup_append.mp h.shape.nodup).2.1
    have hnodup' := (List.nodup_append.mp h'.shape.nodup).2.1
    simp only [List.append_nil] at hnodup hnodup' ⊢
    exact units_congr hnodup hnodup' hrest
  have htotal := h.shape.total
  have htotal' := h'.shape.total
  rw [units_append] at htotal htotal'
  have hfree : units free = units free' := by omega
  apply memoryInfo_ext
  · rw [h.info_allocated, h'.info_allocated, hunits]
  · rw [h.info_free, h'.info_free, hfree]
  · rw [h.info_total, h'.info_total]

/-! ## Freeing several blocks -/

/-- What is left after some calls of `free`: the blocks at other addresses. -/
theorem run_frees {s : Session} (hr : Represents top s.state free alloc []) (hm : Merged top free)
    {ptrs : List UInt64} (hnodup : ptrs.Nodup)
    (hptrs : ∀ p ∈ ptrs, ∃ b ∈ alloc, getAddress s.state b.index = p.toNat) :
    ∃ t free' alloc', run Session.step s (ptrs.map .free) = some t ∧
      Represents top t.state free' alloc' [] ∧ Merged top free' ∧
      ∀ b, b ∈ alloc' ↔ b ∈ alloc ∧ ∀ p ∈ ptrs, getAddress s.state b.index ≠ p.toNat := by
  induction ptrs generalizing s free alloc with
  | nil => exact ⟨s, free, alloc, rfl, hr, hm, fun b => by simp⟩
  | cons p ptrs ih =>
    rw [List.nodup_cons] at hnodup
    obtain ⟨b, hb, hp⟩ := hptrs p (by simp)
    obtain ⟨a₁, a₂, rfl⟩ := List.append_of_mem hb
    obtain ⟨t, free₁, hval, hregion, hr₁, hm₁, -⟩ := free_represents hr hm
    rw [hp] at hval
    have haddr : ∀ i, getAddress t i = getAddress s.state i := fun i => by
      rw [getAddress, getAddress, hregion.baseAddress]
    have hanodup : (a₁ ++ b :: a₂).Nodup := by
      have := (List.nodup_append.mp hr.shape.nodup).2.1
      rwa [List.append_nil] at this
    have hrest : ∀ c, c ∈ a₁ ++ a₂ ↔ c ∈ a₁ ++ b :: a₂ ∧ getAddress s.state c.index ≠ p.toNat := by
      intro c
      have hcb := List.nodup_cons.mp (hanodup.perm List.perm_middle)
      constructor
      · intro hc
        have hc' : c ∈ a₁ ++ b :: a₂ := List.perm_middle.mem_iff.mpr (List.mem_cons_of_mem b hc)
        refine ⟨hc', fun heq => hcb.1 ?_⟩
        rwa [← hr.getAddress_inj hc' hb (heq.trans hp.symm)]
      · rintro ⟨hc, hne⟩
        have hcne : c ≠ b := fun heq => hne (heq ▸ hp)
        have hc' : c ∈ b :: (a₁ ++ a₂) := List.perm_middle.mem_iff.mp hc
        exact List.mem_of_ne_of_mem hcne hc'
    obtain ⟨u, free', alloc', hrun, hr', hm', halloc⟩ := ih (s := ⟨t, s.live.erase p.toNat⟩) hr₁ hm₁
      hnodup.2 fun q hq => by
        obtain ⟨c, hc, hcq⟩ := hptrs q (by simp [hq])
        have hne : q.toNat ≠ p.toNat := by
          rw [Ne, UInt64.toNat_inj]
          rintro rfl
          exact hnodup.1 hq
        have hkept := (hrest c).mpr ⟨hc, hcq ▸ hne⟩
        have haddress := (haddr c.index).trans hcq
        exact ⟨c, hkept, haddress⟩
    refine ⟨u, free', alloc', ?_, hr', hm', fun c => ?_⟩
    · rw [List.map_cons, run_cons, Session.step, hval]
      exact hrun
    · rw [halloc, hrest]
      simp only [haddr, List.forall_mem_cons, and_assoc]

/-- After any run, freeing some live blocks ends in the same free heads and the same counters in
every order, and freeing all of them leaves the top block as the only free head. -/
theorem merge_confluent (s₀ : State) (address size : UInt64) (calls : List Call)
    (haccepted : (initMemoryManager s₀ address.toNat size.toNat).2 = 0)
    (hallowed : Throughout Session.step (Allowed size.toNat)
      ⟨(initMemoryManager s₀ address.toNat size.toNat).1, []⟩ calls) :
    ∃ top s, size.toNat = SIZE top ∧
      run Session.step ⟨(initMemoryManager s₀ address.toNat size.toNat).1, []⟩ calls = some s ∧
      (∀ ptrs ptrs' : List UInt64, ptrs.Nodup → ptrs.Perm ptrs' →
        (∀ p ∈ ptrs, p.toNat ∈ s.live) →
        ∃ t t', run Session.step s (ptrs.map .free) = some t ∧
          run Session.step s (ptrs'.map .free) = some t' ∧
          (∀ b, FreeHead t.state b ↔ FreeHead t'.state b) ∧
          t.state.memoryInfo = t'.state.memoryInfo) ∧
      (∀ ptrs : List UInt64, ptrs.Nodup → (∀ n, n ∈ ptrs.map UInt64.toNat ↔ n ∈ s.live) →
        ∃ t, run Session.step s (ptrs.map .free) = some t ∧
          (∀ b, FreeHead t.state b ↔ b = ⟨0, top⟩) ∧
          t.state.memoryInfo = ⟨0, size.toNat, size.toNat⟩) := by
  obtain ⟨top, hsize, s, hrun, free, alloc, hr, hm, hbase, hlive⟩ :=
    run_holds s₀ haccepted hallowed
  rw [← hbase] at hlive
  have hat : ∀ n, n ∈ s.live ↔ ∃ b ∈ alloc, getAddress s.state b.index = n := fun n => by
    rw [hlive.mem_iff, List.mem_map]
    rfl
  refine ⟨top, s, hsize, hrun, fun ptrs ptrs' hnodup hperm hptrs => ?_, fun ptrs hnodup hptrs => ?_⟩
  · obtain ⟨t, free₁, alloc₁, hrun₁, hr₁, hm₁, halloc₁⟩ :=
      run_frees hr hm hnodup fun p hp => (hat _).mp (hptrs p hp)
    obtain ⟨t', free₂, alloc₂, hrun₂, hr₂, hm₂, halloc₂⟩ :=
      run_frees hr hm (hperm.nodup hnodup) fun p hp => (hat _).mp (hptrs p (hperm.mem_iff.mpr hp))
    have hrest : ∀ c, c ∈ alloc₁ ↔ c ∈ alloc₂ := fun c => by
      simp only [halloc₁, halloc₂, hperm.mem_iff]
    exact ⟨t, t', hrun₁, hrun₂, fun b => hr₁.freeHead_congr hr₂ hm₁ hm₂ hrest,
      hr₁.memoryInfo_congr hr₂ hrest⟩
  · obtain ⟨t, free', alloc', hrun', hr', hm', halloc'⟩ :=
      run_frees hr hm hnodup fun p hp => (hat _).mp ((hptrs _).mp (List.mem_map_of_mem hp))
    have hnone : alloc' = [] := List.eq_nil_iff_forall_not_mem.mpr fun c hc => by
      obtain ⟨hc, hne⟩ := (halloc' c).mp hc
      obtain ⟨p, hp, heq⟩ := List.mem_map.mp ((hptrs _).mpr ((hat _).mpr ⟨c, hc, rfl⟩))
      exact hne p hp heq.symm
    subst hnone
    have hshape := hr'.shape
    rw [List.append_nil, List.append_nil] at hshape
    refine ⟨t, hrun', fun b => hr'.freeHead_iff.trans (hshape.mem_iff_of_noBuddies hm'), ?_⟩
    apply memoryInfo_ext
    · exact hr'.info_allocated.trans (Nat.zero_mul _)
    · rw [hr'.info_free, hshape.total, hsize]
      rfl
    · rw [hr'.info_total, hsize]

/-- Three blocks of a page at 1 MiB are live: they are freed in any order. -/
theorem merge_confluent_page :
    ∃ top s, 0x1000 = SIZE top ∧
      run Session.step ⟨(initMemoryManager boot 0x100000 0x1000).1, []⟩
        [.malloc 256, .malloc 1000, .malloc 300] = some s ∧
      (∀ ptrs ptrs' : List UInt64, ptrs.Nodup → ptrs.Perm ptrs' →
        (∀ p ∈ ptrs, p.toNat ∈ s.live) →
        ∃ t t', run Session.step s (ptrs.map .free) = some t ∧
          run Session.step s (ptrs'.map .free) = some t' ∧
          (∀ b, FreeHead t.state b ↔ FreeHead t'.state b) ∧
          t.state.memoryInfo = t'.state.memoryInfo) ∧
      (∀ ptrs : List UInt64, ptrs.Nodup → (∀ n, n ∈ ptrs.map UInt64.toNat ↔ n ∈ s.live) →
        ∃ t, run Session.step s (ptrs.map .free) = some t ∧
          (∀ b, FreeHead t.state b ↔ b = ⟨0, top⟩) ∧
          t.state.memoryInfo = ⟨0, 0x1000, 0x1000⟩) :=
  merge_confluent boot 0x100000 0x1000 [.malloc 256, .malloc 1000, .malloc 300] (by decide)
    (by decide +kernel)

end TronKernel.Buddy
