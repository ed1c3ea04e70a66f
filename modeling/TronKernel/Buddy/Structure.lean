import TronKernel.Buddy.Calls
import TronKernel.Lib.Runs

/-!
# The buddy allocator after any run

A program calls `malloc` with sizes up to the region's and `free` with pointers it got and has not
freed. After every such run the region is tiled by head blocks, the buckets list the free ones and
the counters add up (`buddy_structure_kept`).
-/

namespace TronKernel.Buddy

open DyadicTiling DoublyLinked Runs Tiling
open FirstFit (Call wadd)

/-- The allocator and the pointers the program holds. -/
structure Session where
  state : State
  live : List ℕ

/-- One call: a pointer returned by `malloc` is live until it is freed. -/
def Session.step (s : Session) : Call → Option Session
  | .malloc size => (malloc s.state size.toNat).map fun r => ⟨r.1, r.2.toList ++ s.live⟩
  | .free ptr => (free s.state ptr.toNat).map fun state => ⟨state, s.live.erase ptr.toNat⟩

/-- What the program may ask for in a region of `size` bytes. -/
def Allowed (size : ℕ) (s : Session) : Call → Prop
  | .malloc n => n.toNat ≤ size
  | .free ptr => ptr.toNat ∈ s.live

instance (size : ℕ) (s : Session) : (c : Call) → Decidable (Allowed size s c)
  | .malloc n => inferInstanceAs (Decidable (n.toNat ≤ size))
  | .free ptr => inferInstanceAs (Decidable (ptr.toNat ∈ s.live))

/-- The arrays describe a tiling of the region by heads, with the list of each bucket. -/
structure BuddyStructure (top : ℕ) (s : State) (heads : List Interval) (lists : ℕ → List ℕ) :
    Prop where
  tiles : Tiles Interval.index Interval.stop 0 (2 ^ top) heads
  aligned : ∀ b ∈ heads, 2 ^ b.level ∣ b.index
  level_eq : ∀ b ∈ heads, (s.blocks b.index).level = b.level
  bucket : ∀ k < LEVEL_LIMIT, DList s.next s.prev (s.bucket k) (lists k)
  bucket_nodup : ∀ k < LEVEL_LIMIT, (lists k).Nodup
  mem_bucket : ∀ k < LEVEL_LIMIT, ∀ i,
    i ∈ lists k ↔ (⟨i, k⟩ : Interval) ∈ heads ∧ (s.blocks i).allocated = false
  merged : ∀ b ∈ heads, ∀ c ∈ heads, b.level < top → c.level = b.level →
    c.index = buddyIndex b.index b.level →
    ¬ ((s.blocks b.index).allocated = false ∧ (s.blocks c.index).allocated = false)
  info_allocated : s.memoryInfo.allocated =
    units (heads.filter fun b => (s.blocks b.index).allocated) * BLOCK_UNIT
  info_free : s.memoryInfo.free =
    units (heads.filter fun b => !(s.blocks b.index).allocated) * BLOCK_UNIT
  info_sum : s.memoryInfo.allocated + s.memoryInfo.free = s.memoryInfo.total
  info_total : s.memoryInfo.total = SIZE top

variable {top : ℕ} {s : State} {free alloc : List Interval}

theorem filter_eq_right {α : Type*} {l₁ l₂ : List α} {p : α → Bool} (h₁ : ∀ x ∈ l₁, p x = false)
    (h₂ : ∀ x ∈ l₂, p x = true) : (l₁ ++ l₂).filter p = l₂ := by
  rw [List.filter_append, List.filter_eq_self.mpr h₂,
    List.filter_eq_nil_iff.mpr fun x hx => by rw [h₁ x hx]; exact Bool.false_ne_true]
  rfl

theorem filter_eq_left {α : Type*} {l₁ l₂ : List α} {p : α → Bool} (h₁ : ∀ x ∈ l₁, p x = true)
    (h₂ : ∀ x ∈ l₂, p x = false) : (l₁ ++ l₂).filter p = l₁ := by
  rw [List.filter_append, List.filter_eq_self.mpr h₁,
    List.filter_eq_nil_iff.mpr fun x hx => by rw [h₂ x hx]; exact Bool.false_ne_true,
    List.append_nil]

theorem Represents.buddyStructure (h : Represents top s free alloc []) (hm : Merged top free) :
    BuddyStructure top s (free ++ alloc) (bucketOf free) := by
  have hshape := h.shape
  have hlevel := h.level_eq
  have hinfo := h.info_allocated
  rw [List.append_nil] at hshape hlevel hinfo
  have hfree : ∀ b ∈ free ++ alloc, (s.blocks b.index).allocated = false → b ∈ free := by
    intro b hb hflag
    rcases List.mem_append.mp hb with hb | hb
    · exact hb
    · rw [h.alloc_flag b hb] at hflag
      exact Bool.noConfusion hflag
  exact
    { tiles := hshape.tiles
      aligned := hshape.aligned
      level_eq := hlevel
      bucket := h.bucket
      bucket_nodup := fun k _ => h.nodup_bucketOf k
      mem_bucket := fun k _ i => by
        rw [mem_bucketOf]
        constructor
        · exact fun hmem => ⟨List.mem_append_left _ hmem, h.free_flag _ hmem⟩
        · exact fun hmem => hfree _ hmem.1 hmem.2
      merged := fun b hb c hc hlt hlevel hindex hflags =>
        hm b (hfree b hb hflags.1) c (hfree c hc hflags.2) hlt hlevel hindex
      info_allocated := by rw [hinfo, filter_eq_right h.free_flag h.alloc_flag]
      info_free := by
        rw [h.info_free, filter_eq_left]
        · exact fun b hb => by rw [h.free_flag b hb]; rfl
        · exact fun b hb => by rw [h.alloc_flag b hb]; rfl
      info_sum := by
        have htotal := hshape.total
        rw [units_append] at htotal
        rw [hinfo, h.info_free, h.info_total, ← Nat.add_mul, Nat.add_comm, htotal]
        rfl
      info_total := h.info_total }

/-! ## Runs -/

/-- What a run keeps: the live pointers are the addresses of the heads that are handed out. -/
def Holds (top base : ℕ) (s : Session) : Prop :=
  ∃ free alloc, Represents top s.state free alloc [] ∧ Merged top free ∧
    s.state.baseAddress = base ∧
    s.live.Perm (alloc.map fun b => wadd base (b.index * BLOCK_UNIT))

theorem step_holds {base : ℕ} {s : Session} (hs : Holds top base s) {c : Call}
    (hc : Allowed (SIZE top) s c) : ∃ s', s.step c = some s' ∧ Holds top base s' := by
  obtain ⟨free, alloc, hr, hm, rfl, hlive⟩ := hs
  cases c with
  | malloc size =>
    rcases malloc_represents hr hm hc with ⟨hval, -⟩ | ⟨t, free', b, hval, hregion, hr', hm', -⟩
    · exact ⟨s, by simp only [Session.step, hval]; rfl, free, alloc, hr, hm, rfl, hlive⟩
    · refine ⟨⟨t, getAddress s.state b.index :: s.live⟩, by simp only [Session.step, hval]; rfl,
        free', b :: alloc, hr', hm', hregion.baseAddress, hlive.cons _⟩
  | free ptr =>
    obtain ⟨b, hb, hptr⟩ := List.mem_map.mp (hlive.mem_iff.mp hc)
    obtain ⟨a₁, a₂, rfl⟩ := List.append_of_mem hb
    obtain ⟨t, free', hval, hregion, hr', hm', -⟩ := free_represents hr hm
    change getAddress s.state b.index = ptr.toNat at hptr
    rw [hptr] at hval
    refine ⟨⟨t, s.live.erase ptr.toNat⟩, by simp only [Session.step, hval]; rfl, free', a₁ ++ a₂,
      hr', hm', hregion.baseAddress, ?_⟩
    have hperm : s.live.Perm (ptr.toNat :: (a₁ ++ a₂).map fun b =>
        wadd s.state.baseAddress (b.index * BLOCK_UNIT)) := by
      refine hlive.trans ?_
      rw [← hptr]
      exact List.perm_middle.map _
    exact ((List.perm_cons_erase hc).symm.trans hperm).cons_inv

/-- A region that `initMemoryManager` accepts has a power of two of blocks, between 2 and 4096. -/
theorem init_represents (s₀ : State) {address size : ℕ} (hsize : size < 2 ^ 64)
    (haccepted : (initMemoryManager s₀ address size).2 = 0) :
    ∃ top, size = SIZE top ∧
      Represents top (initMemoryManager s₀ address size).1 [⟨0, top⟩] [] [] ∧
      (initMemoryManager s₀ address size).1.baseAddress = address := by
  revert haccepted
  dsimp only [initMemoryManager]
  split_ifs with haddr hpow hzero hlimit
  all_goals intro haccepted
  · exact absurd haccepted (by decide)
  · exact absurd haccepted (by decide)
  · exact absurd haccepted (by decide)
  · exact absurd haccepted (by decide)
  obtain ⟨hmod, hpow⟩ := not_or.mp hpow
  simp only [IS_POW2, decide_eq_true_eq, not_not] at hmod hpow
  obtain ⟨top, htop⟩ := (Nat.and_sub_one_eq_zero_iff_isPowerOfTwo hpow.1).mp hpow.2
  have htop64 : top < 64 := by
    by_contra hge
    have : 2 ^ 64 ≤ 2 ^ top := Nat.pow_le_pow_right Nat.two_pos (by omega)
    have hle : size / BLOCK_UNIT ≤ size := Nat.div_le_self _ _
    omega
  have hlog : log2n (size / BLOCK_UNIT) = top := by
    rw [htop]
    exact log2n_eq le_rfl (Nat.pow_lt_pow_right Nat.one_lt_two (Nat.lt_succ_self top)) (by omega)
  have hsize' : size = SIZE top := by
    rw [SIZE, ← htop]
    simp only [BLOCK_UNIT] at hmod ⊢
    omega
  rw [hlog] at hzero hlimit ⊢
  refine ⟨top, hsize', ?_, rfl⟩
  have hwhole := IsTiling.whole top
  exact
    { one_le := by omega
      lt_limit := by omega
      levelsCount := rfl
      blocksCount := rfl
      shape := hwhole
      level_eq := by simp
      free_flag := by simp
      alloc_flag := by simp
      bucket := fun k _ => by
        by_cases hk : top = k
        · subst hk
          simp only [Function.update_self]
          refine ⟨by simp [bucketOf], fun a x c hl => ?_⟩
          simp only [bucketOf, List.filter_cons_of_pos, decide_true, List.filter_nil,
            List.map_cons, List.map_nil] at hl
          obtain ⟨rfl, rfl, rfl⟩ : a = [] ∧ x = 0 ∧ c = [] := by
            cases a with
            | nil => simpa using hl.symm
            | cons y a => simp at hl
          exact ⟨rfl, rfl⟩
        · simp only [Function.update_of_ne (Ne.symm hk), bucketOf_cons_of_ne (b := ⟨0, top⟩) hk]
          exact DList.nil
      info_allocated := rfl
      info_free := by simpa [SIZE] using hsize'
      info_total := hsize' }

/-- A run on an accepted region ends, and keeps the invariant. -/
theorem run_holds (s₀ : State) {address size : UInt64} {calls : List Call}
    (haccepted : (initMemoryManager s₀ address.toNat size.toNat).2 = 0)
    (hallowed : Throughout Session.step (Allowed size.toNat)
      ⟨(initMemoryManager s₀ address.toNat size.toNat).1, []⟩ calls) :
    ∃ top, size.toNat = SIZE top ∧ ∃ s,
      run Session.step ⟨(initMemoryManager s₀ address.toNat size.toNat).1, []⟩ calls = some s ∧
      Holds top address.toNat s := by
  obtain ⟨top, hsize, hr, hbase⟩ := init_represents s₀ size.toNat_lt haccepted
  have hstart : Holds top address.toNat ⟨(initMemoryManager s₀ address.toNat size.toNat).1, []⟩ :=
    ⟨[⟨0, top⟩], [], hr, IsTiling.noBuddies_whole top, hbase, List.Perm.nil⟩
  exact ⟨top, hsize, run_total hstart hallowed fun s c hs hc => step_holds hs (hsize ▸ hc)⟩

/-- After any run on an accepted region the arrays describe a fully merged tiling by heads, and no
call has left an array or followed a null pointer. -/
theorem buddy_structure_kept (s₀ : State) (address size : UInt64) (calls : List Call)
    (haccepted : (initMemoryManager s₀ address.toNat size.toNat).2 = 0)
    (hallowed : Throughout Session.step (Allowed size.toNat)
      ⟨(initMemoryManager s₀ address.toNat size.toNat).1, []⟩ calls) :
    ∃ top s heads lists, size.toNat = SIZE top ∧
      run Session.step ⟨(initMemoryManager s₀ address.toNat size.toNat).1, []⟩ calls = some s ∧
      BuddyStructure top s.state heads lists := by
  obtain ⟨top, hsize, s, hrun, free, alloc, hr, hm, -⟩ := run_holds s₀ haccepted hallowed
  exact ⟨top, s, free ++ alloc, bucketOf free, hsize, hrun, hr.buddyStructure hm⟩

/-- Two blocks handed out and the first given back, on a page at 1 MiB. -/
theorem buddy_structure_kept_page :
    ∃ top s heads lists, 0x1000 = SIZE top ∧
      run Session.step ⟨(initMemoryManager boot 0x100000 0x1000).1, []⟩
        [.malloc 256, .malloc 1000, .free 0x100000] = some s ∧
      BuddyStructure top s.state heads lists :=
  buddy_structure_kept boot 0x100000 0x1000 [.malloc 256, .malloc 1000, .free 0x100000]
    (by decide) (by decide +kernel)

end TronKernel.Buddy
