import TronKernel.Buddy.Structure

/-!
# What a call of the buddy allocator's `malloc` hands out

`Contract` says for one state and one request which block is handed out. It holds in every state
that a program with valid pointers can reach, for every request up to the region's size
(`buddy_malloc_contract`). `malloc` never compares the level of a larger request with
`levels_count`: the search for a bigger block starts behind the last level then, misses the test for
"no block found" and goes on with the null pointer, or leaves `bucket` (`malloc_too_large`).
-/

namespace TronKernel.Buddy

open DyadicTiling DoublyLinked Runs
open FirstFit (Call wadd)

/-- The least level whose blocks hold `n` bytes. -/
def LeastLevel (n k : ℕ) : Prop := n ≤ SIZE k ∧ ∀ j < k, SIZE j < n

/-- `malloc(n)` hands out the block `⟨i, k⟩`, which is inside the region and overlaps no block that
has been handed out, in particular none of a live pointer. -/
def HandsOut (top : ℕ) (heads : List Interval) (s : Session) (n k : ℕ) : Prop :=
  ∃ s' i, malloc s.state n = some (s', some (wadd s.state.baseAddress (i * BLOCK_UNIT))) ∧
    (s'.blocks i).allocated = true ∧ (s'.blocks i).level = k ∧ 2 ^ k ∣ i ∧ i + 2 ^ k ≤ 2 ^ top ∧
    (∀ b ∈ heads, (s.state.blocks b.index).allocated = true →
      b.stop ≤ i ∨ i + 2 ^ k ≤ b.index) ∧
    ∀ p ∈ s.live, ∃ b ∈ heads, (s.state.blocks b.index).allocated = true ∧
      p = wadd s.state.baseAddress (b.index * BLOCK_UNIT)

/-- The contract of `malloc(n)` on a region of `SIZE top` bytes. If the region or the free blocks do
not reach the request's level it returns null and changes nothing, otherwise it hands out a block of
that level. -/
def Contract (s : Session) (n : ℕ) : Prop :=
  ∃ top heads lists, BuddyStructure top s.state heads lists ∧ ∀ k, LeastLevel n k →
    ((SIZE top < n ∨ ∀ b ∈ heads, (s.state.blocks b.index).allocated = false → b.level < k) →
      malloc s.state n = some (s.state, none)) ∧
    (n ≤ SIZE top → (∃ b ∈ heads, (s.state.blocks b.index).allocated = false ∧ k ≤ b.level) →
      HandsOut top heads s n k)

/-- A program frees only pointers it got and has not freed, and asks for whatever it likes. -/
def FreesLive (s : Session) : Call → Prop
  | .malloc _ => True
  | .free ptr => ptr.toNat ∈ s.live

instance (s : Session) : (c : Call) → Decidable (FreesLive s c)
  | .malloc _ => isTrue trivial
  | .free ptr => inferInstanceAs (Decidable (ptr.toNat ∈ s.live))

/-! ## The level of a request -/

theorem SIZE_lt {j k : ℕ} (h : j < k) : SIZE j < SIZE k :=
  Nat.mul_lt_mul_of_pos_right (Nat.pow_lt_pow_right Nat.one_lt_two h) (by decide)

theorem SIZE_le {j k : ℕ} (h : j ≤ k) : SIZE j ≤ SIZE k :=
  Nat.mul_le_mul_right _ (Nat.pow_le_pow_right Nat.two_pos h)

theorem LeastLevel.unique {n j k : ℕ} (hj : LeastLevel n j) (hk : LeastLevel n k) : j = k := by
  rcases Nat.lt_trichotomy j k with hlt | heq | hlt
  · exact absurd hj.1 (Nat.not_le.mpr (hk.2 j hlt))
  · exact heq
  · exact absurd hk.1 (Nat.not_le.mpr (hj.2 k hlt))

/-- The logarithm and its correction give the least level. -/
theorem leastLevel_levelFor {n : ℕ} (hn : n < 2 ^ 64) : LeastLevel n (levelFor n) := by
  by_cases hq : n / 256 = 0
  · have hlevel : levelFor n = 0 := by
      simp only [levelFor, BLOCK_UNIT]
      rw [hq, log2n_zero, if_neg (by omega)]
    rw [hlevel]
    exact ⟨by simp only [SIZE, BLOCK_UNIT]; omega, fun j hj => absurd hj (Nat.not_lt_zero j)⟩
  obtain ⟨k, hlo, hhi⟩ : ∃ k, 2 ^ k ≤ n / 256 ∧ n / 256 < 2 ^ (k + 1) :=
    ⟨Nat.log 2 (n / 256), Nat.pow_log_le_self 2 hq, Nat.lt_pow_succ_log_self Nat.one_lt_two _⟩
  have hk : k ≤ 64 := by
    by_contra hlt
    have : 2 ^ 64 ≤ 2 ^ k := Nat.pow_le_pow_right Nat.two_pos (by omega)
    omega
  have hbelow : ∀ j < k, SIZE j < SIZE k := fun j => SIZE_lt
  have hpow : 2 ^ (k + 1) = 2 ^ k * 2 := pow_succ 2 k
  simp only [levelFor, BLOCK_UNIT, log2n_eq hlo hhi hk]
  split_ifs with hround
  · refine ⟨by simp only [SIZE, BLOCK_UNIT]; omega, fun j hj => ?_⟩
    have hle := SIZE_le (Nat.le_of_lt_succ hj)
    have hround' : SIZE k < n := hround
    omega
  · have hexact : SIZE k = n := by simp only [SIZE, BLOCK_UNIT]; omega
    exact ⟨hexact.ge, fun j hj => hexact ▸ hbelow j hj⟩

/-- A request that is larger than the region has a level above the top. -/
theorem lt_levelFor {n top : ℕ} (hn : n < 2 ^ 64) (hlarge : SIZE top < n) : top < levelFor n := by
  by_contra hle
  have := (leastLevel_levelFor hn).1
  have := SIZE_le (Nat.not_lt.mp hle)
  omega

/-! ## One call -/

variable {top n : ℕ} {s : State} {free alloc : List Interval}

/-- Above the top there is no free head, so the search starts behind `levels_count` and the splits
find nothing; then the null pointer of the request's bucket is followed. From `LEVEL_LIMIT` on the
bucket is not there. -/
theorem malloc_too_large (h : Represents top s free alloc []) (hn : n < 2 ^ 64)
    (hlarge : SIZE top < n) : malloc s n = none := by
  have hlevel := lt_levelFor hn hlarge
  have hcount := h.levelsCount
  have hempty : ∀ k, top < k → k < LEVEL_LIMIT → s.bucket k = none := fun k hk hlt =>
    (h.bucket_eq_none hlt).mpr fun f hf =>
      Nat.ne_of_lt ((h.shape.level_le (List.mem_append_left _ hf)).trans_lt hk)
  have hat : ∀ k, top < k → s.bucketAt k = none ∨ s.bucketAt k = some none := fun k hk => by
    by_cases hlt : k < LEVEL_LIMIT
    · exact Or.inr (by rw [bucketAt_eq hlt, hempty k hk hlt])
    · exact Or.inl (if_neg hlt)
  set level := levelFor n with hval
  have habove : minAbove s s.levelsCount (level + 1) = some (level + 1) := by
    rw [hcount, minAbove, if_neg (by omega)]
  have hrounds : level + 1 - level = 1 := by omega
  have hsplit : splitDown s level 1 = none ∨ splitDown s level 1 = some s := by
    rcases hat (level + 1) (by omega) with hnone | hnull
    · left
      simp only [splitDown, splitBlock, Nat.zero_add, Nat.add_eq_zero_iff, one_ne_zero, and_false,
        if_false, hnone]
      rfl
    · right
      simp only [splitDown, splitBlock, Nat.zero_add, Nat.add_eq_zero_iff, one_ne_zero, and_false,
        if_false, hnull]
      rfl
  rcases hat level hlevel with hnone | hnull
  · simp only [malloc, ← hval, hnone]
    rfl
  · simp only [malloc, ← hval, hnull, Option.bind_eq_bind, Option.bind_some, habove, hrounds]
    rw [if_neg (by omega)]
    rcases hsplit with hnone | hsame
    · rw [hnone]; rfl
    · rw [hsame, Option.bind_some, takeBlock, hnull]; rfl

/-- A request up to the region's size meets the contract. -/
theorem contract_of_le {base : ℕ} {s : Session} (hs : Holds top base s) (hle : n ≤ SIZE top)
    (hn : n < 2 ^ 64) : Contract s n := by
  obtain ⟨free, alloc, hr, hm, rfl, hlive⟩ := hs
  have hfree : ∀ b ∈ free ++ alloc, (s.state.blocks b.index).allocated = false → b ∈ free := by
    intro b hb hflag
    rcases List.mem_append.mp hb with hb | hb
    · exact hb
    · rw [hr.alloc_flag b hb] at hflag
      exact Bool.noConfusion hflag
  have halloc : ∀ b ∈ free ++ alloc, (s.state.blocks b.index).allocated = true → b ∈ alloc := by
    intro b hb hflag
    rcases List.mem_append.mp hb with hb | hb
    · rw [hr.free_flag b hb] at hflag
      exact Bool.noConfusion hflag
    · exact hb
  refine ⟨top, free ++ alloc, bucketOf free, hr.buddyStructure hm, fun k hk => ?_⟩
  obtain rfl := hk.unique (leastLevel_levelFor hn)
  rcases malloc_represents hr hm hle with
    ⟨hval, hsmall⟩ | ⟨s', free', b, hval, -, hr', -, -, hlevel, f, hf, hkf⟩
  · refine ⟨fun _ => hval, fun _ ⟨b, hb, hflag, hkb⟩ => ?_⟩
    exact absurd (hsmall b (hfree b hb hflag)) (Nat.not_lt.mpr hkb)
  · refine ⟨fun hnone => ?_, fun _ _ => ⟨s', b.index, hval, ?_, ?_, ?_, ?_, fun c hc hflag => ?_,
      fun p hp => ?_⟩⟩
    · rcases hnone with hlarge | hnone
      · exact absurd hle (Nat.not_le.mpr hlarge)
      · exact absurd (hnone f (List.mem_append_left _ hf) (hr.free_flag f hf)) (Nat.not_lt.mpr hkf)
    all_goals have hbmem : b ∈ free' ++ (b :: alloc ++ []) := by simp
    · exact hr'.alloc_flag b (by simp)
    · rw [hr'.level_eq b hbmem, hlevel]
    · rw [← hlevel]; exact hr'.shape.aligned b hbmem
    · rw [← hlevel]; exact hr'.shape.stop_le hbmem
    · -- the block and the ones handed out before are heads of the new tiling
      have hcmem : c ∈ free' ++ (b :: alloc ++ []) := by simp [halloc c hc hflag]
      have hne : c ≠ b := by
        rintro rfl
        have hnodup := (List.nodup_append.mp hr'.shape.nodup).2.1
        simp only [List.append_nil, List.nodup_cons] at hnodup
        exact hnodup.1 (halloc c hc hflag)
      rw [← hlevel]
      exact hr'.shape.disjoint hcmem hbmem hne
    · obtain ⟨c, hc, rfl⟩ := List.mem_map.mp (hlive.mem_iff.mp hp)
      exact ⟨c, List.mem_append_right _ hc, hr.alloc_flag c hc, rfl⟩

/-- A larger request does not. -/
theorem not_contract_of_lt {base : ℕ} {s : Session} (hs : Holds top base s) (hlarge : SIZE top < n)
    (hn : n < 2 ^ 64) : ¬ Contract s n := by
  obtain ⟨free, alloc, hr, -⟩ := hs
  rintro ⟨top', heads, lists, hstructure, hcontract⟩
  have hsize : SIZE top' = SIZE top := hstructure.info_total.symm.trans hr.info_total
  have hval := (hcontract _ (leastLevel_levelFor hn)).1 (Or.inl (hsize.trans_lt hlarge))
  rw [malloc_too_large hr hn hlarge] at hval
  exact absurd hval (by simp)

/-! ## Runs -/

/-- A call that returns keeps what a run keeps. -/
theorem Holds.step {base : ℕ} {s s' : Session} (hs : Holds top base s) {c : Call}
    (hc : FreesLive s c) (hstep : s.step c = some s') : Holds top base s' := by
  have hallowed : Allowed (SIZE top) s c := by
    cases c with
    | free ptr => exact hc
    | malloc size =>
      by_contra hlarge
      obtain ⟨free, alloc, hr, -⟩ := hs
      simp only [Session.step, malloc_too_large hr size.toNat_lt (Nat.not_le.mp hlarge),
        Option.map_none, reduceCtorEq] at hstep
  obtain ⟨t, hval, ht⟩ := step_holds hs hallowed
  obtain rfl := Option.some.inj (hval.symm.trans hstep)
  exact ht

/-- In every state that calls of `malloc` with any size and `free` with live pointers lead to, a
request meets the contract exactly if it is not larger than the region. -/
theorem buddy_malloc_contract (s₀ : State) (address size : UInt64) (calls : List Call) (s : Session)
    (haccepted : (initMemoryManager s₀ address.toNat size.toNat).2 = 0)
    (hlive : Throughout Session.step FreesLive
      ⟨(initMemoryManager s₀ address.toNat size.toNat).1, []⟩ calls)
    (hrun : run Session.step ⟨(initMemoryManager s₀ address.toNat size.toNat).1, []⟩ calls = some s)
    (n : UInt64) : Contract s n.toNat ↔ n ≤ size := by
  obtain ⟨top, hsize, hr, hbase⟩ := init_represents s₀ size.toNat_lt haccepted
  have hm : Merged top [⟨0, top⟩] := fun b hb c hc hlt => by
    obtain rfl := List.mem_singleton.mp hb
    exact absurd rfl hlt.ne
  have hstart : Holds top address.toNat ⟨(initMemoryManager s₀ address.toNat size.toNat).1, []⟩ :=
    ⟨[⟨0, top⟩], [], hr, hm, hbase, List.Perm.nil⟩
  have hs : Holds top address.toNat s :=
    run_preserves hstart hlive (fun s c s' hs hc hstep => hs.step hc hstep) hrun
  rw [UInt64.le_iff_toNat_le, hsize]
  constructor
  · intro hcontract
    by_contra hlarge
    exact not_contract_of_lt hs (Nat.not_le.mp hlarge) n.toNat_lt hcontract
  · exact fun hle => contract_of_le hs hle n.toNat_lt

/-- Two blocks handed out and the first given back, on a page at 1 MiB. -/
theorem buddy_malloc_contract_page :
    ∃ s, run Session.step ⟨(initMemoryManager boot 0x100000 0x1000).1, []⟩
        [.malloc 256, .malloc 1000, .free 0x100000] = some s ∧
      ∀ n : UInt64, Contract s n.toNat ↔ n ≤ 0x1000 := by
  have hsome : (run Session.step ⟨(initMemoryManager boot 0x100000 0x1000).1, []⟩
      [.malloc 256, .malloc 1000, .free 0x100000]).isSome := by decide +kernel
  obtain ⟨s, hrun⟩ := Option.isSome_iff_exists.mp hsome
  exact ⟨s, hrun, buddy_malloc_contract boot 0x100000 0x1000
    [.malloc 256, .malloc 1000, .free 0x100000] s (by decide) (by decide +kernel) hrun⟩

/-- On a region of 4 KiB the request of one byte more follows the null pointer. -/
theorem page_and_one_byte_fails :
    ¬ Contract ⟨(initMemoryManager boot 0x100000 0x1000).1, []⟩ 0x1001 := by
  have haccepted : (initMemoryManager boot 0x100000 0x1000).2 = 0 := by decide
  obtain ⟨top, hsize, hr, hbase⟩ := init_represents boot (by decide) haccepted
  refine not_contract_of_lt ⟨[⟨0, top⟩], [], hr, fun b hb c hc hlt => ?_, hbase, List.Perm.nil⟩
    (by omega) (by decide)
  obtain rfl := List.mem_singleton.mp hb
  exact absurd rfl hlt.ne

end TronKernel.Buddy
