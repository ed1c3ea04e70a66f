import TronKernel.Heap.Runs
import Mathlib.Algebra.BigOperators.Group.List.Basic
import Mathlib.Data.Nat.ModEq

/-!
# The order of `free` calls does not matter

The free list of a well-formed heap has gaps between its blocks, so it is determined by what the
live blocks leave of the region (`Wf.free_unique`), and the counters move with the two lists
(`Balanced`). So the heap after any calls of `free` depends only on which blocks are live then.

The counters move with the lists except in one call: on the region from 8 to `2 ^ 64` the sum in the
split test of `malloc` can wrap, and the header of a block that is never made is charged
(`WrapsSplit`).
-/

namespace TronKernel.FirstFit

open Mem Layout Runs Tiling

namespace Layout

variable {lo hi : ℕ} {L L' L₁ L₂ : Layout}

/-- The free list is what the live blocks leave of the region. -/
theorem Wf.free_unique (h : Wf lo hi L) (h' : Wf lo hi L') (halloc : L.alloc = L'.alloc) :
    L.free = L'.free := by
  refine eq_of_cover_eq Block.addr_lt_stop (fun a b haddr hstop => ?_) h.ordered h'.ordered
    fun p => ?_
  · obtain ⟨a, n⟩ := a
    obtain ⟨b, m⟩ := b
    simp only [Block.stop, Block.mk.injEq] at haddr hstop ⊢
    omega
  · have hL := h.tiles p
    have hL' := h'.tiles p
    rw [blocks, cover_append] at hL hL'
    rw [halloc] at hL
    omega

/-! ## The counters -/

/-- The payload bytes of some blocks. -/
def payload (bs : List Block) : ℕ := (bs.map Block.size).sum

@[simp] theorem payload_nil : payload [] = 0 := rfl

@[simp] theorem payload_cons (b : Block) (bs : List Block) :
    payload (b :: bs) = b.size + payload bs := rfl

@[simp] theorem payload_append (bs cs : List Block) :
    payload (bs ++ cs) = payload bs + payload cs := by
  simp [payload]

/-- The bytes that count as allocated: the live payloads and all headers. -/
def charged (L : Layout) : ℕ :=
  payload L.alloc + sizeofBlockData * (L.free.length + L.alloc.length)

/-- The counters have moved by as much as the lists say, modulo `2 ^ 64`. -/
structure Balanced (L L' : Layout) : Prop where
  allocated : L'.info.allocated + charged L ≡ L.info.allocated + charged L' [MOD 2 ^ 64]
  free : L'.info.free + payload L.free ≡ L.info.free + payload L'.free [MOD 2 ^ 64]
  total : L'.info.total = L.info.total

/-- The counters are `size_t` values. -/
def Reduced (info : MemoryInfo) : Prop := info.allocated < 2 ^ 64 ∧ info.free < 2 ^ 64

theorem Balanced.refl (L : Layout) : Balanced L L := ⟨Nat.ModEq.refl _, Nat.ModEq.refl _, rfl⟩

theorem Balanced.trans (h : Balanced L L₁) (h' : Balanced L₁ L₂) : Balanced L L₂ where
  allocated := by
    have h₁ := h.allocated
    have h₂ := h'.allocated
    simp only [Nat.ModEq] at *
    omega
  free := by
    have h₁ := h.free
    have h₂ := h'.free
    simp only [Nat.ModEq] at *
    omega
  total := h'.total.trans h.total

theorem Balanced.symm (h : Balanced L L') : Balanced L' L :=
  ⟨h.allocated.symm, h.free.symm, h.total.symm⟩

/-- `n` bytes are charged, `m` of which were payload of free blocks. -/
theorem Balanced.of_charge {n m : ℕ} (hcharged : charged L' = charged L + n)
    (hpayload : payload L.free = payload L'.free + m)
    (hallocated : L'.info.allocated ≡ L.info.allocated + n [MOD 2 ^ 64])
    (hfree : L'.info.free + m ≡ L.info.free [MOD 2 ^ 64])
    (htotal : L'.info.total = L.info.total) : Balanced L L' where
  allocated := by
    rw [hcharged]
    simp only [Nat.ModEq] at *
    omega
  free := by
    rw [hpayload]
    simp only [Nat.ModEq] at *
    omega
  total := htotal

/-- Where the lists are the same, so are the counters. -/
theorem Balanced.unique (h₁ : Balanced L L₁) (h₂ : Balanced L L₂) (hr₁ : Reduced L₁.info)
    (hr₂ : Reduced L₂.info) (hfree : L₁.free = L₂.free) (halloc : L₁.alloc = L₂.alloc) :
    L₁ = L₂ := by
  obtain ⟨f₁, a₁, ⟨ia₁, if₁, it₁⟩⟩ := L₁
  obtain ⟨f₂, a₂, ⟨ia₂, if₂, it₂⟩⟩ := L₂
  obtain rfl : f₁ = f₂ := hfree
  obtain rfl : a₁ = a₂ := halloc
  have ha := h₁.allocated.trans h₂.allocated.symm
  have hf := h₁.free.trans h₂.free.symm
  have ht := h₁.total.trans h₂.total.symm
  simp only [Reduced, Nat.ModEq] at hr₁ hr₂ ha hf ht
  obtain rfl : ia₁ = ia₂ := by omega
  obtain rfl : if₁ = if₂ := by omega
  rw [ht]

/-! ## `free` -/

theorem payload_joinNext (b : Block) (l : List Block) :
    payload (joinNext b l) + sizeofBlockData * (joinNext b l).length =
      payload (b :: l) + sizeofBlockData * (b :: l).length := by
  cases l with
  | nil => rfl
  | cons n ns =>
    by_cases h : b.stop = n.addr
    · simp only [joinNext, if_pos h, payload_cons, List.length_cons, sizeofBlockData]
      omega
    · simp only [joinNext, if_neg h]

theorem payload_joinPrev (before bs : List Block) :
    payload (joinPrev before bs) + sizeofBlockData * (joinPrev before bs).length =
      payload (before ++ bs) + sizeofBlockData * (before ++ bs).length := by
  cases bs with
  | nil => simp [joinPrev]
  | cons b bs =>
    rcases List.eq_nil_or_concat before with rfl | ⟨before, q, rfl⟩
    · simp [joinPrev]
    · simp only [joinPrev, List.concat_eq_append, List.getLast?_concat, List.dropLast_concat]
      split_ifs with h
      · simp only [payload_append, payload_cons, payload_nil, List.length_append, List.length_cons,
          List.length_nil, sizeofBlockData]
        omega
      · rfl

/-- Each merge turns a header into payload. -/
theorem payload_insertFree (b : Block) (l : List Block) :
    payload (insertFree b l) + sizeofBlockData * (insertFree b l).length =
      payload l + b.size + sizeofBlockData * (l.length + 1) := by
  have hprev := payload_joinPrev (l.takeWhile fun c => c.addr < b.addr)
    (joinNext b (l.dropWhile fun c => c.addr < b.addr))
  have hnext := payload_joinNext b (l.dropWhile fun c => c.addr < b.addr)
  have hl : payload l = payload (l.takeWhile fun c => c.addr < b.addr) +
      payload (l.dropWhile fun c => c.addr < b.addr) := by
    rw [← payload_append, List.takeWhile_append_dropWhile]
  have hlen : l.length = (l.takeWhile fun c => c.addr < b.addr).length +
      (l.dropWhile fun c => c.addr < b.addr).length := by
    rw [← List.length_append, List.takeWhile_append_dropWhile]
  simp only [payload_append, payload_cons, List.length_append, List.length_cons, sizeofBlockData,
    insertFree] at *
  omega

theorem length_insertFree_le (b : Block) (l : List Block) :
    (insertFree b l).length ≤ l.length + 1 := by
  have hnext : ∀ m : List Block, (joinNext b m).length ≤ m.length + 1 := fun m => by
    cases m with
    | nil => exact Nat.le_refl _
    | cons n ns =>
      simp only [joinNext]
      split_ifs <;> simp
  have hprev : ∀ before bs : List Block, (joinPrev before bs).length ≤ before.length + bs.length :=
    fun before bs => by
      cases bs with
      | nil => simp [joinPrev]
      | cons c cs =>
        rcases List.eq_nil_or_concat before with rfl | ⟨before, q, rfl⟩
        · simp [joinPrev]
        simp only [joinPrev, List.concat_eq_append, List.getLast?_concat, List.dropLast_concat]
        split_ifs
        · simp
        · simp
          omega
  have hlen : l.length = (l.takeWhile fun c => c.addr < b.addr).length +
      (l.dropWhile fun c => c.addr < b.addr).length := by
    rw [← List.length_append, List.takeWhile_append_dropWhile]
  have := hprev (l.takeWhile fun c => c.addr < b.addr)
    (joinNext b (l.dropWhile fun c => c.addr < b.addr))
  have := hnext (l.dropWhile fun c => c.addr < b.addr)
  rw [insertFree]
  omega

theorem wsub_lt (x y : ℕ) : wsub x y < 2 ^ 64 := Nat.mod_lt _ (Nat.two_pow_pos 64)

theorem wadd_lt (x y : ℕ) : wadd x y < 2 ^ 64 := Nat.mod_lt _ (Nat.two_pow_pos 64)

theorem wsub_modEq {x y z n : ℕ} (h : x + n ≡ y [MOD 2 ^ 64]) :
    wsub x z + (n + z) ≡ y [MOD 2 ^ 64] := by
  simp only [Nat.ModEq, wsub] at *
  omega

theorem wadd_modEq {x y z n : ℕ} (h : x ≡ y + n [MOD 2 ^ 64]) :
    wadd x z ≡ y + (n + z) [MOD 2 ^ 64] := by
  simp only [Nat.ModEq, wadd] at *
  omega

/-! The counters after `k` merges. -/

theorem refundHeader_allocated (info : MemoryInfo) (k : ℕ) :
    (refundHeader^[k] info).allocated + sizeofBlockData * k ≡ info.allocated [MOD 2 ^ 64] := by
  induction k with
  | zero => exact Nat.ModEq.refl _
  | succ k ih =>
    rw [Function.iterate_succ_apply', Nat.mul_succ]
    exact wsub_modEq ih

theorem refundHeader_free (info : MemoryInfo) (k : ℕ) :
    (refundHeader^[k] info).free ≡ info.free + sizeofBlockData * k [MOD 2 ^ 64] := by
  induction k with
  | zero => exact Nat.ModEq.refl _
  | succ k ih =>
    rw [Function.iterate_succ_apply', Nat.mul_succ]
    exact wadd_modEq ih

theorem reduced_refundHeader (info : MemoryInfo) : Reduced (refundHeader info) := by
  have hallocated : (refundHeader info).allocated = wsub info.allocated sizeofBlockData := rfl
  have hfree : (refundHeader info).free = wadd info.free sizeofBlockData := rfl
  rw [Reduced, hallocated, hfree]
  exact ⟨wsub_lt .., wadd_lt ..⟩

theorem refundHeader_total (info : MemoryInfo) : (refundHeader info).total = info.total := by
  rw [refundHeader]

theorem refundHeader_reduced {info : MemoryInfo} (h : Reduced info) (k : ℕ) :
    Reduced (refundHeader^[k] info) ∧ (refundHeader^[k] info).total = info.total := by
  induction k with
  | zero => exact ⟨h, rfl⟩
  | succ k ih =>
    rw [Function.iterate_succ_apply']
    exact ⟨reduced_refundHeader _, (refundHeader_total _).trans ih.2⟩

/-- What a block and the headers merged with it add to the free payload is no longer charged. -/
theorem uncharged_release {b : Block} (hb : b ∈ L.alloc) (info : MemoryInfo) :
    let n := b.size + sizeofBlockData * (L.free.length + 1 - (insertFree b L.free).length)
    payload (insertFree b L.free) = payload L.free + n ∧
      charged L = charged ⟨insertFree b L.free, L.alloc.erase b, info⟩ + n := by
  intro n
  have hle := length_insertFree_le b L.free
  have hpay := payload_insertFree b L.free
  have halloc : payload L.alloc = b.size + payload (L.alloc.erase b) := by
    rw [payload, ((List.perm_cons_erase hb).map Block.size).sum_eq]
    rfl
  have hlen := (List.perm_cons_erase hb).length_eq
  rw [List.length_cons] at hlen
  simp only [n, charged, sizeofBlockData] at *
  omega

theorem balanced_release (hr : Reduced L.info) (ptr : ℕ) :
    Balanced L (release L ptr) ∧ Reduced (release L ptr).info := by
  rcases release_cases L ptr with ⟨-, hval⟩ | ⟨b, hb, -, hval⟩
  · rw [hval]
    exact ⟨Balanced.refl L, hr⟩
  rw [hval]
  set info : MemoryInfo :=
    { L.info with
      allocated := wsub L.info.allocated b.size
      free := wadd L.info.free b.size } with hinfo
  have hr' : Reduced info := ⟨wsub_lt .., wadd_lt ..⟩
  set merges := L.free.length + 1 - (insertFree b L.free).length with hmerges
  have ha := refundHeader_allocated info merges
  have hf := refundHeader_free info merges
  obtain ⟨hreduced, ht⟩ := refundHeader_reduced hr' merges
  obtain ⟨hpayload, hcharged⟩ := uncharged_release hb (refundHeader^[merges] info)
  have hwsub : info.allocated + b.size ≡ L.info.allocated [MOD 2 ^ 64] :=
    Nat.zero_add b.size ▸ wsub_modEq (Nat.ModEq.refl L.info.allocated)
  have hwadd : info.free ≡ L.info.free + b.size [MOD 2 ^ 64] :=
    Nat.zero_add b.size ▸ wadd_modEq (Nat.ModEq.refl L.info.free)
  -- read backwards, the block and the merged headers are charged
  refine ⟨(Balanced.of_charge (n := b.size + sizeofBlockData * merges)
    (m := b.size + sizeofBlockData * merges) hcharged hpayload ?_ ?_ ht.symm).symm, hreduced⟩
  · change L.info.allocated ≡ (refundHeader^[merges] info).allocated + _ [MOD 2 ^ 64]
    simp only [Nat.ModEq, sizeofBlockData] at *
    omega
  · change L.info.free + _ ≡ (refundHeader^[merges] info).free [MOD 2 ^ 64]
    simp only [Nat.ModEq, sizeofBlockData] at *
    omega

/-! ## `malloc` -/

theorem reduced_malloc (h : Wf lo hi L) (hr : Reduced L.info) (n : ℕ) :
    Reduced (malloc L n).1.info := by
  have hcharge : ∀ isSplit taken, Reduced (chargeBlock L.info isSplit taken) :=
    fun isSplit taken => by
    cases isSplit <;> exact ⟨wadd_lt _ _, wsub_lt _ _⟩
  rcases malloc_cases h n with
    ⟨-, hval⟩ | ⟨before, b, after, -, -, -, -, ⟨-, hval⟩ | ⟨-, -, hval⟩⟩
  · rw [hval]
    exact hr
  · rw [hval]
    exact hcharge _ _
  · rw [hval]
    exact hcharge _ _

/-- The counters follow `malloc`, but for the request whose split test wraps. -/
theorem balanced_malloc (h : Wf lo hi L) {n : ℕ}
    (hn : alignSize n = 2 ^ 64 - 24 → ∀ b ∈ L.free, b.size ≠ 2 ^ 64 - 24) :
    Balanced L (malloc L n).1 := by
  rcases malloc_cases h n with
    ⟨-, hval⟩ | ⟨before, b, after, -, hfree, -, -, ⟨hroom, hval⟩ | ⟨-, hsplits, hval⟩⟩
  · rw [hval]
    exact Balanced.refl L
  · -- a header and the payload are charged, and both were payload
    have ha := wadd_modEq (z := alignSize n) (wadd_modEq (z := sizeofBlockData)
      (Nat.ModEq.refl (L.info.allocated + 0)))
    have hf := wsub_modEq (z := alignSize n) (wsub_modEq (z := sizeofBlockData)
      (Nat.ModEq.refl (L.info.free + 0)))
    rw [hval]
    refine Balanced.of_charge ?_ ?_ ha hf rfl
    · simp only [charged, hfree, payload_cons, List.length_append, List.length_cons,
        sizeofBlockData]
      omega
    · simp only [hfree, payload_append, payload_cons, rest, sizeofBlockData]
      omega
  · -- the split test holds only where it wraps
    have hwhole : ¬ splits b (alignSize n) := fun hs => by
      obtain ⟨hsize, hstop, haddr⟩ := hsplits hs
      have hb : b.size = 2 ^ 64 - 24 := by
        rw [Block.stop, sizeofBlockData] at hstop
        omega
      exact hn (hsize.trans hb) b (by simp [hfree]) hb
    have ha := wadd_modEq (z := b.size) (Nat.ModEq.refl (L.info.allocated + 0))
    have hf := wsub_modEq (z := b.size) (Nat.ModEq.refl (L.info.free + 0))
    rw [hval, decide_eq_false hwhole]
    refine Balanced.of_charge ?_ ?_ ha hf rfl
    · simp only [charged, hfree, payload_cons, List.length_append, List.length_cons,
        sizeofBlockData]
      omega
    · simp only [hfree, payload_append, payload_cons]
      omega

/-! ## The live blocks -/

theorem alloc_release (h : Wf lo hi L) (ptr : ℕ) :
    (release L ptr).alloc = L.alloc.filter fun b => b.addr ≠ wsub ptr 16 := by
  have hnodup : L.alloc.Nodup :=
    (List.nodup_append.mp (h.tiles.nodup fun b _ => b.addr_lt_stop)).2.1
  rcases release_cases L ptr with ⟨hnone, hval⟩ | ⟨b, hb, haddr, hval⟩
  · rw [hval, List.filter_eq_self.mpr]
    simpa using hnone
  · rw [hval, hnodup.erase_eq_filter]
    refine List.filter_congr fun c hc => ?_
    have heq : c.addr = b.addr ↔ c = b := ⟨h.alloc_addr_inj hc hb, congrArg _⟩
    by_cases hcb : c = b
    · simp [hcb, haddr]
    · simp [hcb, ← haddr, heq]

/-- After some calls of `free` the live blocks are those at none of the pointers. -/
theorem foldl_release (h : Wf lo hi L) (hr : Reduced L.info) (ptrs : List ℕ) :
    Wf lo hi (ptrs.foldl release L) ∧ Balanced L (ptrs.foldl release L) ∧
      Reduced (ptrs.foldl release L).info ∧
      (ptrs.foldl release L).alloc = L.alloc.filter fun b => ∀ p ∈ ptrs, b.addr ≠ wsub p 16 := by
  induction ptrs generalizing L with
  | nil => exact ⟨h, Balanced.refl L, hr, by simp⟩
  | cons p ptrs ih =>
    obtain ⟨hbalanced, hreduced⟩ := balanced_release hr p
    obtain ⟨hwf, hbalanced', hreduced', halloc⟩ := ih (wf_release h p) hreduced
    refine ⟨hwf, hbalanced.trans hbalanced', hreduced', ?_⟩
    rw [List.foldl_cons, halloc, alloc_release h, List.filter_filter]
    refine List.filter_congr fun b _ => ?_
    simp [Bool.and_comm]

end Layout

variable {lo hi : ℕ} {h : Heap} {L L' : Layout}

theorem Represents.unique (hr : Represents h L) (hr' : Represents h L') : L = L' := by
  obtain ⟨f, a, i⟩ := L
  obtain ⟨f', a', i'⟩ := L'
  obtain rfl : f = f' := hr.free.unique hr'.free
  obtain rfl : a = a' := hr.alloc.unique hr'.alloc
  obtain rfl : i = i' := hr.info.symm.trans hr'.info
  rfl

/-- The call asks `malloc` for all payload bytes of a free block that ends with the address space:
`size + sizeof(BlockData) + sizeof(size_t)` wraps, and a block is split where there is no room. -/
def WrapsSplit (h : Heap) : Call → Prop
  | .malloc size => alignSize size.toNat = 2 ^ 64 - 24 ∧ h.freeList ≠ 0 ∧
      blockSize h.mem h.freeList = 2 ^ 64 - 24
  | .free _ => False

instance (h : Heap) : (c : Call) → Decidable (WrapsSplit h c)
  | .malloc size => inferInstanceAs (Decidable (alignSize size.toNat = 2 ^ 64 - 24 ∧
      h.freeList ≠ 0 ∧ blockSize h.mem h.freeList = 2 ^ 64 - 24))
  | .free _ => inferInstanceAs (Decidable False)

/-- A free block of that size is the only one. -/
theorem Represents.wrapsSplit (hr : Represents h L) (hwf : Wf lo hi L) {b : Block} (hb : b ∈ L.free)
    (hsize : b.size = 2 ^ 64 - 24) : h.freeList ≠ 0 ∧ blockSize h.mem h.freeList = 2 ^ 64 - 24 := by
  have hmem : b ∈ L.blocks := List.mem_append_left _ hb
  have hstop := (hwf.within hmem).2
  have hhi := hwf.hi_le
  simp only [Block.stop, sizeofBlockData] at hstop
  obtain ⟨before, after, hfree⟩ := List.append_of_mem hb
  cases before with
  | nil =>
    have hlist := hr.free
    rw [hfree, List.nil_append, blockList_cons] at hlist
    obtain ⟨haddr, hne, hblock, -⟩ := hlist
    rw [haddr]
    exact ⟨hne, hblock.trans hsize⟩
  | cons c before =>
    -- a block below it would begin below 8
    have hc := hwf.eight_le (b := c) (by simp [blocks, hfree])
    have hord := hwf.ordered
    rw [hfree, List.cons_append, List.pairwise_cons] at hord
    have hcb := hord.1 b (by simp)
    have := c.addr_lt_stop
    omega

/-- One call: the counters stay `size_t` values, and they follow the lists but for that one
request. -/
theorem stepCall_balanced {s : Heap × List ℕ} (hr : Represents s.1 L) (hwf : Wf lo hi L)
    (hreduced : Reduced L.info) (c : Call) :
    ∃ s', stepCall s c = some s' ∧ Represents s'.1 (c.edit L).1 ∧ Wf lo hi (c.edit L).1 ∧
      Reduced (c.edit L).1.info ∧ (¬ WrapsSplit s.1 c → Balanced L (c.edit L).1) := by
  obtain ⟨h', hval, hr', hwf', -⟩ := exec_refines hr hwf c
  refine ⟨_, by simp only [stepCall, hval]; rfl, hr', hwf', ?_⟩
  cases c with
  | malloc size =>
    refine ⟨reduced_malloc hwf hreduced _,
      fun hwraps => balanced_malloc hwf fun hn b hb hsize => ?_⟩
    exact hwraps ⟨hn, hr.wrapsSplit hwf hb hsize⟩
  | free ptr =>
    obtain ⟨hbalanced, hreduced'⟩ := balanced_release hreduced ptr.toNat
    exact ⟨hreduced', fun _ => hbalanced⟩

/-! ## Runs -/

/-- What any run keeps. -/
def Counted (lo hi : ℕ) (s : Heap × List ℕ) : Prop :=
  ∃ L, Represents s.1 L ∧ Wf lo hi L ∧ Reduced L.info

theorem Counted.step {s : Heap × List ℕ} (hs : Counted lo hi s) (c : Call) :
    ∃ s', stepCall s c = some s' ∧ Counted lo hi s' := by
  obtain ⟨L, hr, hwf, hreduced⟩ := hs
  obtain ⟨s', hval, hr', hwf', hreduced', -⟩ := stepCall_balanced hr hwf hreduced c
  exact ⟨s', hval, _, hr', hwf', hreduced'⟩

/-- What a run keeps in which no split test wraps: the counters have followed the lists. -/
def Follows (lo hi : ℕ) (L₀ : Layout) (s : Heap × List ℕ) : Prop :=
  ∃ L, Represents s.1 L ∧ Wf lo hi L ∧ Reduced L.info ∧ Balanced L₀ L

theorem Follows.step {L₀ : Layout} {s s' : Heap × List ℕ} {c : Call} (hs : Follows lo hi L₀ s)
    (hc : ¬ WrapsSplit s.1 c) (hstep : stepCall s c = some s') : Follows lo hi L₀ s' := by
  obtain ⟨L, hr, hwf, hreduced, hbalanced⟩ := hs
  obtain ⟨t, hval, hr', hwf', hreduced', hb⟩ := stepCall_balanced hr hwf hreduced c
  obtain rfl := Option.some.inj (hstep.symm.trans hval)
  exact ⟨_, hr', hwf', hreduced', hbalanced.trans (hb hc)⟩

/-- Calls of `free` compute the calls on the lists. -/
theorem run_frees (hr : Represents h L) (hwf : Wf lo hi L) (ptrs : List ℕ) (S : List UInt64) :
    ∃ h', run stepCall (h, ptrs) (S.map Call.free) = some (h', ptrs) ∧
      Represents h' ((S.map UInt64.toNat).foldl release L) := by
  induction S generalizing h L with
  | nil => exact ⟨h, rfl, hr⟩
  | cons p S ih =>
    obtain ⟨h₁, hval, hr₁, hwf₁, -⟩ := exec_refines hr hwf (.free p)
    obtain ⟨h', hrun, hr'⟩ := ih hr₁ hwf₁
    refine ⟨h', ?_, hr'⟩
    rw [List.map_cons, run_cons, stepCall, hval]
    simpa [Call.edit] using hrun

/-- The two heaps have the same free list, the same live blocks and the same counters. -/
def SameHeap (h h' : Heap) : Prop :=
  ∃ free alloc, BlockList h.mem h.freeList free ∧ BlockList h.mem h.allocList alloc ∧
    BlockList h'.mem h'.freeList free ∧ BlockList h'.mem h'.allocList alloc ∧
    h.memoryInfo = h'.memoryInfo

theorem Represents.sameHeap {h' : Heap} (hr : Represents h L) (hr' : Represents h' L) :
    SameHeap h h' :=
  ⟨L.free, L.alloc, hr.free, hr.alloc, hr'.free, hr'.alloc, hr.info.trans hr'.info.symm⟩

/-- The pointer is that of a live block. -/
def LivePointer (h : Heap) (p : ℕ) : Prop :=
  ∃ alloc, BlockList h.mem h.allocList alloc ∧ ∃ b ∈ alloc, p = wadd b.addr sizeofBlockData

/-- The counters are `size_t` values after initialisation. -/
theorem init_reduced (m : Mem) {address size : ℕ} :
    Reduced (initMemoryManager (boot m) address size).1.memoryInfo := by
  simp only [initMemoryManager]
  split_ifs
  · exact ⟨Nat.two_pow_pos 64, Nat.two_pow_pos 64⟩
  · exact ⟨Nat.two_pow_pos 64, Nat.two_pow_pos 64⟩
  · exact ⟨Nat.two_pow_pos 64, Nat.two_pow_pos 64⟩
  · exact ⟨show sizeofBlockData < 2 ^ 64 by decide, wsub_lt _ _⟩

/-- After any calls, freeing some blocks in one order or another ends in the same heap. Freeing all
live blocks ends in the heap right after `initMemoryManager`, if in no call before the sum in the
split test wrapped. -/
theorem free_order_independent (m : Mem) (address size : UInt64) (calls : List Call)
    (hend : address.toNat + size.toNat ≤ 2 ^ 64) :
    ∃ h ptrs,
      run stepCall ((initMemoryManager (boot m) address.toNat size.toNat).1, []) calls =
        some (h, ptrs) ∧
      (∀ S S' : List UInt64, (∀ p, p ∈ S ↔ p ∈ S') →
        ∃ h₁ h₂, run stepCall (h, ptrs) (S.map Call.free) = some (h₁, ptrs) ∧
          run stepCall (h, ptrs) (S'.map Call.free) = some (h₂, ptrs) ∧ SameHeap h₁ h₂) ∧
      (Throughout stepCall (fun s c => ¬ WrapsSplit s.1 c)
          ((initMemoryManager (boot m) address.toNat size.toNat).1, []) calls →
        ∀ S : List UInt64, (∀ p : UInt64, LivePointer h p.toNat → p ∈ S) →
          ∃ h', run stepCall (h, ptrs) (S.map Call.free) = some (h', ptrs) ∧
            SameHeap h' (initMemoryManager (boot m) address.toNat size.toNat).1) := by
  obtain ⟨lo, hi, L₀, hr₀, hwf₀, halloc₀, -⟩ := init_represents m hend
  have hreduced₀ : Reduced L₀.info := hr₀.info ▸ init_reduced m
  set start := (initMemoryManager (boot m) address.toNat size.toNat).1
  obtain ⟨⟨h, ptrs⟩, hrun, hcounted⟩ := run_total (P := fun _ _ => True)
    (show Counted lo hi (start, []) from ⟨L₀, hr₀, hwf₀, hreduced₀⟩)
    (throughout_of_forall fun _ _ => trivial) fun s c hs _ => hs.step c
  obtain ⟨L, hr, hwf, hreduced⟩ := hcounted
  refine ⟨h, ptrs, hrun, fun S S' hS => ?_, fun hcareful S hall => ?_⟩
  · obtain ⟨h₁, hrun₁, hr₁⟩ := run_frees hr hwf ptrs S
    obtain ⟨h₂, hrun₂, hr₂⟩ := run_frees hr hwf ptrs S'
    obtain ⟨hwf₁, hb₁, hred₁, halloc₁⟩ := foldl_release hwf hreduced (S.map UInt64.toNat)
    obtain ⟨hwf₂, hb₂, hred₂, halloc₂⟩ := foldl_release hwf hreduced (S'.map UInt64.toNat)
    have halloc := halloc₁.trans (Eq.trans (by simp only [List.forall_mem_map, hS]) halloc₂.symm)
    have hsame := hb₁.unique hb₂ hred₁ hred₂ (hwf₁.free_unique hwf₂ halloc) halloc
    exact ⟨h₁, h₂, hrun₁, hrun₂, (hsame ▸ hr₁).sameHeap hr₂⟩
  · obtain ⟨h', hrun', hr'⟩ := run_frees hr hwf ptrs S
    obtain ⟨hwf', hb', hred', halloc'⟩ := foldl_release hwf hreduced (S.map UInt64.toNat)
    refine ⟨h', hrun', ?_⟩
    obtain ⟨L₁, hr₁, -, -, hb₁⟩ := run_preserves
      (show Follows lo hi L₀ (start, []) from ⟨L₀, hr₀, hwf₀, hreduced₀, Balanced.refl L₀⟩) hcareful
      (fun s c s' hs hc hstep => hs.step hc hstep) hrun
    obtain rfl := hr₁.unique hr
    have halloc : ((S.map UInt64.toNat).foldl release L₁).alloc = L₀.alloc := by
      rw [halloc', halloc₀, List.filter_eq_nil_iff]
      intro b hb hout
      have hb' : b.addr < 2 ^ 64 := by
        have := (hwf.within (List.mem_append_right _ hb)).2
        have := b.addr_lt_stop
        have := hwf.hi_le
        omega
      have hlt := UInt64.toNat_ofNat_of_lt' (wadd_lt b.addr sizeofBlockData)
      have hlive : LivePointer h (UInt64.ofNat (wadd b.addr sizeofBlockData)).toNat :=
        ⟨_, hr.alloc, b, hb, hlt⟩
      refine of_decide_eq_true hout _ (List.mem_map_of_mem (hall _ hlive)) ?_
      rw [hlt]
      simp only [wsub, wadd, sizeofBlockData]
      omega
    have hsame := (hb₁.trans hb').unique (Balanced.refl L₀) hred' hreduced₀
      (hwf'.free_unique hwf₀ halloc) halloc
    exact (hsame ▸ hr').sameHeap hr₀

/-- Three blocks handed out on a page at 6 MiB, and given back in any order. -/
theorem free_order_independent_page :
    ∃ h ptrs,
      run stepCall ((initMemoryManager (boot fun _ => 0) 0x600000 0x1000).1, [])
        [.malloc 100, .malloc 8, .malloc 24] = some (h, ptrs) ∧
      (∀ S S' : List UInt64, (∀ p, p ∈ S ↔ p ∈ S') →
        ∃ h₁ h₂, run stepCall (h, ptrs) (S.map Call.free) = some (h₁, ptrs) ∧
          run stepCall (h, ptrs) (S'.map Call.free) = some (h₂, ptrs) ∧ SameHeap h₁ h₂) ∧
      ∀ S : List UInt64, (∀ p : UInt64, LivePointer h p.toNat → p ∈ S) →
        ∃ h', run stepCall (h, ptrs) (S.map Call.free) = some (h', ptrs) ∧
          SameHeap h' (initMemoryManager (boot fun _ => 0) 0x600000 0x1000).1 := by
  obtain ⟨h, ptrs, hrun, horder, hall⟩ := free_order_independent (fun _ => 0) 0x600000 0x1000
    [.malloc 100, .malloc 8, .malloc 24] (by decide)
  exact ⟨h, ptrs, hrun, horder, hall (by decide +kernel)⟩

/-- The region from 8 to `2 ^ 64`: a block of all its bytes, handed out and given back, leaves 16
bytes more on the counter of allocated bytes. -/
theorem whole_region_overcharged :
    ¬ ∀ (m : Mem) (address size : UInt64) (calls : List Call) (h h' : Heap) (ptrs : List ℕ)
        (S : List UInt64),
      (initMemoryManager (boot m) address.toNat size.toNat).2 = 0 →
      address.toNat + size.toNat ≤ 2 ^ 64 →
      run stepCall ((initMemoryManager (boot m) address.toNat size.toNat).1, []) calls =
        some (h, ptrs) →
      (∀ p : UInt64, LivePointer h p.toNat ↔ p ∈ S) →
      run stepCall (h, ptrs) (S.map Call.free) = some (h', ptrs) →
      SameHeap h' (initMemoryManager (boot m) address.toNat size.toNat).1 := by
  intro hall
  set start := (initMemoryManager (boot fun _ => 0) (8 : UInt64).toNat
    (0xfffffffffffffff8 : UInt64).toNat).1 with hstart
  have hrun : ((run stepCall (start, []) [.malloc 0xffffffffffffffe8]).map fun s =>
      (s.1.allocList, blockSize s.1.mem 8, blockNext s.1.mem 8, s.2)) =
        some (8, 0xffffffffffffffe8, 0, [24]) := by
    decide +kernel
  have hfree : ((run stepCall (start, []) [.malloc 0xffffffffffffffe8, .free 24]).map fun s =>
      (s.2, s.1.memoryInfo.allocated)) = some ([24], 32) := by
    decide +kernel
  obtain ⟨⟨h, ptrs⟩, hrun, hvals⟩ := Option.map_eq_some_iff.mp hrun
  simp only [Prod.mk.injEq] at hvals
  obtain ⟨hlist, hsize, hnext, rfl⟩ := hvals
  obtain ⟨⟨h', ptrs'⟩, hfree, hcounts⟩ := Option.map_eq_some_iff.mp hfree
  simp only [Prod.mk.injEq] at hcounts
  obtain ⟨rfl, hallocated⟩ := hcounts
  have halloc : BlockList h.mem h.allocList [⟨8, 0xffffffffffffffe8⟩] :=
    blockList_cons.mpr ⟨hlist, by decide, hsize, blockList_nil.mpr hnext⟩
  have hlive : ∀ p : UInt64, LivePointer h p.toNat ↔ p ∈ ([24] : List UInt64) := fun p => by
    rw [List.mem_singleton, ← UInt64.toNat_inj]
    constructor
    · rintro ⟨alloc, hbs, b, hb, hp⟩
      obtain rfl := hbs.unique halloc
      obtain rfl := List.mem_singleton.mp hb
      exact hp
    · exact fun hp => ⟨_, halloc, _, List.mem_singleton_self _, hp⟩
  rw [show [Call.malloc 0xffffffffffffffe8, Call.free 24] =
    [Call.malloc 0xffffffffffffffe8] ++ [24].map Call.free from rfl, run_append, hrun] at hfree
  obtain ⟨free, alloc, -, -, -, -, hinfo⟩ := hall (fun _ => 0) 8 0xfffffffffffffff8
    [.malloc 0xffffffffffffffe8] h h' [24] [24] (by decide) (by decide) hrun hlive hfree
  rw [hinfo] at hallocated
  exact absurd hallocated (by decide)

end TronKernel.FirstFit
