import TronKernel.Heap.Runs

/-!
# What a call of `malloc` hands out

`Contract` says for one heap and one request which block is handed out and what happens to the
others, with the request rounded up exactly. `malloc` rounds on 64 bits: a request above
`2 ^ 64 - 8` rounds to 0 there, and the first free block is taken for it although no block is large
enough (`huge_request_handed_out`). Every other request meets the contract on every heap, and a huge
one meets it exactly if there is no free block (`malloc_contract`).
-/

namespace TronKernel.FirstFit

open Mem Layout Runs

/-- A size rounded up to a multiple of `sizeof(size_t)`. -/
def roundUp (n : ℕ) : ℕ := (n + 7) / sizeofSizeT * sizeofSizeT

/-- `malloc(n)` hands out the front of the free block `b`, or all of it: the block `taken`, and what
is left of `b` takes its place in the free list. -/
def HandsOut (h : Heap) (n : ℕ) (free alloc : List Block) (b : Block) : Prop :=
  ∃ h' before after taken, ∃ left : Option Block,
    malloc h n = some (h', b.addr + sizeofBlockData) ∧ 8 ∣ b.addr + sizeofBlockData ∧
      taken.addr = b.addr ∧ n ≤ taken.size ∧ taken.size < roundUp n + 24 ∧
      free = before ++ b :: after ∧
      BlockList h'.mem h'.freeList (before ++ left.toList ++ after) ∧
      BlockList h'.mem h'.allocList (taken :: alloc) ∧
      (left = none → taken = b) ∧ ∀ r ∈ left, r.addr = taken.stop ∧ r.stop = b.stop

/-- The contract of `malloc(n)`. Without a free block of the rounded size it returns null and
changes nothing, otherwise it hands out of the lowest one. -/
def Contract (h : Heap) (n : ℕ) : Prop :=
  ∃ free alloc, BlockList h.mem h.freeList free ∧ BlockList h.mem h.allocList alloc ∧
    ((∀ b ∈ free, b.size < roundUp n) → malloc h n = some (h, 0)) ∧
    ∀ b ∈ free, roundUp n ≤ b.size → (∀ c ∈ free, roundUp n ≤ c.size → b.addr ≤ c.addr) →
      HandsOut h n free alloc b

/-! ## Rounding -/

theorem le_roundUp (n : ℕ) : n ≤ roundUp n := by
  simp only [roundUp, sizeofSizeT]
  omega

/-- The code rounds exactly as long as the result is a `size_t`. -/
theorem alignSize_eq {n : ℕ} (h : n ≤ 2 ^ 64 - 8) : alignSize n = roundUp n := by
  simp only [alignSize, roundUp, wadd, sizeofSizeT]
  split_ifs <;> omega

theorem alignSize_huge {n : ℕ} (h : 2 ^ 64 - 8 < n) (hlt : n < 2 ^ 64) : alignSize n = 0 := by
  simp only [alignSize, wadd, sizeofSizeT]
  split_ifs <;> omega

theorem roundUp_huge {n : ℕ} (h : 2 ^ 64 - 8 < n) : 2 ^ 64 ≤ roundUp n := by
  simp only [roundUp, sizeofSizeT]
  omega

/-! ## One call -/

variable {lo hi n : ℕ} {h : Heap} {L : Layout}

/-- A block in the free list is found by its address. -/
theorem Layout.Wf.free_addr_inj (hwf : Wf lo hi L) {a b : Block} (ha : a ∈ L.free) (hb : b ∈ L.free)
    (heq : a.addr = b.addr) : a = b := by
  by_contra hne
  exact (hwf.apart.forall (List.mem_append_left _ ha) (List.mem_append_left _ hb) hne).addr_ne heq

/-- Blocks are handed out with a pointer that does not wrap. -/
theorem Layout.Wf.wadd_addr (hwf : Wf lo hi L) {b : Block} (hb : b ∈ L.free) (hpos : 0 < b.size) :
    wadd b.addr 16 = b.addr + 16 ∧ 8 ∣ b.addr + 16 := by
  have hmem : b ∈ L.blocks := List.mem_append_left _ hb
  have hstop := (hwf.within hmem).2
  have hhi := hwf.hi_le
  have hdvd := hwf.addr_aligned b hmem
  simp only [Block.stop, sizeofBlockData] at hstop
  exact ⟨wadd_of_lt (by omega), by omega⟩

/-- A request that can be rounded meets the contract. -/
theorem contract_of_le (hr : Represents h L) (hwf : Wf lo hi L) (hn : n ≠ 0)
    (hle : n ≤ 2 ^ 64 - 8) : Contract h n := by
  obtain ⟨h', hval, hr', -⟩ := malloc_refines hr hwf (n := n)
  have hround := alignSize_eq hle
  have hnr := le_roundUp n
  refine ⟨L.free, L.alloc, hr.free, hr.alloc, fun hsmall => ?_, fun b hb hfit hlowest => ?_⟩
  · exact malloc_none hr hwf (hround.symm ▸ hsmall)
  rcases malloc_cases hwf n with ⟨hnone, -⟩ | ⟨before, c, after, -, hfree, hbefore, hc, hcase⟩
  · rcases hnone with h0 | hnone
    · exact absurd h0 hn
    · exact absurd (hnone b hb) (by rw [hround]; omega)
  rw [hround] at hbefore hc hcase
  have hcmem : c ∈ L.free := by simp [hfree]
  -- the first block that is large enough is the lowest one, for the list rises
  obtain rfl : b = c := by
    refine hwf.free_addr_inj hb hcmem (Nat.le_antisymm (hlowest c hcmem hc) ?_)
    have hord := hwf.ordered
    rw [hfree] at hb hord
    rcases List.mem_append.mp hb with hb | hb
    · exact absurd (hbefore b hb) (by omega)
    · rcases List.mem_cons.mp hb with rfl | hb
      · exact le_rfl
      · have := (List.pairwise_cons.mp (List.pairwise_append.mp hord).2.1).1 b hb
        have := c.addr_lt_stop
        omega
  obtain ⟨haddr, hdvd⟩ := hwf.wadd_addr hb (by omega)
  rcases hcase with ⟨hroom, hedit⟩ | ⟨hroom, -, hedit⟩
  · rw [hedit, haddr] at hval
    rw [hedit] at hr'
    refine ⟨h', before, after, ⟨b.addr, roundUp n⟩, some (rest b (roundUp n)), hval, hdvd, rfl, hnr,
      Nat.lt_add_of_pos_right (by decide), hfree, by simpa using hr'.free, hr'.alloc, by simp,
      fun r hr => ?_⟩
    obtain rfl := Option.some.inj hr
    refine ⟨rfl, ?_⟩
    simp only [rest, Block.stop, sizeofBlockData]
    omega
  · rw [hedit, haddr] at hval
    rw [hedit] at hr'
    exact ⟨h', before, after, b, none, hval, hdvd, rfl, by omega, hroom, hfree,
      by simpa using hr'.free, hr'.alloc, fun _ => rfl, by simp⟩

/-- A request that rounds to 0 meets the contract only if there is no free block: otherwise it is
handed one that is too small. -/
theorem contract_huge_iff (hr : Represents h L) (hwf : Wf lo hi L) (hhuge : 2 ^ 64 - 8 < n)
    (hlt : n < 2 ^ 64) : Contract h n ↔ h.freeList = 0 := by
  have hn : n ≠ 0 := by omega
  constructor
  · rintro ⟨free, alloc, hfree, -, hnull, -⟩
    obtain rfl := hfree.unique hr.free
    by_contra hhead
    have hval := hnull fun b hb => by
      have hb' := hfree.size_eq b hb
      have := roundUp_huge hhuge
      have := load64_lt h.mem b.addr
      rw [blockSize] at hb'
      omega
    obtain ⟨h', hval', hr', -⟩ := malloc_refines hr hwf (n := n)
    obtain ⟨rfl, -⟩ := Prod.mk.inj (Option.some.inj (hval.symm.trans hval'))
    -- the call has put a block on the alloc list
    rcases malloc_cases hwf n with ⟨hnone, -⟩ | ⟨before, b, after, -, -, -, -, hcase⟩
    · rw [alignSize_huge hhuge hlt] at hnone
      rcases hnone with h0 | hnone
      · exact hn h0
      · refine hhead ?_
        rw [hr.free.head_eq, List.eq_nil_iff_forall_not_mem.mpr fun b hb =>
          absurd (hnone b hb) (Nat.not_lt_zero _)]
        rfl
    · have hlonger : ∃ c, (Layout.malloc L n).1.alloc = c :: L.alloc := by
        rcases hcase with ⟨-, hedit⟩ | ⟨-, -, hedit⟩ <;> exact ⟨_, by rw [hedit]⟩
      obtain ⟨c, hc⟩ := hlonger
      have halloc := hr.alloc.unique hr'.alloc
      rw [hc] at halloc
      exact absurd (congrArg List.length halloc) (by simp)
  · intro hhead
    have hempty : L.free = [] := hr.free.unique (blockList_nil.mpr hhead)
    refine ⟨L.free, L.alloc, hr.free, hr.alloc, fun _ => malloc_none hr hwf ?_, ?_⟩ <;>
      simp [hempty]

/-! ## Runs -/

/-- In every heap that calls of `malloc` and `free` lead to, a request meets the contract if it can
be rounded, or if there is no free block. -/
theorem malloc_contract (m : Mem) (address size : UInt64) (calls : List Call)
    (hend : address.toNat + size.toNat ≤ 2 ^ 64) :
    ∃ h ptrs,
      run stepCall ((initMemoryManager (boot m) address.toNat size.toNat).1, []) calls
        = some (h, ptrs) ∧
      ∀ n : UInt64, n ≠ 0 → (Contract h n.toNat ↔ n.toNat ≤ 2 ^ 64 - 8 ∨ h.freeList = 0) := by
  obtain ⟨lo, hi, L, hr, hwf, -⟩ := init_represents m hend
  obtain ⟨⟨h, ptrs⟩, hrun, L', hr', hwf'⟩ := run_total (P := fun _ _ => True)
    (show Holds lo hi ((initMemoryManager (boot m) address.toNat size.toNat).1, []) from
      ⟨L, hr, hwf⟩)
    (throughout_of_forall fun _ _ => trivial) fun s c hs _ => stepCall_holds hs c
  refine ⟨h, ptrs, hrun, fun n hn => ?_⟩
  have hn0 : n.toNat ≠ 0 := fun h0 => hn (UInt64.toNat_inj.mp h0)
  rcases Nat.lt_or_ge (2 ^ 64 - 8) n.toNat with hhuge | hle
  · rw [contract_huge_iff hr' hwf' hhuge n.toNat_lt, or_iff_right (Nat.not_le.mpr hhuge)]
  · exact ⟨fun _ => Or.inl hle, fun _ => contract_of_le hr' hwf' hn0 hle⟩

/-- Two blocks handed out and one given back, on a page at 6 MiB. -/
theorem malloc_contract_page :
    ∃ h ptrs,
      run stepCall ((initMemoryManager (boot fun _ => 0) 0x600000 0x1000).1, [])
        [.malloc 100, .malloc 8, .free 0x600010] = some (h, ptrs) ∧
      ∀ n : UInt64, n ≠ 0 → (Contract h n.toNat ↔ n.toNat ≤ 2 ^ 64 - 8 ∨ h.freeList = 0) :=
  malloc_contract (fun _ => 0) 0x600000 0x1000 [.malloc 100, .malloc 8, .free 0x600010] (by decide)

/-- The largest request is given a pointer on a page of 4 KiB. -/
theorem huge_request_handed_out :
    ¬ Contract (initMemoryManager (boot fun _ => 0) 0x600000 0x1000).1 (2 ^ 64 - 1) := by
  rintro ⟨free, alloc, hfree, -, hnull, -⟩
  have hval := hnull fun b hb => by
    have hb' := hfree.size_eq b hb
    have := roundUp_huge (show 2 ^ 64 - 8 < 2 ^ 64 - 1 by decide)
    have := load64_lt (initMemoryManager (boot fun _ => 0) 0x600000 0x1000).1.mem b.addr
    rw [blockSize] at hb'
    omega
  have hptr : (malloc (initMemoryManager (boot fun _ => 0) 0x600000 0x1000).1 (2 ^ 64 - 1)).map
      Prod.snd = some 0x600010 := by decide +kernel
  rw [hval] at hptr
  exact absurd hptr (by decide)

end TronKernel.FirstFit
