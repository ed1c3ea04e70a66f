import TronKernel.Heap.Isolation

/-!
# The memory manager as the rest of the kernel sees it

The kernel is built with one of two memory managers. What it relies on is the same for both:
`malloc` returns NULL or the address of a block that is not in use, and `free` gives one block back.
The first-fit manager, on its lists of blocks, is an instance.
-/

namespace TronKernel.Sched

/-- `malloc` and `free`, and the blocks in use. -/
class Allocator (H : Type) where
  malloc : H → ℕ → H × ℕ
  free : H → ℕ → H
  Live : H → ℕ → Prop
  not_live_null : ∀ h, ¬ Live h 0
  live_lt : ∀ h a, Live h a → a < 2 ^ 64
  malloc_fresh : ∀ h n, ¬ Live h (malloc h n).2
  live_malloc : ∀ h n a, Live (malloc h n).1 a ↔ Live h a ∨ a ≠ 0 ∧ a = (malloc h n).2
  live_free : ∀ h p a, Live h p → (Live (free h p) a ↔ Live h a ∧ a ≠ p)

/-! ## The first-fit manager -/

open FirstFit FirstFit.Layout

/-- A well-formed heap of the first-fit manager. -/
abbrev FirstFitHeap : Type := { L : Layout // ∃ lo hi, Wf lo hi L }

/-- The block with payload at `a` is on the alloc list. -/
def InUse (L : Layout) (a : ℕ) : Prop := a ≠ 0 ∧ ∃ b ∈ L.alloc, wadd b.addr 16 = a

variable {L : Layout} {lo hi a p : ℕ}

theorem payload_inj (h : Wf lo hi L) {b c : Block} (hb : b ∈ L.alloc) (hc : c ∈ L.alloc)
    (heq : wadd b.addr 16 = wadd c.addr 16) : b = c := by
  refine h.alloc_addr_inj hb hc ?_
  have hbin := h.within (List.mem_append_right _ hb)
  have hcin := h.within (List.mem_append_right _ hc)
  have := b.addr_lt_stop
  have := c.addr_lt_stop
  have := h.hi_le
  simp only [wadd] at heq
  omega

theorem inUse_malloc (h : Wf lo hi L) (n : ℕ) :
    InUse (L.malloc n).1 a ↔ InUse L a ∨ a ≠ 0 ∧ a = (L.malloc n).2 := by
  rcases malloc_alloc h n with hval | ⟨b, halloc, hptr⟩
  · rw [hval]
    exact ⟨Or.inl, fun h => h.elim id fun ⟨hne, h0⟩ => absurd h0 hne⟩
  · rw [InUse, InUse, halloc, hptr]
    constructor
    · rintro ⟨hne, c, hc, rfl⟩
      rcases List.mem_cons.mp hc with rfl | hc
      · exact Or.inr ⟨hne, rfl⟩
      · exact Or.inl ⟨hne, c, hc, rfl⟩
    · rintro (⟨hne, c, hc, rfl⟩ | ⟨hne, rfl⟩)
      · exact ⟨hne, c, List.mem_cons_of_mem _ hc, rfl⟩
      · exact ⟨hne, b, List.mem_cons_self, rfl⟩

theorem not_inUse_malloc (h : Wf lo hi L) (n : ℕ) : ¬ InUse L (L.malloc n).2 := by
  rcases malloc_alloc h n with hval | ⟨b, halloc, hptr⟩
  · rw [hval]
    exact fun h0 => h0.1 rfl
  · rintro ⟨-, c, hc, hcp⟩
    have hwf := wf_malloc h n
    have hb : b ∈ (L.malloc n).1.alloc := halloc ▸ List.mem_cons_self
    have hcmem : c ∈ (L.malloc n).1.alloc := halloc ▸ List.mem_cons_of_mem _ hc
    obtain rfl := payload_inj hwf hcmem hb (hcp.trans hptr)
    have hapart := hwf.alloc_apart
    rw [halloc] at hapart
    exact absurd rfl ((List.pairwise_cons.mp hapart).1 c hc).addr_ne

theorem inUse_release (h : Wf lo hi L) (hp : InUse L p) :
    InUse (L.release p) a ↔ InUse L a ∧ a ≠ p := by
  obtain ⟨-, c, hc, hcp⟩ := hp
  have hcin := h.within (List.mem_append_right _ hc)
  have := c.addr_lt_stop
  have := h.hi_le
  have haddr : wsub p 16 = c.addr := by
    simp only [← hcp, wadd, wsub]
    omega
  rcases release_cases L p with ⟨hnone, -⟩ | ⟨b, hb, hbp, hval⟩
  · exact absurd haddr.symm (hnone c hc)
  · obtain rfl := h.alloc_addr_inj hb hc (hbp.trans haddr)
    have hnodup : L.alloc.Nodup :=
      h.alloc_apart.imp fun hapart heq => hapart.addr_ne (congrArg Block.addr heq)
    rw [InUse, InUse, hval]
    constructor
    · rintro ⟨hne, d, hd, rfl⟩
      have hdmem := (hnodup.mem_erase_iff.mp hd).2
      refine ⟨⟨hne, d, hdmem, rfl⟩, fun heq => (hnodup.mem_erase_iff.mp hd).1 ?_⟩
      exact payload_inj h hdmem hb (heq.trans hcp.symm)
    · rintro ⟨⟨hne, d, hd, rfl⟩, hnep⟩
      exact ⟨hne, d, hnodup.mem_erase_iff.mpr ⟨fun hdb => hnep (hdb ▸ hcp), hd⟩, rfl⟩

instance : Allocator FirstFitHeap where
  malloc h n := (⟨(h.1.malloc n).1, h.2.imp fun _ => Exists.imp fun _ hwf => wf_malloc hwf n⟩,
    (h.1.malloc n).2)
  free h p := ⟨h.1.release p, h.2.imp fun _ => Exists.imp fun _ hwf => wf_release hwf p⟩
  Live h a := InUse h.1 a
  not_live_null _ h := h.1 rfl
  live_lt _ _ h := let ⟨_, _, _, ha⟩ := h; ha ▸ Nat.mod_lt _ (Nat.two_pow_pos 64)
  malloc_fresh h n := let ⟨_, _, hwf⟩ := h.2; not_inUse_malloc hwf n
  live_malloc h n _ := let ⟨_, _, hwf⟩ := h.2; inUse_malloc hwf n
  live_free h _ _ hp := let ⟨_, _, hwf⟩ := h.2; inUse_release hwf hp

/-- The heap that `initMemoryManager` sets up on `[address, address + size)`. -/
def firstFitInit (address size : ℕ) (hpos : 0 < address) (haddr : 8 ∣ address) (hsize : 8 ∣ size)
    (hle : 24 ≤ size) (hend : address + size ≤ 2 ^ 64) : FirstFitHeap :=
  ⟨Layout.init address size, address, address + size, wf_init hpos haddr hsize hle hend⟩

end TronKernel.Sched
