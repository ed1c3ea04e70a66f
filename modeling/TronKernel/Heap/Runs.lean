import TronKernel.Heap.RefinesMalloc
import TronKernel.Heap.RefinesFree
import TronKernel.Lib.Runs

/-!
# The heap after any sequence of calls

`Call.exec` is one call of `malloc` or `free` on the raw heap, `Call.edit` the same call on the two
lists, and `exec_refines` says that the first computes the second and keeps the shape. So after any
run the memory holds two lists of blocks that tile the region
(`lists_tile_region_after_any_calls`).

`initMemoryManager` accepts the region at address 0 although its first block is then the null
pointer. No list ever holds a block of that region, so it is the one region that is not tiled
(`null_region_not_tiled`).
-/

namespace TronKernel.FirstFit

open Mem Layout Runs Tiling

/-- The state after a call and what it returns, nothing for `free`. -/
def Call.exec (h : Heap) : Call → Option (Heap × Option ℕ)
  | .malloc size => (FirstFit.malloc h size.toNat).map fun r => (r.1, some r.2)
  | .free ptr => (FirstFit.free h ptr.toNat).map fun h => (h, none)

/-- A call on the two lists. -/
def Call.edit (L : Layout) : Call → Layout × Option ℕ
  | .malloc size => ((L.malloc size.toNat).1, some (L.malloc size.toNat).2)
  | .free ptr => (L.release ptr.toNat, none)

/-- One call of a program that keeps the returned pointers in order. -/
def stepCall (s : Heap × List ℕ) (c : Call) : Option (Heap × List ℕ) :=
  (c.exec s.1).map fun r => (r.1, s.2 ++ r.2.toList)

variable {lo hi : ℕ} {h : Heap} {L : Layout}

/-- The bytes of live blocks' payloads. -/
def Layout.InPayload (L : Layout) (x : ℕ) : Prop :=
  ∃ b ∈ L.alloc, b.addr + sizeofBlockData ≤ x ∧ x < b.stop

/-- A call returns, computes the call on the lists, keeps the shape and changes no payload byte of
a block that was live before it. -/
theorem exec_refines (hr : Represents h L) (hwf : Wf lo hi L) (c : Call) :
    ∃ h', c.exec h = some (h', (c.edit L).2) ∧ Represents h' (c.edit L).1 ∧
      Wf lo hi (c.edit L).1 ∧ ∀ x, L.InPayload x → h'.mem x = h.mem x := by
  cases c with
  | malloc size =>
    obtain ⟨h', hval, hr', hframe⟩ := malloc_refines hr hwf (n := size.toNat)
    refine ⟨h', by simp only [Call.exec, hval]; rfl, hr', wf_malloc hwf _, ?_⟩
    rintro x ⟨b, hb, hlo, hhi⟩
    have hwithin := hwf.within (List.mem_append_right _ hb)
    have hble := b.addr_add_le
    have hlox : lo ≤ x := by simp only [sizeofBlockData] at hlo; omega
    refine hframe x hlox fun f hf => ?_
    rcases hwf.free_apart_alloc hf hb with hapart | hapart
    · exact Or.inr (by simp only [sizeofBlockData] at hlo; omega)
    · exact Or.inl (by omega)
  | free ptr =>
    obtain ⟨h', hval, hr', hwrites⟩ := free_refines hr hwf ptr.toNat
    refine ⟨h', by simp only [Call.exec, hval]; rfl, hr', wf_release hwf _, ?_⟩
    rintro x ⟨b, hb, hlo, hhi⟩
    refine hwrites x fun c hc => ?_
    have hcle := c.addr_add_le
    simp only [sizeofBlockData] at hlo
    -- a header overlaps no other block, and the payload lies behind the block's own header
    by_cases hcb : c = b
    · exact Or.inr (by rw [hcb]; exact hlo)
    · rcases hwf.apart.forall hc (List.mem_append_right _ hb) hcb with hapart | hapart
      · exact Or.inr (by omega)
      · exact Or.inl (by omega)

/-- An accepted region that does not begin at the null pointer is one free block. -/
theorem init_layout (m : Mem) {address size : ℕ} (hend : address + size ≤ 2 ^ 64)
    (hnull : address ≠ 0) (haccepted : (initMemoryManager (boot m) address size).2 = 0) :
    Represents (initMemoryManager (boot m) address size).1 (Layout.init address size) ∧
      Wf address (address + size) (Layout.init address size) := by
  simp only [initMemoryManager, sizeofBlockData, sizeofSizeT] at haccepted ⊢
  split_ifs at haccepted ⊢ with haddr hsize hmin
  have hsub : wsub size 16 = size - 16 := wsub_of_le (by omega) (by omega)
  refine ⟨⟨?_, blockList_nil.mpr rfl, ?_⟩,
    wf_init (by omega) (by omega) (by omega) (by omega) hend⟩
  · refine blockList_cons.mpr ⟨rfl, hnull, ?_, blockList_nil.mpr ?_⟩
    · show blockSize (setNext (setSize m address (wsub size 16)) address 0) address = size - 16
      rw [blockSize_setNext_self (by omega), blockSize_setSize_self (by omega), hsub]
    · show blockNext (setNext (setSize m address (wsub size 16)) address 0) address = 0
      exact blockNext_setNext_self (by omega)
  · rw [hsub]; rfl

/-- After initialisation the memory holds a layout: the one block of an accepted region, and no
block at all if the region was rejected or begins at the null address. -/
theorem init_represents (m : Mem) {address size : ℕ} (hend : address + size ≤ 2 ^ 64) :
    let r := initMemoryManager (boot m) address size
    ∃ lo hi L, Represents r.1 L ∧ Wf lo hi L ∧ L.alloc = [] ∧
      (r.2 = 0 → address ≠ 0 → lo = address ∧ hi = address + size) := by
  have hempty : ∀ info, Wf 1 1 ⟨[], [], info⟩ := fun info =>
    { lo_pos := Nat.one_pos
      hi_le := by omega
      addr_aligned := by simp [blocks]
      size_aligned := by simp [blocks]
      tiles := fun p => by
        rw [if_neg (by omega)]
        exact cover_nil p
      ordered := List.Pairwise.nil }
  have hrejected : ∃ lo hi L, Represents (boot m) L ∧ Wf lo hi L ∧ L.alloc = [] ∧
      (False → address ≠ 0 → lo = address ∧ hi = address + size) :=
    ⟨1, 1, ⟨[], [], ⟨0, 0, 0⟩⟩, ⟨blockList_nil.mpr rfl, blockList_nil.mpr rfl, rfl⟩, hempty _, rfl,
      False.elim⟩
  intro r
  by_cases hnull : address = 0
  · simp only [r, initMemoryManager, sizeofBlockData, sizeofSizeT]
    split_ifs with haddr hsize hmin
    · exact hrejected
    · exact hrejected
    · exact hrejected
    · exact ⟨1, 1, ⟨[], [], ⟨16, wsub size 16, size⟩⟩,
        ⟨blockList_nil.mpr hnull, blockList_nil.mpr rfl, rfl⟩, hempty _, rfl,
        fun _ hne => absurd hnull hne⟩
  by_cases haccepted : r.2 = 0
  · obtain ⟨hr, hwf⟩ := init_layout m hend hnull haccepted
    exact ⟨address, address + size, _, hr, hwf, rfl, fun _ _ => ⟨rfl, rfl⟩⟩
  · simp only [r, initMemoryManager, sizeofBlockData, sizeofSizeT] at haccepted ⊢
    split_ifs at haccepted ⊢ with haddr hsize hmin
    · exact hrejected
    · exact hrejected
    · exact hrejected
    · exact absurd rfl haccepted

/-! ## Runs of calls -/

/-- What a run keeps: the memory holds a layout of the right shape. -/
def Holds (lo hi : ℕ) (s : Heap × List ℕ) : Prop :=
  ∃ L, Represents s.1 L ∧ Wf lo hi L

theorem stepCall_holds {s : Heap × List ℕ} (hs : Holds lo hi s) (c : Call) :
    ∃ s', stepCall s c = some s' ∧ Holds lo hi s' := by
  obtain ⟨L, hr, hwf⟩ := hs
  obtain ⟨h', hval, hr', hwf', -⟩ := exec_refines hr hwf c
  exact ⟨_, by simp only [stepCall, hval]; rfl, (c.edit L).1, hr', hwf'⟩

/-- Two lists of blocks, read from the memory, that tile the region; the free one in strictly
increasing order and with no block ending where another one begins. -/
def TilesRegion (lo hi : ℕ) (h : Heap) : Prop :=
  ∃ free alloc, BlockList h.mem h.freeList free ∧ BlockList h.mem h.allocList alloc ∧
    Tiles Block.addr Block.stop lo hi (free ++ alloc) ∧ (free ++ alloc).Nodup ∧
    free.Pairwise (fun a b => a.addr < b.addr) ∧ ∀ a ∈ free, ∀ b ∈ free, a.stop ≠ b.addr

theorem Holds.tilesRegion {s : Heap × List ℕ} (hs : Holds lo hi s) : TilesRegion lo hi s.1 := by
  obtain ⟨L, hr, hwf⟩ := hs
  refine ⟨L.free, L.alloc, hr.free, hr.alloc, hwf.tiles,
    hwf.tiles.nodup fun b _ => b.addr_lt_stop, hwf.ordered.imp fun {a b} hab => ?_,
    fun a ha b hb heq => ?_⟩
  · exact a.addr_lt_stop.trans hab
  · -- the order of the list separates two blocks either way, and no block touches itself
    have hgap : L.free.Pairwise fun a b => a.stop ≠ b.addr ∧ b.stop ≠ a.addr :=
      hwf.ordered.imp fun {a b} hab => by
        have := a.addr_lt_stop
        have := b.addr_lt_stop
        omega
    have hself : ∀ c ∈ L.free, c.stop ≠ c.addr ∧ c.stop ≠ c.addr := fun c _ =>
      ⟨c.addr_lt_stop.ne', c.addr_lt_stop.ne'⟩
    exact (hgap.forall_of_forall_of_flip hself (hgap.imp And.symm) ha hb).1 heq

/-- After any calls on a region that begins at a non-null address, the two lists tile the region,
and the free list is sorted and fully merged. -/
theorem lists_tile_region_after_any_calls (m : Mem) (address size : UInt64) (calls : List Call)
    (hnull : address ≠ 0)
    (haccepted : (initMemoryManager (boot m) address.toNat size.toNat).2 = 0)
    (hend : address.toNat + size.toNat ≤ 2 ^ 64) :
    ∃ h ptrs,
      run stepCall ((initMemoryManager (boot m) address.toNat size.toNat).1, []) calls
        = some (h, ptrs) ∧
      TilesRegion address.toNat (address.toNat + size.toNat) h := by
  obtain ⟨lo, hi, L, hr, hwf, -, hregion⟩ := init_represents m hend
  have hne : address.toNat ≠ 0 := fun h0 => hnull (UInt64.toNat_inj.mp h0)
  obtain ⟨rfl, rfl⟩ := hregion haccepted hne
  have hstart : Holds address.toNat (address.toNat + size.toNat)
      ((initMemoryManager (boot m) address.toNat size.toNat).1, []) := ⟨L, hr, hwf⟩
  obtain ⟨⟨h, ptrs⟩, hrun, hholds⟩ := run_total (P := fun _ _ => True) hstart
    (throughout_of_forall fun _ _ => trivial) fun s c hs _ => stepCall_holds hs c
  exact ⟨h, ptrs, hrun, hholds.tilesRegion⟩

/-- Two blocks handed out and one given back, on a page at 6 MiB. -/
theorem lists_tile_region_page :
    ∃ h ptrs,
      run stepCall ((initMemoryManager (boot fun _ => 0) 0x600000 0x1000).1, [])
        [.malloc 100, .malloc 8, .free 0x600010] = some (h, ptrs) ∧
      TilesRegion 0x600000 (0x600000 + 0x1000) h :=
  lists_tile_region_after_any_calls (fun _ => 0) 0x600000 0x1000
    [.malloc 100, .malloc 8, .free 0x600010] (by decide) (by decide) (by decide)

/-- The region at the null address is accepted, but both lists are empty there. -/
theorem null_region_not_tiled :
    ¬ ∀ (m : Mem) (address size : UInt64) (calls : List Call),
      (initMemoryManager (boot m) address.toNat size.toNat).2 = 0 →
      address.toNat + size.toNat ≤ 2 ^ 64 →
      ∃ h ptrs,
        run stepCall ((initMemoryManager (boot m) address.toNat size.toNat).1, []) calls
          = some (h, ptrs) ∧
        TilesRegion address.toNat (address.toNat + size.toNat) h := by
  intro hall
  obtain ⟨h, ptrs, hrun, free, alloc, hfree, halloc, htiles, -⟩ :=
    hall (fun _ => 0) 0 24 [] (by decide) (by decide)
  obtain ⟨rfl, -⟩ := Prod.mk.inj (Option.some.inj hrun)
  -- both head pointers are null, so nothing covers the first byte
  obtain rfl : free = [] := hfree.unique (blockList_nil.mpr rfl)
  obtain rfl : alloc = [] := halloc.unique (blockList_nil.mpr rfl)
  have hcover := htiles 0
  rw [List.append_nil, cover_nil, if_pos (by decide)] at hcover
  exact absurd hcover (by decide)

end TronKernel.FirstFit
