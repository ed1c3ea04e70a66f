import TronKernel.Heap.Shape

/-!
# The raw heap represents its two lists

`Represents h L` reads the two linked lists of the memory: the headers chain the blocks in list
order and hold their sizes. The statements of `memoryManager.c` are one lemma each, from a
represented layout to the represented layout after it; they need of the layout only that its blocks
are `Separated`, since between two statements the free list may hold two touching blocks.

Every statement writes headers only. The `_frame` lemmas say which bytes it may change; they are
what keeps client data apart from the allocator.
-/

namespace TronKernel.FirstFit

open Mem LinkedList

/-! ## Headers -/

/-- The two headers share no byte. -/
def HeadersApart (a c : ℕ) : Prop := a + 16 ≤ c ∨ c + 16 ≤ a

section Header

variable {m : Mem} {a c v : ℕ}

theorem wadd_of_lt {a b : ℕ} (h : a + b < 2 ^ 64) : wadd a b = a + b := Nat.mod_eq_of_lt h

theorem wsub_of_le {a b : ℕ} (h : b ≤ a) (ha : a < 2 ^ 64) : wsub a b = a - b := by
  simp only [wsub]; omega

theorem blockNext_lt (m : Mem) (a : ℕ) : blockNext m a < 2 ^ 64 := load64_lt _ _

@[simp] theorem blockSize_setSize_self (hv : v < 2 ^ 64) :
    blockSize (setSize m a v) a = v := load64_store64_self _ _ hv

@[simp] theorem blockNext_setNext_self (hv : v < 2 ^ 64) :
    blockNext (setNext m a v) a = v := load64_store64_self _ _ hv

theorem blockSize_setNext_self (ha : a + 16 ≤ 2 ^ 64) :
    blockSize (setNext m a v) a = blockSize m a := by
  rw [blockSize, setNext, wadd_of_lt (by omega), load64_store64_of_disjoint (by omega), blockSize]

theorem blockNext_setSize_self (ha : a + 16 ≤ 2 ^ 64) :
    blockNext (setSize m a v) a = blockNext m a := by
  rw [blockNext, setSize, wadd_of_lt (by omega), load64_store64_of_disjoint (by omega), blockNext,
    wadd_of_lt (by omega)]

/-- The header at `a` reads the same in both memories. -/
def SameHeader (m m' : Mem) (a : ℕ) : Prop :=
  blockSize m' a = blockSize m a ∧ blockNext m' a = blockNext m a

theorem SameHeader.trans {m₁ m₂ m₃ : Mem} (h : SameHeader m₁ m₂ a) (h' : SameHeader m₂ m₃ a) :
    SameHeader m₁ m₃ a := ⟨h'.1.trans h.1, h'.2.trans h.2⟩

theorem sameHeader_setSize (ha : a + 16 ≤ 2 ^ 64) (h : HeadersApart a c) :
    SameHeader m (setSize m c v) a := by
  unfold HeadersApart at h
  constructor
  · rw [blockSize, setSize, load64_store64_of_disjoint (by omega), blockSize]
  · rw [blockNext, wadd_of_lt (by omega), setSize, load64_store64_of_disjoint (by omega),
      blockNext, wadd_of_lt (by omega)]

theorem sameHeader_setNext (ha : a + 16 ≤ 2 ^ 64) (hc : c + 16 ≤ 2 ^ 64) (h : HeadersApart a c) :
    SameHeader m (setNext m c v) a := by
  unfold HeadersApart at h
  rw [setNext, wadd_of_lt (by omega)]
  constructor
  · rw [blockSize, load64_store64_of_disjoint (by omega), blockSize]
  · rw [blockNext, wadd_of_lt (by omega), load64_store64_of_disjoint (by omega), blockNext,
      wadd_of_lt (by omega)]

theorem setSize_frame {x : ℕ} (h : x < c ∨ c + 16 ≤ x) : setSize m c v x = m x :=
  store64_frame (by omega)

theorem setNext_frame {x : ℕ} (hc : c + 16 ≤ 2 ^ 64) (h : x < c ∨ c + 16 ≤ x) :
    setNext m c v x = m x := by
  rw [setNext, wadd_of_lt (by omega)]
  exact store64_frame (by omega)

end Header

/-! ## Lists of blocks in memory -/

/-- The linked list that starts at pointer `p` holds the given blocks. -/
structure BlockList (m : Mem) (p : ℕ) (bs : List Block) : Prop where
  chain : Chain (blockNext m) p (bs.map Block.addr)
  size_eq : ∀ b ∈ bs, blockSize m b.addr = b.size

theorem BlockList.congr {m m' : Mem} {p : ℕ} {bs : List Block} (h : BlockList m p bs)
    (hsame : ∀ b ∈ bs, SameHeader m m' b.addr) : BlockList m' p bs where
  chain := h.chain.congr fun a ha => by
    obtain ⟨b, hb, rfl⟩ := List.mem_map.mp ha
    exact (hsame b hb).2
  size_eq b hb := (hsame b hb).1.trans (h.size_eq b hb)

@[simp] theorem blockList_nil {m : Mem} {p : ℕ} : BlockList m p [] ↔ p = 0 :=
  ⟨fun h => chain_nil.mp h.chain, fun h => ⟨by simpa using h, by simp⟩⟩

theorem blockList_cons {m : Mem} {p : ℕ} {b : Block} {bs : List Block} :
    BlockList m p (b :: bs) ↔
      p = b.addr ∧ b.addr ≠ 0 ∧ blockSize m b.addr = b.size ∧
        BlockList m (blockNext m b.addr) bs := by
  constructor
  · rintro ⟨hchain, hsize⟩
    obtain ⟨hp, hne, htail⟩ := chain_cons.mp hchain
    exact ⟨hp, hne, hsize b (by simp), htail, fun c hc => hsize c (by simp [hc])⟩
  · rintro ⟨hp, hne, hsize, htail⟩
    refine ⟨chain_cons.mpr ⟨hp, hne, htail.chain⟩, fun c hc => ?_⟩
    rcases List.mem_cons.mp hc with rfl | hc
    · exact hsize
    · exact htail.size_eq c hc

/-- A list of blocks is determined by its head pointer. -/
theorem BlockList.unique {m : Mem} {p : ℕ} {bs cs : List Block} (h : BlockList m p bs)
    (h' : BlockList m p cs) : bs = cs := by
  have haddr := h.chain.unique h'.chain
  refine List.ext_getElem (by simpa using congrArg List.length haddr) fun i hi hi' => ?_
  have hi_addr : bs[i].addr = cs[i].addr := by
    have := List.getElem_of_eq haddr (by simpa using hi)
    simpa using this
  have hi_size := (h.size_eq _ (List.getElem_mem hi)).symm.trans
    (hi_addr ▸ h'.size_eq _ (List.getElem_mem hi'))
  cases hb : bs[i]; cases hc : cs[i]
  simp_all

/-- The part of a list before a place, ending at the pointer found there. -/
structure BlockSeg (m : Mem) (p : ℕ) (bs : List Block) (q : ℕ) : Prop where
  seg : Seg (blockNext m) p (bs.map Block.addr) q
  ne_zero : ∀ b ∈ bs, b.addr ≠ 0
  size_eq : ∀ b ∈ bs, blockSize m b.addr = b.size

theorem BlockSeg.congr {m m' : Mem} {p q : ℕ} {bs : List Block} (h : BlockSeg m p bs q)
    (hsame : ∀ b ∈ bs, SameHeader m m' b.addr) : BlockSeg m' p bs q where
  seg := h.seg.congr fun a ha => by
    obtain ⟨b, hb, rfl⟩ := List.mem_map.mp ha
    exact (hsame b hb).2
  ne_zero := h.ne_zero
  size_eq b hb := (hsame b hb).1.trans (h.size_eq b hb)

theorem blockList_append {m : Mem} {p : ℕ} {bs cs : List Block} :
    BlockList m p (bs ++ cs) ↔ ∃ q, BlockSeg m p bs q ∧ BlockList m q cs := by
  constructor
  · rintro ⟨⟨hseg, hne⟩, hsize⟩
    rw [List.map_append, seg_append] at hseg
    obtain ⟨q, h₁, h₂⟩ := hseg
    refine ⟨q, ⟨h₁, fun b hb => hne _ ?_, fun b hb => hsize b (by simp [hb])⟩,
      ⟨h₂, fun a ha => hne a ?_⟩, fun b hb => hsize b (by simp [hb])⟩
    · simpa using Or.inl ⟨b, hb, rfl⟩
    · rw [List.map_append]; exact List.mem_append_right _ ha
  · rintro ⟨q, h₁, h₂⟩
    refine ⟨⟨?_, fun a ha => ?_⟩, fun b hb => ?_⟩
    · rw [List.map_append, seg_append]; exact ⟨q, h₁.seg, h₂.chain.seg⟩
    · rw [List.map_append, List.mem_append] at ha
      rcases ha with ha | ha
      · obtain ⟨b, hb, rfl⟩ := List.mem_map.mp ha
        exact h₁.ne_zero b hb
      · exact h₂.chain.ne_zero a ha
    · rcases List.mem_append.mp hb with hb | hb
      · exact h₁.size_eq b hb
      · exact h₂.size_eq b hb

/-- The pointer to a list of blocks: its first block, or null. -/
def headAddr (bs : List Block) : ℕ := (bs.map Block.addr).headD 0

/-- The address of the last block, or null. -/
def lastAddr (bs : List Block) : ℕ := lastD (bs.map Block.addr) 0

theorem BlockList.head_eq {m : Mem} {p : ℕ} {bs : List Block} (h : BlockList m p bs) :
    p = headAddr bs := h.chain.head_eq

@[simp] theorem lastAddr_nil : lastAddr [] = 0 := rfl

@[simp] theorem lastAddr_append_singleton (bs : List Block) (b : Block) :
    lastAddr (bs ++ [b]) = b.addr := by simp [lastAddr]

/-! ## Separated blocks -/

/-- Non-null blocks inside the address space that share no byte. -/
structure Separated (bs : List Block) : Prop where
  addr_ne : ∀ b ∈ bs, b.addr ≠ 0
  stop_le : ∀ b ∈ bs, b.stop ≤ 2 ^ 64
  apart : bs.Pairwise Block.Apart

theorem Separated.perm {bs cs : List Block} (h : Separated bs) (hp : bs.Perm cs) :
    Separated cs where
  addr_ne b hb := h.addr_ne b (hp.mem_iff.mpr hb)
  stop_le b hb := h.stop_le b (hp.mem_iff.mpr hb)
  apart := (hp.pairwise_iff fun h => h.symm).mp h.apart

theorem Separated.sublist {bs cs : List Block} (h : Separated bs) (hs : cs.Sublist bs) :
    Separated cs where
  addr_ne b hb := h.addr_ne b (hs.subset hb)
  stop_le b hb := h.stop_le b (hs.subset hb)
  apart := h.apart.sublist hs

theorem Layout.Wf.separated {lo hi : ℕ} {L : Layout} (h : Layout.Wf lo hi L) :
    Separated L.blocks where
  addr_ne b hb := by have := h.eight_le hb; omega
  stop_le b hb := (h.within hb).2.trans h.hi_le
  apart := h.apart

theorem Block.addr_add_le (b : Block) : b.addr + 16 ≤ b.stop := by
  simp only [Block.stop, sizeofBlockData]; omega

theorem Block.Apart.headersApart {a c : Block} (h : a.Apart c) : HeadersApart a.addr c.addr := by
  have ha := a.addr_add_le
  have hc := c.addr_add_le
  rcases h with h | h
  · exact Or.inl (by omega)
  · exact Or.inr (by omega)

section Separated

variable {b : Block} {bs cs : List Block}

/-- Writing a header leaves the headers of all blocks apart from it as they were. -/
theorem Separated.sameHeader_setNext (h : Separated (b :: bs)) {m : Mem} {v : ℕ} :
    ∀ c ∈ bs, SameHeader m (setNext m b.addr v) c.addr := fun c hc => by
  have hb := h.stop_le b (by simp)
  have hc' := h.stop_le c (by simp [hc])
  have hba := b.addr_add_le
  have hca := c.addr_add_le
  have hapart : b.Apart c := (List.pairwise_cons.mp h.apart).1 c hc
  exact TronKernel.FirstFit.sameHeader_setNext (by omega) (by omega)
    (Block.Apart.headersApart hapart.symm)

theorem Separated.sameHeader_setSize (h : Separated (b :: bs)) {m : Mem} {v : ℕ} :
    ∀ c ∈ bs, SameHeader m (setSize m b.addr v) c.addr := fun c hc => by
  have hc' := h.stop_le c (by simp [hc])
  have hca := c.addr_add_le
  have hapart : b.Apart c := (List.pairwise_cons.mp h.apart).1 c hc
  exact TronKernel.FirstFit.sameHeader_setSize (by omega) (Block.Apart.headersApart hapart.symm)

/-- Fewer separated blocks fit into the address space than a walk is allowed to pass. -/
theorem Separated.length_lt (h : Separated bs) : bs.length < walkBound := by
  have hnodup : (bs.map Block.addr).Nodup := by
    rw [List.nodup_iff_pairwise_ne, List.pairwise_map]
    exact h.apart.imp fun hab => hab.addr_ne
  have hsub : bs.map Block.addr ⊆ List.range' 1 (2 ^ 64 - 1) := by
    intro a ha
    obtain ⟨b, hb, rfl⟩ := List.mem_map.mp ha
    have := h.addr_ne b hb
    have := h.stop_le b hb
    have := b.addr_lt_stop
    rw [List.mem_range'_1]
    omega
  have hlen := (List.subperm_of_subset hnodup hsub).length_le
  rw [List.length_map, List.length_range'] at hlen
  simp only [walkBound]
  omega

end Separated

/-- Walking a list up to the first block that a test on blocks rejects. -/
theorem BlockList.advance_eq {m : Mem} {p : ℕ} {bs : List Block} (h : BlockList m p bs)
    (hlen : bs.length < walkBound) (go : ℕ → Bool) (test : Block → Bool)
    (hgo : ∀ b ∈ bs, go b.addr = test b) :
    advance (blockNext m) go walkBound 0 p
      = some (lastAddr (bs.takeWhile test), headAddr (bs.dropWhile test)) := by
  have hmap : ∀ {cs : List Block}, (∀ b ∈ cs, go b.addr = test b) →
      (cs.map Block.addr).takeWhile go = (cs.takeWhile test).map Block.addr ∧
        (cs.map Block.addr).dropWhile go = (cs.dropWhile test).map Block.addr := by
    intro cs hcs
    induction cs with
    | nil => simp
    | cons c cs ih =>
      have hc := hcs c (by simp)
      obtain ⟨htake, hdrop⟩ := ih fun b hb => hcs b (by simp [hb])
      by_cases ht : test c
      · simp [ht, hc, htake, hdrop]
      · simp [ht, hc]
  rw [advance_chain h.chain (by simpa using hlen), (hmap hgo).1, (hmap hgo).2]
  rfl

/-! ## The representation and its edits -/

/-- The two linked lists of the memory are the lists of the layout. -/
structure Represents (h : Heap) (L : Layout) : Prop where
  free : BlockList h.mem h.freeList L.free
  alloc : BlockList h.mem h.allocList L.alloc
  info : h.memoryInfo = L.info

section Edits

variable {h : Heap} {L : Layout} {before after : List Block} {b : Block} {q r : ℕ}

/-- A write to the headers of some blocks of a list: what every edit below does to memory. -/
def WritesHeaders (m m' : Mem) (bs : List Block) : Prop :=
  ∀ x, (∀ b ∈ bs, x < b.addr ∨ b.addr + 16 ≤ x) → m' x = m x

theorem writesHeaders_setNext {m : Mem} {v : ℕ} {bs : List Block} (hs : b.stop ≤ 2 ^ 64)
    (hb : b ∈ bs) : WritesHeaders m (setNext m b.addr v) bs := fun x hx => by
  have hba := b.addr_add_le
  exact setNext_frame (by omega) (hx b hb)

theorem writesHeaders_setSize {m : Mem} {v : ℕ} {bs : List Block} (hb : b ∈ bs) :
    WritesHeaders m (setSize m b.addr v) bs := fun _ hx => setSize_frame (hx b hb)

theorem WritesHeaders.trans {m₁ m₂ m₃ : Mem} {bs : List Block} (h : WritesHeaders m₁ m₂ bs)
    (h' : WritesHeaders m₂ m₃ bs) : WritesHeaders m₁ m₃ bs := fun x hx =>
  (h' x hx).trans (h x hx)

/-- Redirecting the link behind the last block of a segment; `others` are blocks whose headers
must survive. -/
theorem redirect_spec {m : Mem} {p : ℕ} {others : List Block} (hseg : BlockSeg m p before q)
    (hsep : Separated (before ++ others)) (hr : r < 2 ^ 64) :
    let m' := if lastAddr before ≠ 0 then setNext m (lastAddr before) r else m
    let p' := if lastAddr before ≠ 0 then p else r
    BlockSeg m' p' before r ∧ (∀ c ∈ others, SameHeader m m' c.addr) ∧
      WritesHeaders m m' before := by
  rcases List.eq_nil_or_concat before with rfl | ⟨init, x, rfl⟩
  · simp only [lastAddr_nil, ne_eq, not_true_eq_false, if_false]
    exact ⟨⟨rfl, by simp, by simp⟩, fun c _ => ⟨rfl, rfl⟩, fun _ _ => rfl⟩
  rw [List.concat_eq_append] at *
  have hx : x.addr ≠ 0 := hseg.ne_zero x (by simp)
  simp only [lastAddr_append_singleton, if_pos hx]
  have hperm : (init ++ [x] ++ others).Perm (x :: (init ++ others)) := by
    simp only [List.append_assoc, List.singleton_append]
    exact List.perm_middle
  have hsame := (hsep.perm hperm).sameHeader_setNext (m := m) (v := r)
  have hstop := hsep.stop_le x (by simp)
  have hxle := x.addr_add_le
  refine ⟨⟨?_, hseg.ne_zero, fun c hc => ?_⟩, fun c hc => hsame c (by simp [hc]),
    writesHeaders_setNext hstop (by simp)⟩
  · rw [List.map_append, List.map_singleton]
    refine (by simpa using hseg.seg : Seg _ _ (init.map Block.addr ++ [x.addr]) _).redirect ?_
      (blockNext_setNext_self hr)
    intro a ha
    obtain ⟨c, hc, rfl⟩ := List.mem_map.mp ha
    exact (hsame c (by simp [hc])).2
  · rcases List.mem_append.mp hc with hc' | hc'
    · exact (hsame c (by simp [hc'])).1.trans (hseg.size_eq c hc)
    · obtain rfl := List.mem_singleton.mp hc'
      rw [blockSize_setNext_self (by omega)]
      exact hseg.size_eq c hc

end Edits

end TronKernel.FirstFit
