import TronKernel.Heap.Represents

/-!
# The raw `malloc` computes the list version

From a state that represents a well-formed layout the raw call returns, its state represents the
layout the list version computes, and the pointers agree (`malloc_refines`). The same theorem says
which bytes may change: those of free blocks, and no others of the region.
-/

namespace TronKernel.FirstFit

open Mem LinkedList Layout

variable {h : Heap} {L : Layout} {before after : List Block} {b : Block}

/-! ## The statements of `malloc` -/

theorem takeBlock_represents (hr : Represents h L) (hsep : Separated L.blocks)
    (hfree : L.free = before ++ b :: after) :
    Represents (takeBlock h (lastAddr before) b.addr)
        ⟨before ++ after, b :: L.alloc, chargeBlock L.info false b.size⟩ ∧
      WritesHeaders h.mem (takeBlock h (lastAddr before) b.addr).mem (before ++ [b]) := by
  obtain ⟨q, hseg, hrest⟩ := blockList_append.mp (hfree ▸ hr.free)
  obtain ⟨rfl, hb, hsize, hafter⟩ := blockList_cons.mp hrest
  have hsep' : Separated (before ++ (b :: after ++ L.alloc)) := by
    simpa [blocks, hfree] using hsep
  obtain ⟨hseg', hsame, hwrites⟩ :=
    redirect_spec hseg hsep' (blockNext_lt h.mem b.addr)
  set m₁ := if lastAddr before ≠ 0 then
    setNext h.mem (lastAddr before) (blockNext h.mem b.addr) else h.mem with hm₁
  have hlink : linkFree h (lastAddr before) (blockNext h.mem b.addr) =
      { h with
        mem := m₁
        freeList := if lastAddr before ≠ 0 then h.freeList else blockNext h.mem b.addr } := by
    rw [linkFree, hm₁]
    split_ifs <;> rfl
  have hsepb : Separated (b :: (before ++ after ++ L.alloc)) := by
    refine hsep'.perm ?_
    simp only [List.cons_append, List.append_assoc]
    exact List.perm_middle
  have hbstop := hsepb.stop_le b (by simp)
  have hble := b.addr_add_le
  have hsame₂ := hsepb.sameHeader_setNext (m := m₁) (v := h.allocList)
  have hallocLt : h.allocList < 2 ^ 64 := by
    rw [hr.alloc.head_eq]
    cases halloc : L.alloc with
    | nil => simp [headAddr]
    | cons c cs =>
      have := hsep.stop_le c (by simp [blocks, halloc])
      have := c.addr_lt_stop
      simp only [headAddr, List.map_cons, List.headD_cons]
      omega
  have hbsize : blockSize (setNext m₁ b.addr h.allocList) b.addr = b.size := by
    rw [blockSize_setNext_self (by omega), (hsame b (by simp)).1, hsize]
  have hval : takeBlock h (lastAddr before) b.addr =
      { mem := setNext m₁ b.addr h.allocList
        freeList := if lastAddr before ≠ 0 then h.freeList else blockNext h.mem b.addr
        allocList := b.addr
        memoryInfo := chargeBlock L.info false b.size } := by
    have hm₁size : blockSize m₁ b.addr = b.size := (hsame b (by simp)).1.trans hsize
    simp only [takeBlock, hlink, hbsize, hm₁size, chargeBlock, hr.info]
    rfl
  rw [hval]
  refine ⟨⟨?_, ?_, rfl⟩, ?_⟩
  · refine blockList_append.mpr ⟨blockNext h.mem b.addr, ?_, ?_⟩
    · exact hseg'.congr fun c hc => hsame₂ c (by simp [hc])
    · exact hafter.congr fun c hc =>
        (hsame c (by simp [hc])).trans (hsame₂ c (by simp [hc]))
  · refine blockList_cons.mpr ⟨rfl, hb, hbsize, ?_⟩
    rw [blockNext_setNext_self hallocLt]
    exact hr.alloc.congr fun c hc => (hsame c (by simp [hc])).trans (hsame₂ c (by simp [hc]))
  · refine WritesHeaders.trans (fun x hx => hwrites x fun c hc => hx c (by simp [hc])) ?_
    exact writesHeaders_setNext hbstop (by simp)

/-- Splitting a block with exact room for the remainder's header. -/
theorem split_represents {size : ℕ} (hr : Represents h L) (hsep : Separated L.blocks)
    (hfree : L.free = before ++ b :: after) (hroom : size + 24 ≤ b.size) :
    Represents (split h b.addr size)
        ⟨before ++ ⟨b.addr, size⟩ :: rest b size :: after, L.alloc,
          { L.info with
            allocated := wadd L.info.allocated sizeofBlockData
            free := wsub L.info.free sizeofBlockData }⟩ ∧
      Separated (before ++ ⟨b.addr, size⟩ :: rest b size :: after ++ L.alloc) ∧
      WritesHeaders h.mem (split h b.addr size).mem [⟨b.addr, size⟩, rest b size] := by
  set front : Block := ⟨b.addr, size⟩ with hfront
  set back := rest b size with hback
  have hbackAddr : back.addr = b.addr + 16 + size := rfl
  have hbackSize : back.size = b.size - 16 - size := rfl
  have hfrontStop : front.stop = back.addr := rfl
  have hbackStop : back.stop = b.stop := by
    simp only [Block.stop, hbackAddr, hbackSize, sizeofBlockData]; omega
  have hsepb : Separated (b :: (before ++ after ++ L.alloc)) := by
    refine hsep.perm ?_
    simp only [blocks, hfree, List.cons_append, List.append_assoc]
    exact List.perm_middle
  have hbstop := hsepb.stop_le b (by simp)
  have hb := hsepb.addr_ne b (by simp)
  have hsizes : b.addr + 16 + b.size = b.stop := rfl
  have hsepfb : Separated (front :: back :: (before ++ after ++ L.alloc)) := by
    obtain ⟨hapart, hrest⟩ := List.pairwise_cons.mp hsepb.apart
    refine ⟨fun c hc => ?_, fun c hc => ?_, ?_⟩
    · simp only [List.mem_cons] at hc
      rcases hc with rfl | rfl | hc
      · exact hb
      · omega
      · exact hsepb.addr_ne c (List.mem_cons_of_mem _ hc)
    · simp only [List.mem_cons] at hc
      rcases hc with rfl | rfl | hc
      · omega
      · omega
      · exact hsepb.stop_le c (List.mem_cons_of_mem _ hc)
    · refine List.pairwise_cons.mpr ⟨fun c hc => ?_, List.pairwise_cons.mpr ⟨fun c hc => ?_, hrest⟩⟩
      · rcases List.mem_cons.mp hc with rfl | hc
        · exact Or.inl hfrontStop.le
        · rcases hapart c hc with hc' | hc'
          · exact Or.inl (by omega)
          · exact Or.inr hc'
      · rcases hapart c hc with hc' | hc'
        · exact Or.inl (by omega)
        · exact Or.inr (by omega)
  have hsep' : Separated (before ++ front :: back :: after ++ L.alloc) := by
    refine hsepfb.perm (List.Perm.symm ?_)
    simp only [List.cons_append, List.append_assoc]
    refine List.perm_middle.trans (List.Perm.cons _ List.perm_middle)
  obtain ⟨q, hseg, hrest⟩ := blockList_append.mp (hfree ▸ hr.free)
  obtain ⟨rfl, -, hsize, hafter⟩ := blockList_cons.mp hrest
  -- the four writes: size and next of the new header, then next and size of the old one
  have hnew : wadd (wadd b.addr sizeofBlockData) size = back.addr := by
    simp only [wadd, sizeofBlockData]; omega
  have hnewSize : wsub (wsub (blockSize h.mem b.addr) sizeofBlockData) size = back.size := by
    simp only [hsize, wsub, sizeofBlockData]; omega
  have hnextLt := blockNext_lt h.mem b.addr
  have hbackle : back.addr + 16 ≤ 2 ^ 64 := by have := back.addr_add_le; omega
  have hfrontle : front.addr + 16 ≤ 2 ^ 64 := by have := front.addr_add_le; omega
  have hsepbf : Separated (back :: front :: (before ++ after ++ L.alloc)) :=
    hsepfb.perm (List.Perm.swap _ _ _)
  set m₁ := setSize h.mem back.addr back.size with hm₁
  set m₂ := setNext m₁ back.addr (blockNext h.mem b.addr) with hm₂
  set m₃ := setNext m₂ front.addr back.addr with hm₃
  set m₄ := setSize m₃ front.addr size with hm₄
  have hs₁ := hsepbf.sameHeader_setSize (m := h.mem) (v := back.size)
  have hs₂ := hsepbf.sameHeader_setNext (m := m₁) (v := blockNext h.mem b.addr)
  have hs₃ := hsepfb.sameHeader_setNext (m := m₂) (v := back.addr)
  have hs₄ := hsepfb.sameHeader_setSize (m := m₃) (v := size)
  have hnext₁ : blockNext m₁ b.addr = blockNext h.mem b.addr := (hs₁ front (by simp)).2
  have hval : split h b.addr size =
      { h with
        mem := m₄
        memoryInfo :=
          { L.info with
            allocated := wadd L.info.allocated sizeofBlockData
            free := wsub L.info.free sizeofBlockData } } := by
    simp only [split, hnew, hnewSize, hr.info, ← hm₁, hnext₁]
    rfl
  have hsame : ∀ c ∈ before ++ after ++ L.alloc, SameHeader h.mem m₄ c.addr := fun c hc =>
    (hs₁ c (by simp_all)).trans ((hs₂ c (by simp_all)).trans
      ((hs₃ c (by simp_all)).trans (hs₄ c (by simp_all))))
  have hfrontSize : blockSize m₄ front.addr = size := blockSize_setSize_self (by omega)
  have hfrontNext : blockNext m₄ front.addr = back.addr := by
    rw [hm₄, blockNext_setSize_self hfrontle, hm₃, blockNext_setNext_self (by omega)]
  have hbackSame : SameHeader m₂ m₄ back.addr :=
    (hs₃ back (by simp)).trans (hs₄ back (by simp))
  have hbackSize' : blockSize m₄ back.addr = back.size := by
    rw [hbackSame.1, hm₂, blockSize_setNext_self hbackle, hm₁, blockSize_setSize_self (by omega)]
  have hbackNext : blockNext m₄ back.addr = blockNext h.mem b.addr := by
    rw [hbackSame.2, hm₂, blockNext_setNext_self hnextLt]
  rw [hval]
  refine ⟨⟨?_, hr.alloc.congr fun c hc => hsame c (by simp [hc]), rfl⟩, hsep', ?_⟩
  · refine blockList_append.mpr ⟨b.addr, hseg.congr fun c hc => hsame c (by simp [hc]), ?_⟩
    refine blockList_cons.mpr ⟨rfl, hb, hfrontSize, blockList_cons.mpr ⟨hfrontNext, ?_,
      hbackSize', ?_⟩⟩
    · omega
    · rw [hbackNext]; exact hafter.congr fun c hc => hsame c (by simp [hc])
  · have hback' : back ∈ [front, back] := by simp
    have hfront' : front ∈ [front, back] := by simp
    exact (writesHeaders_setSize hback').trans
      ((writesHeaders_setNext (hsepfb.stop_le back (by simp)) hback').trans
        ((writesHeaders_setNext (hsepfb.stop_le front (by simp)) hfront').trans
          (writesHeaders_setSize hfront')))

/-- The one split whose test wraps: the new header is written below the region and the block's own
header is rewritten with what it held. -/
theorem split_whole_represents (hr : Represents h L) (hfree : L.free = [b]) (halloc : L.alloc = [])
    (haddr : b.addr = 8) (hstop : b.stop = 2 ^ 64) :
    Represents (split h b.addr b.size)
        { L with
          info :=
            { L.info with
              allocated := wadd L.info.allocated sizeofBlockData
              free := wsub L.info.free sizeofBlockData } } ∧
      ∀ x, 24 ≤ x → (split h b.addr b.size).mem x = h.mem x := by
  have hsize : b.size = 2 ^ 64 - 24 := by
    simp only [Block.stop, sizeofBlockData] at hstop; omega
  have hnew : wadd (wadd b.addr sizeofBlockData) b.size = 0 := by
    simp only [wadd, sizeofBlockData, haddr, hsize]; decide
  rw [haddr] at hnew ⊢
  set m₁ := setSize h.mem 0 (wsub (wsub (blockSize h.mem 8) sizeofBlockData) b.size) with hm₁
  set m₂ := setNext m₁ 0 (blockNext m₁ 8) with hm₂
  set m₃ := setNext m₂ 8 0 with hm₃
  set m₄ := setSize m₃ 8 b.size with hm₄
  have hval : split h 8 b.size =
      { h with
        mem := m₄
        memoryInfo :=
          { L.info with
            allocated := wadd L.info.allocated sizeofBlockData
            free := wsub L.info.free sizeofBlockData } } := by
    simp only [split, hnew, hr.info, ← hm₁, ← hm₂, ← hm₃, ← hm₄]
  have hsize₄ : blockSize m₄ 8 = b.size := blockSize_setSize_self (by omega)
  have hnext₄ : blockNext m₄ 8 = 0 := by
    rw [hm₄, blockNext_setSize_self (by omega), hm₃, blockNext_setNext_self (by omega)]
  obtain ⟨hp, -⟩ := blockList_cons.mp (hfree ▸ hr.free)
  have halist := hr.alloc
  rw [halloc, blockList_nil] at halist
  rw [hval]
  refine ⟨⟨?_, by simpa [halloc] using halist, rfl⟩, fun x hx => ?_⟩
  · simp only [hfree]
    refine blockList_cons.mpr ⟨hp, by omega, by rw [haddr, hsize₄], ?_⟩
    rw [haddr, hnext₄, blockList_nil]
  · show m₄ x = h.mem x
    rw [hm₄, setSize_frame (by omega), hm₃, setNext_frame (by omega) (by omega), hm₂,
      setNext_frame (by omega) (by omega), hm₁, setSize_frame (by omega)]

/-! ## `malloc` -/

/-- The search of the raw `malloc` splits the free list. -/
theorem walk_free {lo hi : ℕ} (hr : Represents h L) (hwf : Wf lo hi L) (size : ℕ) :
    advance (blockNext h.mem) (fun a => blockSize h.mem a < size) walkBound 0 h.freeList =
      some (lastAddr (L.free.takeWhile fun b => b.size < size),
        headAddr (L.free.dropWhile fun b => b.size < size)) :=
  hr.free.advance_eq (hwf.separated.sublist (List.sublist_append_left _ _)).length_lt
    (fun a => blockSize h.mem a < size) (fun b => b.size < size)
    fun b hb => by rw [hr.free.size_eq b hb]

/-- Without a large enough block the raw `malloc` returns null and changes nothing. -/
theorem malloc_none {lo hi n : ℕ} (hr : Represents h L) (hwf : Wf lo hi L)
    (hnone : ∀ b ∈ L.free, b.size < alignSize n) : FirstFit.malloc h n = some (h, 0) := by
  by_cases hn0 : n = 0
  · simp [FirstFit.malloc, hn0]
  have hdrop : L.free.dropWhile (fun b => decide (b.size < alignSize n)) = [] := by
    simpa [List.dropWhile_eq_nil_iff] using hnone
  simp only [FirstFit.malloc, if_neg hn0, walk_free hr hwf, hdrop]
  rfl

/-- The raw `malloc` computes `Layout.malloc` and changes bytes of free blocks only. -/
theorem malloc_refines {lo hi n : ℕ} (hr : Represents h L) (hwf : Wf lo hi L) :
    ∃ h', FirstFit.malloc h n = some (h', (Layout.malloc L n).2) ∧
      Represents h' (Layout.malloc L n).1 ∧
      ∀ x, lo ≤ x → (∀ b ∈ L.free, x < b.addr ∨ b.stop ≤ x) → h'.mem x = h.mem x := by
  have hsep := hwf.separated
  set size := alignSize n with hn
  have hwalk := walk_free hr hwf size
  rcases malloc_cases hwf n with ⟨hnone, hval⟩ | ⟨before, b, after, hn0, hfree, hbefore, hfit, hval⟩
  · refine ⟨h, ?_, by rw [hval]; exact hr, fun _ _ _ => rfl⟩
    rw [hval]
    rcases hnone with rfl | hnone
    · rfl
    · exact malloc_none hr hwf hnone
  have hb : b ∈ L.free := by simp [hfree]
  have hbmem : b ∈ L.blocks := List.mem_append_left _ hb
  have hb0 := hsep.addr_ne b hbmem
  have hbstop := hsep.stop_le b hbmem
  have hsizes : b.addr + 16 + b.size = b.stop := rfl
  have htake : L.free.takeWhile (fun b => decide (b.size < size)) = before := by
    rw [hfree, List.takeWhile_append_of_pos (by simpa using hbefore),
      List.takeWhile_cons_of_neg (by simpa using hfit), List.append_nil]
  have hdrop : L.free.dropWhile (fun b => decide (b.size < size)) = b :: after := by
    rw [hfree, List.dropWhile_append_of_pos (by simpa using hbefore),
      List.dropWhile_cons_of_neg (by simpa using hfit)]
  have hraw : FirstFit.malloc h n =
      some (takeBlock (if splits b size then split h b.addr size else h) (lastAddr before) b.addr,
        wadd b.addr 16) := by
    rw [htake, hdrop] at hwalk
    have hhead : headAddr (b :: after) = b.addr := rfl
    simp only [FirstFit.malloc, if_neg hn0, ← hn, hwalk, hhead, if_neg hb0, hr.free.size_eq b hb,
      ge_iff_le, splits]
    rfl
  rw [hraw]
  have hspan : ∀ {m m' : Mem} {bs : List Block}, WritesHeaders m m' bs →
      (∀ c ∈ bs, ∃ d ∈ L.free, d.addr ≤ c.addr ∧ c.stop ≤ d.stop) →
      ∀ x, (∀ d ∈ L.free, x < d.addr ∨ d.stop ≤ x) → m' x = m x := by
    intro m m' bs hw hbs x hx
    refine hw x fun c hc => ?_
    obtain ⟨d, hd, hlo, hhi⟩ := hbs c hc
    have := c.addr_add_le
    have := hx d hd
    omega
  rcases hval with ⟨hroom, hval⟩ | ⟨-, hcorner, hval⟩
  · -- a split block: two header writes inside it, then it is taken
    have hsplits : splits b size := by
      simp only [splits, wadd, sizeofBlockData, sizeofSizeT]; omega
    obtain ⟨hr₁, hsep₁, hw₁⟩ := split_represents hr hsep hfree hroom
    obtain ⟨hr₂, hw₂⟩ := takeBlock_represents hr₁ (b := ⟨b.addr, size⟩) hsep₁ rfl
    refine ⟨_, by rw [hval, if_pos hsplits], ?_, fun x _ hx => ?_⟩
    · rw [hval]; exact hr₂
    · refine (hspan hw₂ ?_ x hx).trans (hspan hw₁ ?_ x hx)
      · intro c hc
        rcases List.mem_append.mp hc with hc | hc
        · exact ⟨c, by simp [hfree, hc], le_rfl, le_rfl⟩
        · obtain rfl := List.mem_singleton.mp hc
          refine ⟨b, hb, le_rfl, ?_⟩
          simp only [Block.stop]; omega
      · intro c hc
        refine ⟨b, hb, ?_⟩
        rcases List.mem_cons.mp hc with rfl | hc
        · simp only [Block.stop, le_refl, true_and]; omega
        · obtain rfl := List.mem_singleton.mp hc
          simp only [Layout.rest, Block.stop, sizeofBlockData]; omega
  by_cases hs : splits b size
  · -- the wrapping split: the block is the whole region
    obtain ⟨heq, hstop, haddr⟩ := hcorner hs
    have honly : before ++ after ++ L.alloc = [] := by
      refine List.eq_nil_iff_forall_not_mem.mpr fun c hc => ?_
      have hsepb : Separated (b :: (before ++ after ++ L.alloc)) := by
        refine hsep.perm ?_
        simp only [blocks, hfree, List.cons_append, List.append_assoc]
        exact List.perm_middle
      have hcmem : c ∈ L.blocks := by
        simp only [List.mem_append] at hc
        simp only [blocks, hfree, List.mem_append, List.mem_cons]
        rcases hc with (hc | hc) | hc <;> simp only [hc, true_or, or_true]
      have hc8 : 8 ≤ c.addr := hwf.eight_le hcmem
      have hcstop := hsepb.stop_le c (List.mem_cons_of_mem _ hc)
      have := c.addr_lt_stop
      rcases (List.pairwise_cons.mp hsepb.apart).1 c hc with hapart | hapart <;> omega
    simp only [List.append_eq_nil_iff] at honly
    obtain ⟨⟨rfl, rfl⟩, halloc⟩ := honly
    obtain ⟨hr₁, hw₁⟩ := split_whole_represents hr hfree halloc haddr hstop
    have hsep₁ : Separated (L.free ++ L.alloc) := hsep
    obtain ⟨hr₂, hw₂⟩ := takeBlock_represents hr₁ hsep₁ hfree
    have hbsize : b.size = size := heq.symm
    refine ⟨_, by rw [hval, if_pos hs], ?_, fun x hlo hx => ?_⟩
    · have hdec : decide (splits b (alignSize n)) = true := decide_eq_true hs
      rw [hval, hdec, ← hbsize]
      exact hr₂
    · -- nothing of the region lies below the block
      have hlob := (hwf.within hbmem).2
      rcases hx b hb with hxb | hxb
      · obtain ⟨d, hd, hdx, -⟩ := hwf.tiles.exists_mem hlo (by omega : x < hi)
        simp only [blocks, hfree, halloc, List.nil_append, List.append_nil,
          List.mem_singleton] at hd
        subst hd
        omega
      · rw [← hbsize]
        refine (hw₂ x fun c hc => ?_).trans (hw₁ x (by omega))
        simp only [List.nil_append, List.mem_singleton] at hc
        subst hc
        omega
  · obtain ⟨hr₁, hw₁⟩ := takeBlock_represents hr hsep hfree
    have hdec : decide (splits b (alignSize n)) = false := decide_eq_false hs
    refine ⟨takeBlock h (lastAddr before) b.addr, by rw [hval, if_neg hs], ?_, fun x _ hx => ?_⟩
    · rw [hval, hdec]; exact hr₁
    · refine hspan hw₁ (fun c hc => ⟨c, ?_, le_rfl, le_rfl⟩) x hx
      rw [hfree]
      rcases List.mem_append.mp hc with hc | hc
      · exact List.mem_append_left _ hc
      · obtain rfl := List.mem_singleton.mp hc
        simp

end TronKernel.FirstFit
