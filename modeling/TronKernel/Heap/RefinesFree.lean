import TronKernel.Heap.Represents

/-!
# The raw `free` computes the list version

The call takes the block out of the alloc list (`unlinkAlloc_represents`), puts it at its place
in the free list (`insert_represents`) and merges it with the neighbours it touches
(`merge_represents`). `free_refines` puts the three together; all writes are to headers of blocks
that exist before the call.
-/

namespace TronKernel.FirstFit

open Mem LinkedList Layout

variable {h : Heap} {L : Layout} {before after alloc : List Block} {b l r : Block}
  {info : MemoryInfo}

theorem WritesHeaders.mono {m m' : Mem} {bs cs : List Block} (hw : WritesHeaders m m' bs)
    (hsub : ∀ b ∈ bs, b ∈ cs) : WritesHeaders m m' cs := fun x hx =>
  hw x fun b hb => hx b (hsub b hb)

/-! ## The statements of `free` -/

/-- Taking a block out of the alloc list leaves its own header alone. -/
theorem unlinkAlloc_represents (hr : Represents h L) (hsep : Separated L.blocks)
    (halloc : L.alloc = before ++ b :: after) :
    let h' := linkAlloc h (lastAddr before) (blockNext h.mem b.addr)
    Represents h' ⟨L.free, before ++ after, L.info⟩ ∧ blockSize h'.mem b.addr = b.size ∧
      WritesHeaders h.mem h'.mem before := by
  obtain ⟨q, hseg, hrest⟩ := blockList_append.mp (halloc ▸ hr.alloc)
  obtain ⟨rfl, -, hsize, hafter⟩ := blockList_cons.mp hrest
  have hsep' : Separated (before ++ (b :: after ++ L.free)) := by
    refine hsep.perm ?_
    rw [blocks, halloc, ← List.append_assoc before]
    exact List.perm_append_comm
  obtain ⟨hseg', hsame, hwrites⟩ :=
    redirect_spec hseg hsep' (blockNext_lt h.mem b.addr)
  set m' := if lastAddr before ≠ 0 then
    setNext h.mem (lastAddr before) (blockNext h.mem b.addr) else h.mem with hm'
  have hlink : linkAlloc h (lastAddr before) (blockNext h.mem b.addr) =
      { h with
        mem := m'
        allocList := if lastAddr before ≠ 0 then h.allocList else blockNext h.mem b.addr } := by
    rw [linkAlloc, hm']
    split_ifs <;> rfl
  simp only [hlink]
  refine ⟨⟨?_, ?_, hr.info⟩, (hsame b (by simp)).1.trans hsize, hwrites⟩
  · exact hr.free.congr fun c hc => hsame c (by simp [hc])
  · exact blockList_append.mpr
      ⟨_, hseg', hafter.congr fun c hc => hsame c (by simp [hc])⟩

/-- Putting a block that is on neither list between two parts of the free list. -/
theorem insert_represents (hr : Represents h ⟨before ++ after, alloc, info⟩)
    (hsize : blockSize h.mem b.addr = b.size)
    (hsep : Separated (b :: (before ++ after ++ alloc))) :
    let h₁ := { h with mem := setNext h.mem b.addr (headAddr after) }
    Represents (linkFree h₁ (lastAddr before) b.addr) ⟨before ++ b :: after, alloc, info⟩ ∧
      WritesHeaders h.mem (linkFree h₁ (lastAddr before) b.addr).mem (b :: before) := by
  obtain ⟨q, hseg, hafter⟩ := blockList_append.mp hr.free
  obtain rfl := hafter.head_eq
  have hb := hsep.addr_ne b (by simp)
  have hbstop := hsep.stop_le b (by simp)
  have hble := b.addr_add_le
  have hbaddr := b.addr_lt_stop
  have hafterLt : headAddr after < 2 ^ 64 := by
    cases after with
    | nil => simp [headAddr]
    | cons c cs =>
      have := hsep.stop_le c (by simp)
      have := c.addr_lt_stop
      simp only [headAddr, List.map_cons, List.headD_cons]
      omega
  have hsame₁ := hsep.sameHeader_setNext (m := h.mem) (v := headAddr after)
  set m₁ := setNext h.mem b.addr (headAddr after) with hm₁
  have hsep' : Separated (before ++ (b :: after ++ alloc)) := by
    refine hsep.perm ?_
    simp only [List.cons_append, List.append_assoc]
    exact List.perm_middle.symm
  have hseg₁ : BlockSeg m₁ h.freeList before (headAddr after) :=
    hseg.congr fun c hc => hsame₁ c (by simp [hc])
  obtain ⟨hseg', hsame₂, hwrites⟩ := redirect_spec hseg₁ hsep' (by omega : b.addr < 2 ^ 64)
  set m₂ := if lastAddr before ≠ 0 then setNext m₁ (lastAddr before) b.addr else m₁ with hm₂
  have hlink : linkFree { h with mem := m₁ } (lastAddr before) b.addr =
      { h with
        mem := m₂
        freeList := if lastAddr before ≠ 0 then h.freeList else b.addr } := by
    rw [linkFree, hm₂]
    split_ifs <;> rfl
  have hbsame := hsame₂ b (by simp)
  simp only [hlink]
  refine ⟨⟨?_, ?_, hr.info⟩, ?_⟩
  · refine blockList_append.mpr ⟨b.addr, hseg', blockList_cons.mpr ⟨rfl, hb, ?_, ?_⟩⟩
    · rw [hbsame.1, hm₁, blockSize_setNext_self (by omega), hsize]
    · rw [hbsame.2, hm₁, blockNext_setNext_self hafterLt]
      exact hafter.congr fun c hc => (hsame₁ c (by simp [hc])).trans (hsame₂ c (by simp [hc]))
  · exact hr.alloc.congr fun c hc => (hsame₁ c (by simp [hc])).trans (hsame₂ c (by simp [hc]))
  · exact (writesHeaders_setNext hbstop (by simp)).trans (hwrites.mono fun c hc => by simp [hc])

/-- The block made of two touching blocks. -/
def joined (l r : Block) : Block := ⟨l.addr, l.size + (sizeofBlockData + r.size)⟩

theorem joined_stop (htouch : l.stop = r.addr) : (joined l r).stop = r.stop :=
  stop_joined l r htouch

/-- Two touching blocks are apart from what both are apart from, joined as well. -/
theorem Separated.join {bs : List Block} (hsep : Separated (l :: r :: bs))
    (htouch : l.stop = r.addr) : Separated (joined l r :: bs) := by
  have hstop := joined_stop htouch
  have hrlt := r.addr_lt_stop
  have hllt := l.addr_lt_stop
  obtain ⟨hl, hrest⟩ := List.pairwise_cons.mp hsep.apart
  obtain ⟨hr, hbs⟩ := List.pairwise_cons.mp hrest
  refine ⟨fun c hc => ?_, fun c hc => ?_, List.pairwise_cons.mpr ⟨fun c hc => ?_, hbs⟩⟩
  · rcases List.mem_cons.mp hc with rfl | hc
    · exact hsep.addr_ne l (by simp)
    · exact hsep.addr_ne c (by simp [hc])
  · rcases List.mem_cons.mp hc with rfl | hc
    · rw [hstop]; exact hsep.stop_le r (by simp)
    · exact hsep.stop_le c (by simp [hc])
  · have hlc := hl c (by simp [hc])
    have hrc := hr c hc
    have hclt := c.addr_lt_stop
    show (joined l r).stop ≤ c.addr ∨ c.stop ≤ l.addr
    rw [hstop]
    rcases hlc with hlc | hlc
    · rcases hrc with hrc | hrc
      · exact Or.inl hrc
      · omega
    · exact Or.inr hlc

theorem isContiguous_iff {m : Mem} (hsize : blockSize m l.addr = l.size) (hl : l.stop ≤ 2 ^ 64)
    (hr : r.addr ≠ 0) (hr' : r.addr < 2 ^ 64) :
    isContiguous m l.addr r.addr = true ↔ l.stop = r.addr := by
  simp only [Block.stop, sizeofBlockData] at hl ⊢
  simp only [isContiguous, hsize, wadd, decide_eq_true_eq, sizeofBlockData]
  omega

theorem merge_represents (hr : Represents h ⟨before ++ l :: r :: after, alloc, info⟩)
    (hsep : Separated (before ++ l :: r :: after ++ alloc)) (htouch : l.stop = r.addr) :
    Represents (merge h l.addr r.addr) ⟨before ++ joined l r :: after, alloc, refundHeader info⟩ ∧
      Separated (before ++ joined l r :: after ++ alloc) ∧
      WritesHeaders h.mem (merge h l.addr r.addr).mem [l] := by
  have hsepl : Separated (l :: r :: (before ++ after ++ alloc)) := by
    refine hsep.perm ?_
    simp only [List.cons_append, List.append_assoc]
    exact List.perm_middle.trans (List.Perm.cons _ List.perm_middle)
  have hsep' : Separated (before ++ joined l r :: after ++ alloc) := by
    refine (hsepl.join htouch).perm ?_
    simp only [List.cons_append, List.append_assoc]
    exact List.perm_middle.symm
  obtain ⟨q, hseg, hrest⟩ := blockList_append.mp hr.free
  obtain ⟨rfl, hl, hlsize, hrest⟩ := blockList_cons.mp hrest
  obtain ⟨hlnext, -, hrsize, hafter⟩ := blockList_cons.mp hrest
  have hlstop := hsepl.stop_le l (by simp)
  have hrstop := hsepl.stop_le r (by simp)
  have hlle := l.addr_add_le
  have hstop := joined_stop htouch
  have hnextLt := blockNext_lt h.mem r.addr
  set m₁ := setNext h.mem l.addr (blockNext h.mem r.addr) with hm₁
  have hs₁ := hsepl.sameHeader_setNext (m := h.mem) (v := blockNext h.mem r.addr)
  have hl₁ : blockSize m₁ l.addr = l.size := by
    rw [hm₁, blockSize_setNext_self (by omega), hlsize]
  have hr₁ : blockSize m₁ r.addr = r.size := (hs₁ r (by simp)).1.trans hrsize
  have hsum : wadd l.size (wadd sizeofBlockData r.size) = (joined l r).size := by
    have hjoined : (joined l r).addr + 16 + (joined l r).size = (joined l r).stop := rfl
    have hjsize : (joined l r).size = l.size + (16 + r.size) := rfl
    simp only [wadd, sizeofBlockData]; omega
  set m₂ := setSize m₁ l.addr (joined l r).size with hm₂
  have hs₂ := hsepl.sameHeader_setSize (m := m₁) (v := (joined l r).size)
  have hval : merge h l.addr r.addr =
      { h with mem := m₂, memoryInfo := refundHeader info } := by
    simp only [merge, ← hm₁, hl₁, hr₁, hsum, ← hm₂, hr.info, refundHeader]
  have hsame : ∀ c ∈ before ++ after ++ alloc, SameHeader h.mem m₂ c.addr := fun c hc =>
    (hs₁ c (List.mem_cons_of_mem _ hc)).trans (hs₂ c (List.mem_cons_of_mem _ hc))
  have hjsize : (joined l r).size < 2 ^ 64 := by
    have hjoined : (joined l r).addr + 16 + (joined l r).size = (joined l r).stop := rfl
    omega
  rw [hval]
  refine ⟨⟨?_, hr.alloc.congr fun c hc => hsame c (by simp [hc]), rfl⟩, hsep', ?_⟩
  · refine blockList_append.mpr ⟨l.addr, hseg.congr fun c hc => hsame c (by simp [hc]), ?_⟩
    refine blockList_cons.mpr ⟨rfl, hl, blockSize_setSize_self hjsize, ?_⟩
    show BlockList m₂ (blockNext m₂ l.addr) after
    rw [hm₂, blockNext_setSize_self (by omega), hm₁, blockNext_setNext_self hnextLt]
    exact hafter.congr fun c hc => hsame c (by simp [hc])
  · exact (writesHeaders_setNext hlstop (by simp)).trans (writesHeaders_setSize (by simp))

/-- The test for a merge with the next free block, and the merge if it succeeds. -/
theorem mergeNext_represents (hr : Represents h ⟨before ++ l :: after, alloc, info⟩)
    (hsep : Separated (before ++ l :: after ++ alloc)) :
    let h' := if headAddr after ≠ 0 ∧ isContiguous h.mem l.addr (headAddr after) then
      merge h l.addr (headAddr after) else h
    ∃ merges, merges + (joinNext l after).length = after.length + 1 ∧
      Represents h' ⟨before ++ joinNext l after, alloc, refundHeader^[merges] info⟩ ∧
      Separated (before ++ joinNext l after ++ alloc) ∧ WritesHeaders h.mem h'.mem [l] := by
  have hlsize : blockSize h.mem l.addr = l.size := hr.free.size_eq l (by simp)
  cases after with
  | nil =>
    simp only [headAddr, List.map_nil, List.headD_nil, ne_eq, not_true_eq_false, false_and,
      if_false]
    exact ⟨0, rfl, hr, hsep, fun _ _ => rfl⟩
  | cons n ns =>
    have hhead : headAddr (n :: ns) = n.addr := rfl
    have hn := hsep.addr_ne n (by simp)
    have hnstop := hsep.stop_le n (by simp)
    have hnlt := n.addr_lt_stop
    have hiff := isContiguous_iff hlsize (hsep.stop_le l (by simp)) hn (by omega)
    simp only [hhead, ne_eq, hn, not_false_eq_true, true_and, hiff]
    by_cases htouch : l.stop = n.addr
    · obtain ⟨hr', hsep', hw⟩ := merge_represents hr hsep htouch
      have hjoin : joinNext l (n :: ns) = joined l n :: ns := by
        simp only [joinNext, if_pos htouch]; rfl
      rw [if_pos htouch, hjoin]
      exact ⟨1, by simp only [List.length_cons]; omega, hr', hsep', hw⟩
    · have hjoin : joinNext l (n :: ns) = l :: n :: ns := by simp only [joinNext, if_neg htouch]
      rw [if_neg htouch, hjoin]
      exact ⟨0, by simp, hr, hsep, fun _ _ => rfl⟩

theorem joinPrev_append_singleton (init bs : List Block) (p : Block) (hbs : bs ≠ []) :
    joinPrev (init ++ [p]) bs = init ++ joinNext p bs := by
  cases bs with
  | nil => exact absurd rfl hbs
  | cons d ds =>
    simp only [joinPrev, joinNext, List.getLast?_concat, List.dropLast_concat]
    split_ifs
    · rfl
    · simp

theorem releaseBlock_represents (hr : Represents h ⟨before ++ after, alloc, info⟩)
    (hsize : blockSize h.mem b.addr = b.size)
    (hsep : Separated (b :: (before ++ after ++ alloc))) :
    let h' := releaseBlock h (lastAddr before) (headAddr after) b.addr
    ∃ merges,
      merges + (joinPrev before (joinNext b after)).length = before.length + after.length + 1 ∧
      Represents h' ⟨joinPrev before (joinNext b after), alloc,
        refundHeader^[merges] { info with free := wadd info.free b.size }⟩ ∧
      WritesHeaders h.mem h'.mem (b :: before) := by
  -- both ways the code picks the new block's link give the block after it
  have hlink : (if lastAddr before = 0 then h.freeList else headAddr after) = headAddr after := by
    rcases List.eq_nil_or_concat before with rfl | ⟨init, p, rfl⟩
    · rw [lastAddr_nil, if_pos rfl, hr.free.head_eq, List.nil_append]
    · rw [List.concat_eq_append, lastAddr_append_singleton, if_neg]
      exact hsep.addr_ne p (by simp)
  obtain ⟨hr₁, hw₁⟩ := insert_represents hr hsize hsep
  set h₁ := linkFree { h with mem := setNext h.mem b.addr (headAddr after) } (lastAddr before)
    b.addr with hh₁
  have hbsize₁ : blockSize h₁.mem b.addr = b.size := hr₁.free.size_eq b (by simp)
  set h₂ : Heap := { h₁ with
    memoryInfo := { h₁.memoryInfo with free := wadd h₁.memoryInfo.free b.size } } with hh₂
  have hr₂ : Represents h₂
      ⟨before ++ b :: after, alloc, { info with free := wadd info.free b.size }⟩ :=
    ⟨hr₁.free, hr₁.alloc, by simp only [hh₂, hr₁.info]⟩
  have hsep₂ : Separated (before ++ b :: after ++ alloc) := by
    refine hsep.perm ?_
    simp only [List.cons_append, List.append_assoc]
    exact List.perm_middle.symm
  obtain ⟨k₁, hk₁, hr₃, hsep₃, hw₃⟩ := mergeNext_represents hr₂ hsep₂
  set h₃ := if headAddr after ≠ 0 ∧ isContiguous h₂.mem b.addr (headAddr after) then
    merge h₂ b.addr (headAddr after) else h₂ with hh₃
  have hval : releaseBlock h (lastAddr before) (headAddr after) b.addr =
      if lastAddr before ≠ 0 ∧ isContiguous h₃.mem (lastAddr before) b.addr then
        merge h₃ (lastAddr before) b.addr else h₃ := by
    simp only [releaseBlock, hlink, ← hh₁, hbsize₁, ← hh₂]
    rfl
  have hw₁₃ : WritesHeaders h.mem h₃.mem (b :: before) :=
    hw₁.trans (hw₃.mono fun c hc => by simp_all)
  obtain ⟨d, ds, hd, hdaddr⟩ := joinNext_eq_cons b after
  have hdhead : headAddr (joinNext b after) = b.addr := by
    rw [hd, ← hdaddr]; rfl
  have hb := hsep.addr_ne b (by simp)
  simp only [hval]
  rcases List.eq_nil_or_concat before with rfl | ⟨init, p, rfl⟩
  · simp only [lastAddr_nil, ne_eq, not_true_eq_false, false_and, if_false]
    refine ⟨k₁, ?_, ?_, hw₁₃⟩
    · rw [hd] at hk₁ ⊢; simpa [joinPrev] using hk₁
    · rw [hd] at hr₃ ⊢; simpa [joinPrev] using hr₃
  · rw [List.concat_eq_append] at *
    have hr₃' : Represents h₃ ⟨init ++ p :: joinNext b after, alloc,
        refundHeader^[k₁] { info with free := wadd info.free b.size }⟩ := by
      simpa using hr₃
    have hsep₃' : Separated (init ++ p :: joinNext b after ++ alloc) := by simpa using hsep₃
    obtain ⟨k₂, hk₂, hr₄, -, hw₄⟩ := mergeNext_represents hr₃' hsep₃'
    have hp := hsep.addr_ne p (by simp)
    simp only [hdhead, ne_eq, hb, not_false_eq_true, true_and] at hr₄ hw₄
    simp only [lastAddr_append_singleton, ne_eq, hp, not_false_eq_true, true_and]
    have hne : joinNext b after ≠ [] := by rw [hd]; simp
    rw [joinPrev_append_singleton _ _ _ hne]
    refine ⟨k₂ + k₁, ?_, ?_, hw₁₃.trans (hw₄.mono fun c hc => by simp_all)⟩
    · simp only [List.length_append, List.length_singleton]; omega
    · rw [Function.iterate_add_apply]; exact hr₄

/-! ## `free` -/

/-- The walk to a live block passes only blocks at other addresses. -/
theorem find_addr {lo hi : ℕ} (hwf : Wf lo hi L) (hb : b ∈ L.alloc) :
    ∃ before after, L.alloc = before ++ b :: after ∧ ∀ c ∈ before, c.addr ≠ b.addr := by
  obtain ⟨before, after, halloc⟩ := List.append_of_mem hb
  refine ⟨before, after, halloc, fun c hc => ?_⟩
  have hapart := hwf.alloc_apart
  rw [halloc] at hapart
  exact ((List.pairwise_append.mp hapart).2.2 c hc b (by simp)).addr_ne

/-- The raw `free` computes `Layout.release` and writes to headers of existing blocks only. -/
theorem free_refines {lo hi : ℕ} (hr : Represents h L) (hwf : Wf lo hi L) (ptr : ℕ) :
    ∃ h', FirstFit.free h ptr = some h' ∧ Represents h' (release L ptr) ∧
      WritesHeaders h.mem h'.mem L.blocks := by
  have hsep := hwf.separated
  have hlen : L.alloc.length < walkBound :=
    (hsep.sublist (List.sublist_append_right _ _)).length_lt
  set block := wsub ptr sizeofBlockData with hblock
  have hwalk := hr.alloc.advance_eq hlen (fun a => a ≠ block) (fun b => b.addr ≠ block)
    fun _ _ => rfl
  rcases release_cases L ptr with ⟨hnone, hval⟩ | ⟨b, hb, haddr, hval⟩
  · -- no live block there: the walk ends at the null pointer
    have hdrop : L.alloc.dropWhile (fun b => decide (b.addr ≠ block)) = [] := by
      simpa [List.dropWhile_eq_nil_iff, hblock] using hnone
    refine ⟨h, ?_, by rw [hval]; exact hr, fun _ _ => rfl⟩
    rw [hdrop] at hwalk
    simp only [FirstFit.free, ← hblock, hwalk]
    rfl
  replace haddr : b.addr = block := haddr
  clear_value block
  subst haddr
  obtain ⟨before, after, halloc, hbefore⟩ := find_addr hwf hb
  have htake : L.alloc.takeWhile (fun c => decide (c.addr ≠ b.addr)) = before := by
    rw [halloc, List.takeWhile_append_of_pos (by simpa using hbefore),
      List.takeWhile_cons_of_neg (by simp), List.append_nil]
  have hdrop : L.alloc.dropWhile (fun c => decide (c.addr ≠ b.addr)) = b :: after := by
    rw [halloc, List.dropWhile_append_of_pos (by simpa using hbefore),
      List.dropWhile_cons_of_neg (by simp)]
  have herase : L.alloc.erase b = before ++ after := by
    rw [halloc, List.erase_append_right _ fun hmem => hbefore b hmem rfl, List.erase_cons_head]
  rw [htake, hdrop] at hwalk
  obtain ⟨hr₁, hsize₁, hw₁⟩ := unlinkAlloc_represents hr hsep halloc
  set h₁ := linkAlloc h (lastAddr before) (blockNext h.mem b.addr) with hh₁
  set h₂ : Heap := { h₁ with
    memoryInfo := { h₁.memoryInfo with
      allocated := wsub h₁.memoryInfo.allocated (blockSize h₁.mem b.addr) } } with hh₂
  set info : MemoryInfo := { L.info with allocated := wsub L.info.allocated b.size } with hinfo
  have hr₂ : Represents h₂ ⟨L.free, before ++ after, info⟩ :=
    ⟨hr₁.free, hr₁.alloc, by simp only [hh₂, hr₁.info, hsize₁, hinfo]⟩
  have hwalk₂ := hr₂.free.advance_eq
    (hsep.sublist (List.sublist_append_left _ _)).length_lt
    (fun a => a < b.addr) (fun c => c.addr < b.addr) fun _ _ => rfl
  set below := L.free.takeWhile (fun c => decide (c.addr < b.addr)) with hbelow
  set above := L.free.dropWhile (fun c => decide (c.addr < b.addr)) with habove
  have hfree : L.free = below ++ above := List.takeWhile_append_dropWhile.symm
  have hsep₂ : Separated (b :: (below ++ above ++ (before ++ after))) := by
    refine hsep.perm ?_
    rw [blocks, hfree, halloc]
    exact ((List.Perm.append_left _ List.perm_middle).trans List.perm_middle)
  rw [hfree] at hr₂
  obtain ⟨merges, hmerges, hr₃, hw₃⟩ := releaseBlock_represents hr₂ hsize₁ hsep₂
  have hraw : FirstFit.free h ptr =
      some (releaseBlock h₂ (lastAddr below) (headAddr above) b.addr) := by
    have hhead : headAddr (b :: after) = b.addr := rfl
    have hb0 : b.addr ≠ 0 := hsep.addr_ne b (List.mem_append_right _ hb)
    have hwalk₃ : advance (blockNext h₁.mem) (fun a => decide (a < b.addr)) walkBound 0
        h₁.freeList = some (lastAddr below, headAddr above) := hwalk₂
    simp only [FirstFit.free, ← hblock, hwalk, hhead, if_neg hb0, ← hh₁, hwalk₃]
    rfl
  have hcount : L.free.length + 1 - (insertFree b L.free).length = merges := by
    rw [insertFree, ← hbelow, ← habove, hfree, List.length_append]
    omega
  refine ⟨_, hraw, ?_, ?_⟩
  · rw [hval, hcount, herase]
    exact hr₃
  · refine (hw₁.mono fun c hc => ?_).trans (hw₃.mono fun c hc => ?_)
    · exact List.mem_append_right _ (by simp [halloc, hc])
    · rcases List.mem_cons.mp hc with rfl | hc
      · exact List.mem_append_right _ hb
      · exact List.mem_append_left _ (hfree ▸ List.mem_append_left _ hc)

end TronKernel.FirstFit
