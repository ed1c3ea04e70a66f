import TronKernel.Heap.FreeOrder

/-!
# The counters of the first-fit heap

`memory_info` is adjusted by one assignment after the other. `Call.updates` lists the assignments of
a call in the order of the code, and `Exact` says that none of them wraps; `malloc_updates` and
`free_updates` are what ties the list to the code. The counters say what the two lists say
(`Accounted`) after every call of a run, and no assignment wraps, exactly if the region does not
begin at the null pointer, which no list can hold, and no split test of `malloc` wraps
(`counters_exact`).
-/

namespace TronKernel.FirstFit

open Mem LinkedList Layout Runs Tiling

/-! ## The assignments of a call -/

/-- `memory_info.allocated += n` or `memory_info.free += n`, with a negative `n` for `-=`. -/
inductive Update where
  | allocated (n : ℤ)
  | free (n : ℤ)
deriving DecidableEq

/-- The assigned value, before it is reduced to a `size_t`. -/
def Update.value (info : MemoryInfo) : Update → ℤ
  | .allocated n => info.allocated + n
  | .free n => info.free + n

def Update.apply (info : MemoryInfo) : Update → MemoryInfo
  | .allocated n => { info with allocated := ((info.allocated + n) % 2 ^ 64).toNat }
  | .free n => { info with free := ((info.free + n) % 2 ^ 64).toNat }

/-- None of the assignments wraps. -/
def Exact : MemoryInfo → List Update → Prop
  | _, [] => True
  | info, u :: us => 0 ≤ u.value info ∧ u.value info < 2 ^ 64 ∧ Exact (u.apply info) us

/-- The assignments for a header that becomes allocated bytes. -/
def chargeHeader : List Update := [.allocated sizeofBlockData, .free (-sizeofBlockData)]

/-- The assignments of a merge. -/
def mergeHeader : List Update := [.allocated (-sizeofBlockData), .free sizeofBlockData]

/-- The assignments of `malloc`. -/
def mallocUpdates (h : Heap) (size : ℕ) : List Update :=
  if size = 0 then []
  else
    let size := alignSize size
    match advance (blockNext h.mem) (fun b => blockSize h.mem b < size) walkBound 0 h.freeList with
    | none => []
    | some (previous, block) =>
      if block = 0 then []
      else
        let isSplit := blockSize h.mem block ≥ wadd (wadd size sizeofBlockData) sizeofSizeT
        let h := if isSplit then split h block size else h
        let h := linkFree h previous (blockNext h.mem block)
        let m := setNext h.mem block h.allocList
        (if isSplit then chargeHeader else []) ++
          [.free (-blockSize h.mem block), .allocated (blockSize m block)]

/-- The assignments of `free` behind the search for the block's place. -/
def releaseUpdates (h : Heap) (previous next block : ℕ) : List Update :=
  let h := { h with mem := setNext h.mem block (if previous = 0 then h.freeList else next) }
  let h := linkFree h previous block
  let size := blockSize h.mem block
  let h := { h with memoryInfo := { h.memoryInfo with free := wadd h.memoryInfo.free size } }
  let isNext := next ≠ 0 ∧ isContiguous h.mem block next
  let h := if isNext then merge h block next else h
  .free size :: (if isNext then mergeHeader else []) ++
    if previous ≠ 0 ∧ isContiguous h.mem previous block then mergeHeader else []

/-- The assignments of `free`. -/
def freeUpdates (h : Heap) (ptr : ℕ) : List Update :=
  let block := wsub ptr sizeofBlockData
  match advance (blockNext h.mem) (fun b => b ≠ block) walkBound 0 h.allocList with
  | none => []
  | some (previous, found) =>
    if found = 0 then []
    else
      let h := linkAlloc h previous (blockNext h.mem found)
      let size := blockSize h.mem block
      let h :=
        { h with
          memoryInfo :=
            { h.memoryInfo with allocated := wsub h.memoryInfo.allocated size } }
      .allocated (-size) ::
        match advance (blockNext h.mem) (fun b => b < block) walkBound 0 h.freeList with
        | none => []
        | some (previous, next) => releaseUpdates h previous next block

/-- The assignments of a call to the two counters, in the order of the code. -/
def Call.updates (h : Heap) : Call → List Update
  | .malloc size => mallocUpdates h size.toNat
  | .free ptr => freeUpdates h ptr.toNat

/-! ## They are what the code computes -/

theorem apply_allocated (info : MemoryInfo) (n : ℕ) :
    (Update.allocated n).apply info = { info with allocated := wadd info.allocated n } := rfl

theorem apply_free (info : MemoryInfo) (n : ℕ) :
    (Update.free n).apply info = { info with free := wadd info.free n } := rfl

theorem apply_allocated_neg (info : MemoryInfo) (n : ℕ) :
    (Update.allocated (-n)).apply info = { info with allocated := wsub info.allocated n } := by
  simp only [Update.apply, wsub]
  congr 1
  omega

theorem apply_free_neg (info : MemoryInfo) (n : ℕ) :
    (Update.free (-n)).apply info = { info with free := wsub info.free n } := by
  simp only [Update.apply, wsub]
  congr 1
  omega

theorem foldl_mergeHeader (info : MemoryInfo) :
    mergeHeader.foldl Update.apply info = refundHeader info := by
  simp only [mergeHeader, List.foldl_cons, List.foldl_nil, apply_allocated_neg, apply_free,
    refundHeader]

theorem foldl_chargeHeader (info : MemoryInfo) :
    chargeHeader.foldl Update.apply info =
      { info with
        allocated := wadd info.allocated sizeofBlockData
        free := wsub info.free sizeofBlockData } := by
  simp only [chargeHeader, List.foldl_cons, List.foldl_nil, apply_allocated, apply_free_neg]

theorem linkFree_info (h : Heap) (previous next : ℕ) :
    (linkFree h previous next).memoryInfo = h.memoryInfo := by
  rw [linkFree]
  split_ifs <;> rfl

theorem linkAlloc_info (h : Heap) (previous next : ℕ) :
    (linkAlloc h previous next).memoryInfo = h.memoryInfo := by
  rw [linkAlloc]
  split_ifs <;> rfl

theorem takeBlock_info (h : Heap) (previous block : ℕ) :
    let h' := linkFree h previous (blockNext h.mem block)
    (takeBlock h previous block).memoryInfo =
      [Update.free (-blockSize h'.mem block),
        .allocated (blockSize (setNext h'.mem block h'.allocList) block)].foldl Update.apply
          h.memoryInfo := by
  simp only [List.foldl_cons, List.foldl_nil, apply_free_neg, apply_allocated, takeBlock,
    linkFree_info]

theorem malloc_updates {h h' : Heap} {size p : ℕ} (hval : malloc h size = some (h', p)) :
    h'.memoryInfo = (mallocUpdates h size).foldl Update.apply h.memoryInfo := by
  simp only [malloc] at hval
  simp only [mallocUpdates]
  by_cases h0 : size = 0
  · simp only [if_pos h0, Option.some.injEq, Prod.mk.injEq] at hval
    simp only [if_pos h0, ← hval.1, List.foldl_nil]
  simp only [if_neg h0] at hval ⊢
  cases hwalk : advance (blockNext h.mem) (fun b => blockSize h.mem b < alignSize size) walkBound 0
    h.freeList with
  | none => simp [hwalk] at hval
  | some place =>
    obtain ⟨previous, block⟩ := place
    simp only [hwalk] at hval ⊢
    by_cases hb : block = 0
    · simp only [if_pos hb, Option.some.injEq, Prod.mk.injEq] at hval
      simp only [if_pos hb, ← hval.1, List.foldl_nil]
    simp only [if_neg hb, Option.some.injEq, Prod.mk.injEq] at hval ⊢
    rw [← hval.1, takeBlock_info, List.foldl_append]
    split_ifs
    · rw [foldl_chargeHeader]
      rfl
    · rfl

theorem merge_info (h : Heap) (left right : ℕ) :
    (merge h left right).memoryInfo = mergeHeader.foldl Update.apply h.memoryInfo := by
  rw [foldl_mergeHeader]
  rfl

theorem releaseBlock_updates (h : Heap) (previous next block : ℕ) :
    (releaseBlock h previous next block).memoryInfo =
      (releaseUpdates h previous next block).foldl Update.apply h.memoryInfo := by
  simp only [releaseBlock, releaseUpdates, List.cons_append, List.foldl_cons, List.foldl_append,
    apply_free]
  set h₁ :=
    linkFree { h with mem := setNext h.mem block (if previous = 0 then h.freeList else next) }
    previous block with hh₁
  rw [← show h₁.memoryInfo = h.memoryInfo from linkFree_info _ _ _]
  by_cases hnext : next ≠ 0 ∧ isContiguous h₁.mem block next = true
  · simp only [if_pos hnext]
    split_ifs <;> simp only [merge_info, List.foldl_nil]
  · simp only [if_neg hnext, List.foldl_nil]
    split_ifs <;> simp only [merge_info, List.foldl_nil]

theorem free_updates {h h' : Heap} {ptr : ℕ} (hval : free h ptr = some h') :
    h'.memoryInfo = (freeUpdates h ptr).foldl Update.apply h.memoryInfo := by
  rw [free] at hval
  rw [freeUpdates]
  cases hwalk : advance (blockNext h.mem) (fun b => b ≠ wsub ptr sizeofBlockData) walkBound 0
    h.allocList with
  | none =>
    simp only [hwalk] at hval
    cases hval
  | some place =>
    obtain ⟨previous, found⟩ := place
    simp only [hwalk] at hval ⊢
    by_cases hfound : found = 0
    · simp only [if_pos hfound, Option.some.injEq] at hval
      simp only [if_pos hfound, ← hval, List.foldl_nil]
    simp only [if_neg hfound, List.foldl_cons, apply_allocated_neg, ← linkAlloc_info h previous
      (blockNext h.mem found)] at hval ⊢
    set h₁ := linkAlloc h previous (blockNext h.mem found) with hh₁
    cases hplace : advance (blockNext h₁.mem) (fun b => b < wsub ptr sizeofBlockData) walkBound 0
      h₁.freeList with
    | none =>
      simp only [hplace] at hval
      cases hval
    | some place =>
      simp only [hplace, Option.some.injEq] at hval ⊢
      rw [← hval, releaseBlock_updates]

/-! ## What the assignments move -/

variable {lo hi : ℕ} {h : Heap} {L : Layout}

theorem wsub_inj {x s t : ℕ} (hs : s < 2 ^ 64) (ht : t < 2 ^ 64) (heq : wsub x s = wsub x t) :
    s = t := by
  simp only [wsub] at heq
  omega

theorem wadd_inj {x s t : ℕ} (hs : s < 2 ^ 64) (ht : t < 2 ^ 64) (heq : wadd x s = wadd x t) :
    s = t := by
  simp only [wadd] at heq
  omega

theorem blockSize_lt (m : Mem) (b : ℕ) : blockSize m b < 2 ^ 64 := load64_lt m b

/-- The assignments of a `malloc` that hands out `taken` bytes. -/
def takeUpdates (isSplit : Bool) (taken : ℕ) : List Update :=
  (if isSplit then chargeHeader else []) ++ [.free (-taken), .allocated taken]

/-- What `malloc` charges can be read off the counters. -/
theorem charge_inj {info : MemoryInfo} {isSplit : Bool} {s t taken : ℕ} (hs : s < 2 ^ 64)
    (ht : t < 2 ^ 64) (htaken : taken < 2 ^ 64)
    (heq : ((if isSplit then chargeHeader else []) ++
      [Update.free (-s), .allocated t]).foldl Update.apply info = chargeBlock info isSplit taken) :
    s = taken ∧ t = taken := by
  cases isSplit
  · simp only [Bool.false_eq_true, if_false, List.nil_append, List.foldl_cons, List.foldl_nil,
      apply_free_neg, apply_allocated, chargeBlock, MemoryInfo.mk.injEq] at heq
    exact ⟨wsub_inj hs htaken heq.2.1, wadd_inj ht htaken heq.1⟩
  · simp only [if_true, List.foldl_append, foldl_chargeHeader, List.foldl_cons, List.foldl_nil,
      apply_free_neg, apply_allocated, chargeBlock, MemoryInfo.mk.injEq] at heq
    exact ⟨wsub_inj hs htaken heq.2.1, wadd_inj ht htaken heq.1⟩

/-- The search of `malloc` ends at the first block that is large enough. -/
theorem walk_first (hr : Represents h L) (hwf : Wf lo hi L) {before after : List Block} {b : Block}
    {size : ℕ} (hfree : L.free = before ++ b :: after) (hbefore : ∀ c ∈ before, c.size < size)
    (hfit : size ≤ b.size) :
    advance (blockNext h.mem) (fun a => blockSize h.mem a < size) walkBound 0 h.freeList =
      some (lastAddr before, b.addr) := by
  rw [walk_free hr hwf, hfree, List.takeWhile_append_of_pos (by simpa using hbefore),
    List.takeWhile_cons_of_neg (by simpa using hfit), List.append_nil,
    List.dropWhile_append_of_pos (by simpa using hbefore),
    List.dropWhile_cons_of_neg (by simpa using hfit)]
  rfl

/-- `malloc` assigns nothing, or it charges a free block or the front of one. -/
theorem mallocUpdates_eq (hr : Represents h L) (hwf : Wf lo hi L) (n : ℕ) :
    (mallocUpdates h n = [] ∧ (n = 0 ∨ ∀ b ∈ L.free, b.size < alignSize n)) ∨
      ∃ b ∈ L.free, alignSize n ≤ b.size ∧
        ((alignSize n + 24 ≤ b.size ∧ mallocUpdates h n = takeUpdates true (alignSize n)) ∨
          (splits b (alignSize n) → alignSize n = b.size ∧ b.stop = 2 ^ 64 ∧ b.addr = 8) ∧
            mallocUpdates h n = takeUpdates (splits b (alignSize n)) b.size) := by
  obtain ⟨h', hval, hr', -⟩ := malloc_refines hr hwf (n := n)
  have hinfo := (malloc_updates hval).symm.trans hr'.info
  rcases malloc_cases hwf n with ⟨hnone, -⟩ | ⟨before, b, after, hn, hfree, hbefore, hfit, hcase⟩
  · refine Or.inl ⟨?_, hnone⟩
    rcases hnone with rfl | hnone
    · rfl
    · by_cases hn : n = 0
      · rw [mallocUpdates, if_pos hn]
      have hdrop : L.free.dropWhile (fun b => decide (b.size < alignSize n)) = [] := by
        simpa [List.dropWhile_eq_nil_iff] using hnone
      simp only [mallocUpdates, if_neg hn, walk_free hr hwf, hdrop]
      rfl
  have hb : b ∈ L.free := by simp [hfree]
  have hb0 := hwf.separated.addr_ne b (List.mem_append_left _ hb)
  -- the code reads the size twice, behind the edits of the links
  set h₁ := if splits b (alignSize n) then split h b.addr (alignSize n) else h with hh₁
  set h₂ := linkFree h₁ (lastAddr before) (blockNext h₁.mem b.addr) with hh₂
  have hs := blockSize_lt h₂.mem b.addr
  have ht := blockSize_lt (setNext h₂.mem b.addr h₂.allocList) b.addr
  have hraw : mallocUpdates h n = (if decide (splits b (alignSize n)) then chargeHeader else []) ++
      [.free (-blockSize h₂.mem b.addr),
        .allocated (blockSize (setNext h₂.mem b.addr h₂.allocList) b.addr)] := by
    simp only [mallocUpdates, if_neg hn, walk_first hr hwf hfree hbefore hfit, if_neg hb0,
      hr.free.size_eq b hb, decide_eq_true_eq]
    rfl
  clear_value h₂
  generalize blockSize h₂.mem b.addr = s at *
  generalize blockSize (setNext h₂.mem b.addr h₂.allocList) b.addr = t at *
  have hbsize : b.size < 2 ^ 64 := by
    have := (hwf.within (List.mem_append_left _ hb)).2
    have := hwf.hi_le
    simp only [Block.stop, sizeofBlockData] at *
    omega
  refine Or.inr ⟨b, hb, hfit, ?_⟩
  rw [hraw] at hinfo ⊢
  rw [hr.info] at hinfo
  rcases hcase with ⟨hroom, hL⟩ | ⟨-, hcorner, hL⟩
  · have hsplits : splits b (alignSize n) := by
      simp only [splits, wadd, sizeofBlockData, sizeofSizeT]
      omega
    rw [hL, decide_eq_true hsplits] at hinfo
    rw [decide_eq_true hsplits]
    obtain ⟨rfl, rfl⟩ := charge_inj hs ht (hfit.trans_lt hbsize) hinfo
    exact Or.inl ⟨hroom, rfl⟩
  · rw [hL] at hinfo
    obtain ⟨rfl, rfl⟩ := charge_inj hs ht hbsize hinfo
    exact Or.inr ⟨hcorner, rfl⟩

/-- The headers and the payloads fill the region. -/
theorem Layout.Wf.charged_add_payload (hwf : Wf lo hi L) :
    charged L + payload L.free = hi - lo := by
  rw [← hwf.tiles.sum_length fun b _ => b.addr_lt_stop]
  have hlength : ∀ bs : List Block, (bs.map fun b => b.stop - b.addr).sum =
      payload bs + sizeofBlockData * bs.length := fun bs => by
    induction bs with
    | nil => rfl
    | cons b bs ih =>
      have hb : b.stop - b.addr = b.size + sizeofBlockData := by
        simp only [Block.stop]
        omega
      simp only [List.map_cons, List.sum_cons, payload_cons, List.length_cons, ih, hb, Nat.mul_succ]
      omega
  rw [hlength, blocks, payload_append, List.length_append, charged]
  omega

/-- The assignments of a number of merges. -/
def merges (k : ℕ) : List Update := (List.replicate k mergeHeader).flatten

theorem foldl_merges (info : MemoryInfo) (k : ℕ) :
    (merges k).foldl Update.apply info = refundHeader^[k] info := by
  induction k generalizing info with
  | zero => rfl
  | succ k ih =>
    rw [merges, List.replicate_succ, List.flatten_cons, List.foldl_append, foldl_mergeHeader,
      Function.iterate_succ_apply]
    exact ih _

/-- The assignments of a `free` that gives back `size` bytes and merges `k` times. -/
def giveUpdates (size k : ℕ) : List Update := .allocated (-size) :: .free size :: merges k

/-- There are at most two merges. -/
theorem releaseUpdates_eq (h : Heap) (previous next block : ℕ) :
    ∃ s k : ℕ, s < 2 ^ 64 ∧ k ≤ 2 ∧ releaseUpdates h previous next block = .free s :: merges k := by
  simp only [releaseUpdates]
  set h₁ :=
    linkFree { h with mem := setNext h.mem block (if previous = 0 then h.freeList else next) }
    previous block
  refine ⟨blockSize h₁.mem block, ?_⟩
  have hs := blockSize_lt h₁.mem block
  generalize blockSize h₁.mem block = s at *
  split_ifs
  · exact ⟨2, hs, Nat.le_refl 2, rfl⟩
  · exact ⟨1, hs, by decide, rfl⟩
  · exact ⟨1, hs, by decide, rfl⟩
  · exact ⟨0, hs, by decide, rfl⟩

/-- What `free` gives back and how often it merges can be read off the counters. -/
theorem refund_inj {info : MemoryInfo} {size s k m : ℕ} (hs : s < 2 ^ 64) (hsize : size < 2 ^ 64)
    (hk : k ≤ 2) (hm : sizeofBlockData * m < 2 ^ 64)
    (heq : refundHeader^[k] { info with
        allocated := wsub info.allocated size, free := wadd info.free s } =
      refundBlock info size m) : s = size ∧ k = m := by
  rw [refundBlock] at heq
  have ha₁ := refundHeader_allocated
    { info with allocated := wsub info.allocated size, free := wadd info.free s } k
  have ha₂ := refundHeader_allocated
    { info with allocated := wsub info.allocated size, free := wadd info.free size } m
  have hf₁ := refundHeader_free
    { info with allocated := wsub info.allocated size, free := wadd info.free s } k
  have hf₂ := refundHeader_free
    { info with allocated := wsub info.allocated size, free := wadd info.free size } m
  rw [heq] at ha₁ hf₁
  have hkm : k = m := by
    have hmod := Nat.ModEq.add_left_cancel' _ (ha₁.trans ha₂.symm)
    have := hmod.eq_of_lt_of_lt (by simp only [sizeofBlockData]; omega) hm
    simp only [sizeofBlockData] at this
    omega
  subst hkm
  have hmod := Nat.ModEq.add_right_cancel' _ (hf₁.symm.trans hf₂)
  exact ⟨wadd_inj hs hsize (hmod.eq_of_lt_of_lt (wadd_lt ..) (wadd_lt ..)), rfl⟩

/-- `free` assigns nothing, or it gives back a live block and the headers of its merges. -/
theorem freeUpdates_eq (hr : Represents h L) (hwf : Wf lo hi L) (ptr : ℕ) :
    (freeUpdates h ptr = [] ∧ release L ptr = L) ∨
      ∃ b ∈ L.alloc, freeUpdates h ptr =
          giveUpdates b.size (L.free.length + 1 - (insertFree b L.free).length) ∧
        release L ptr = ⟨insertFree b L.free, L.alloc.erase b,
          refundBlock L.info b.size (L.free.length + 1 - (insertFree b L.free).length)⟩ := by
  obtain ⟨h', hval, hr', -⟩ := free_refines hr hwf ptr
  have hinfo := (free_updates hval).symm.trans hr'.info
  have hsep := hwf.separated
  have hlen : L.alloc.length < walkBound :=
    (hsep.sublist (List.sublist_append_right _ _)).length_lt
  have hwalk := hr.alloc.advance_eq hlen (fun a => a ≠ wsub ptr sizeofBlockData)
    (fun b => b.addr ≠ wsub ptr sizeofBlockData) fun _ _ => rfl
  rcases release_cases L ptr with ⟨hnone, hL⟩ | ⟨b, hb, haddr, hL⟩
  · refine Or.inl ⟨?_, hL⟩
    have hdrop : L.alloc.dropWhile (fun b => decide (b.addr ≠ wsub ptr sizeofBlockData)) = [] := by
      simpa [List.dropWhile_eq_nil_iff] using hnone
    rw [hdrop] at hwalk
    simp only [freeUpdates, hwalk]
    rfl
  refine Or.inr ⟨b, hb, ?_, hL⟩
  obtain ⟨before, after, halloc, hbefore⟩ := find_addr hwf hb
  rw [haddr] at hbefore
  rw [halloc, List.takeWhile_append_of_pos (by simpa using hbefore),
    List.takeWhile_cons_of_neg (by simpa using haddr), List.append_nil,
    List.dropWhile_append_of_pos (by simpa using hbefore),
    List.dropWhile_cons_of_neg (by simpa using haddr)] at hwalk
  obtain ⟨hr₁, hsize, -⟩ := unlinkAlloc_represents hr hsep halloc
  have hb0 := hsep.addr_ne b (List.mem_append_right _ hb)
  have hhead : headAddr (b :: after) = b.addr := rfl
  set h₁ := linkAlloc h (lastAddr before) (blockNext h.mem b.addr) with hh₁
  have hplace := hr₁.free.advance_eq (hsep.sublist (List.sublist_append_left _ _)).length_lt
    (fun a => a < wsub ptr sizeofBlockData) (fun c => c.addr < wsub ptr sizeofBlockData)
    fun _ _ => rfl
  obtain ⟨s, k, hs, hk, hraw⟩ : ∃ s k : ℕ, s < 2 ^ 64 ∧ k ≤ 2 ∧
      freeUpdates h ptr = .allocated (-b.size) :: .free s :: merges k := by
    simp only [freeUpdates, hwalk, hhead, if_neg hb0, ← hh₁, hplace]
    obtain ⟨s, k, hs, hk, hval⟩ := releaseUpdates_eq
      { h₁ with
        memoryInfo :=
          { h₁.memoryInfo with
            allocated := wsub h₁.memoryInfo.allocated (blockSize h₁.mem (wsub ptr 16)) } }
      (lastAddr (L.free.takeWhile fun c => c.addr < wsub ptr sizeofBlockData))
      (headAddr (L.free.dropWhile fun c => c.addr < wsub ptr sizeofBlockData))
      (wsub ptr sizeofBlockData)
    exact ⟨s, k, hs, hk, by rw [hval, ← haddr, hsize]⟩
  have hbsize : b.size < 2 ^ 64 := by
    have := (hwf.within (List.mem_append_right _ hb)).2
    have := hwf.hi_le
    simp only [Block.stop, sizeofBlockData] at *
    omega
  -- the merged headers are bytes of the region
  have hmerges : sizeofBlockData * (L.free.length + 1 - (insertFree b L.free).length) < 2 ^ 64 := by
    have hfill := (wf_release hwf ptr).charged_add_payload
    have hpay := (uncharged_release hb L.info).1
    have := hwf.hi_le
    have := hwf.lo_pos
    rw [hL] at hfill
    simp only at hfill
    omega
  rw [hraw, hr.info, hL, List.foldl_cons, apply_allocated_neg, List.foldl_cons, apply_free,
    foldl_merges] at hinfo
  obtain ⟨rfl, rfl⟩ := refund_inj hs hbsize hk hmerges hinfo
  rw [hraw, giveUpdates]

/-! ## A call that wraps nothing -/

/-- The counters of a layout say what its lists say. -/
structure Accounts (size : ℕ) (L : Layout) : Prop where
  allocated : L.info.allocated = charged L
  free : L.info.free = payload L.free
  total : L.info.total = size

/-- Counters that have followed the lists still say what the lists say. -/
theorem Accounts.of_balanced {size : ℕ} {L' : Layout} (ha : Accounts size L) (hwf : Wf lo hi L)
    (hwf' : Wf lo hi L') (hr : Reduced L'.info) (hb : Balanced L L') : Accounts size L' := by
  have hfill := hwf.charged_add_payload
  have hfill' := hwf'.charged_add_payload
  have hhi := hwf.hi_le
  have hlo := hwf.lo_pos
  refine ⟨?_, ?_, hb.total.trans ha.total⟩
  · have hmod := hb.allocated
    rw [ha.allocated, Nat.add_comm] at hmod
    exact (Nat.ModEq.add_left_cancel' _ hmod).eq_of_lt_of_lt hr.1 (by omega)
  · have hmod := hb.free
    rw [ha.free, Nat.add_comm] at hmod
    exact (Nat.ModEq.add_left_cancel' _ hmod).eq_of_lt_of_lt hr.2 (by omega)

section Exact

variable {info : MemoryInfo} {n : ℕ} {us : List Update}

theorem exact_allocated (h : info.allocated + n < 2 ^ 64)
    (hrest : Exact { info with allocated := info.allocated + n } us) :
    Exact info (.allocated n :: us) := by
  refine ⟨by simp only [Update.value]; omega, by simp only [Update.value]; omega, ?_⟩
  rw [apply_allocated, wadd_of_lt h]
  exact hrest

theorem exact_free (h : info.free + n < 2 ^ 64)
    (hrest : Exact { info with free := info.free + n } us) : Exact info (.free n :: us) := by
  refine ⟨by simp only [Update.value]; omega, by simp only [Update.value]; omega, ?_⟩
  rw [apply_free, wadd_of_lt h]
  exact hrest

theorem exact_allocated_neg (h : n ≤ info.allocated) (hlt : info.allocated < 2 ^ 64)
    (hrest : Exact { info with allocated := info.allocated - n } us) :
    Exact info (.allocated (-n) :: us) := by
  refine ⟨by simp only [Update.value]; omega, by simp only [Update.value]; omega, ?_⟩
  rw [apply_allocated_neg, wsub_of_le h hlt]
  exact hrest

theorem exact_free_neg (h : n ≤ info.free) (hlt : info.free < 2 ^ 64)
    (hrest : Exact { info with free := info.free - n } us) : Exact info (.free (-n) :: us) := by
  refine ⟨by simp only [Update.value]; omega, by simp only [Update.value]; omega, ?_⟩
  rw [apply_free_neg, wsub_of_le h hlt]
  exact hrest

/-- Charging a block of the free bytes, with a header or without one. -/
theorem exact_takeUpdates {isSplit : Bool} {taken : ℕ} (hsum : info.allocated + info.free < 2 ^ 64)
    (hroom : (if isSplit then sizeofBlockData else 0) + taken ≤ info.free) :
    Exact info (takeUpdates isSplit taken) := by
  cases isSplit
  · simp only [Bool.false_eq_true, if_false] at hroom
    refine exact_free_neg (by omega) (by omega) (exact_allocated ?_ trivial)
    simp only
    omega
  · simp only [if_true] at hroom
    refine exact_allocated (by omega) (exact_free_neg ?_ ?_ (exact_free_neg ?_ ?_
      (exact_allocated ?_ trivial))) <;> simp only <;> omega

theorem exact_merges {k : ℕ} (ha : sizeofBlockData * k ≤ info.allocated)
    (hsum : info.allocated + info.free < 2 ^ 64) : Exact info (merges k) := by
  induction k generalizing info with
  | zero => trivial
  | succ k ih =>
    rw [Nat.mul_succ] at ha
    refine exact_allocated_neg (by omega) (by omega) (exact_free ?_ (ih ?_ ?_)) <;> simp only <;>
      omega

theorem exact_giveUpdates {size k : ℕ} (ha : size + sizeofBlockData * k ≤ info.allocated)
    (hsum : info.allocated + info.free < 2 ^ 64) : Exact info (giveUpdates size k) := by
  refine exact_allocated_neg (by omega) (by omega) (exact_free ?_ (exact_merges ?_ ?_)) <;>
    simp only <;> omega

end Exact

theorem le_payload {b : Block} {bs : List Block} (hb : b ∈ bs) : b.size ≤ payload bs := by
  obtain ⟨before, after, rfl⟩ := List.append_of_mem hb
  rw [payload_append, payload_cons]
  omega

theorem Accounts.sum {size : ℕ} (ha : Accounts size L) (hwf : Wf lo hi L) :
    L.info.allocated + L.info.free = hi - lo := by
  rw [ha.allocated, ha.free, hwf.charged_add_payload]

/-- No assignment of a call wraps, but for those of the one request. -/
theorem exact_updates {size : ℕ} (hr : Represents h L) (hwf : Wf lo hi L) (ha : Accounts size L)
    {c : Call} (hw : ¬ WrapsSplit h c) : Exact h.memoryInfo (c.updates h) := by
  have hsum : L.info.allocated + L.info.free < 2 ^ 64 := by
    have := ha.sum hwf
    have := hwf.hi_le
    have := hwf.lo_pos
    omega
  rw [hr.info]
  cases c with
  | malloc n =>
    rcases mallocUpdates_eq hr hwf n.toNat with ⟨hval, -⟩ | ⟨b, hb, -, hcase⟩
    · rw [Call.updates, hval]
      trivial
    have hfree : b.size ≤ L.info.free := ha.free ▸ le_payload hb
    rcases hcase with ⟨hroom, hval⟩ | ⟨hcorner, hval⟩
    · rw [Call.updates, hval]
      exact exact_takeUpdates hsum (by simp only [if_true, sizeofBlockData]; omega)
    · -- the split test holds only where it wraps
      have hwhole : ¬ splits b (alignSize n.toNat) := fun hs => by
        obtain ⟨hsize, hstop, haddr⟩ := hcorner hs
        have hbsize : b.size = 2 ^ 64 - 24 := by
          rw [Block.stop, sizeofBlockData] at hstop
          omega
        exact hw ⟨hsize.trans hbsize, hr.wrapsSplit hwf hb hbsize⟩
      rw [Call.updates, hval, decide_eq_false hwhole]
      exact exact_takeUpdates hsum (by simpa using hfree)
  | free ptr =>
    rcases freeUpdates_eq hr hwf ptr.toNat with ⟨hval, -⟩ | ⟨b, hb, hval, -⟩
    · rw [Call.updates, hval]
      trivial
    · have hcharged := (uncharged_release hb L.info).2
      rw [Call.updates, hval]
      exact exact_giveUpdates (by rw [ha.allocated, hcharged]; exact Nat.le_add_left _ _) hsum

/-- The assignments of that request take more from the free bytes than there are. -/
theorem not_exact_updates {size : ℕ} (hr : Represents h L) (hwf : Wf lo hi L) (ha : Accounts size L)
    {c : Call} (hw : WrapsSplit h c) : ¬ Exact h.memoryInfo (c.updates h) := by
  cases c with
  | free ptr => exact hw.elim
  | malloc n =>
    obtain ⟨hn, hhead, hsize⟩ := hw
    have hsum := ha.sum hwf
    have hhi := hwf.hi_le
    obtain ⟨b, after, hfree⟩ : ∃ b after, L.free = b :: after := by
      cases hL : L.free with
      | nil => exact absurd (blockList_nil.mp (hL ▸ hr.free)) hhead
      | cons b after => exact ⟨b, after, rfl⟩
    have hb : b.size = 2 ^ 64 - 24 := by
      obtain ⟨haddr, -, hbsize, -⟩ := blockList_cons.mp (hfree ▸ hr.free)
      exact hbsize.symm.trans (haddr ▸ hsize)
    have hcharged : 16 ≤ L.info.allocated := by
      rw [ha.allocated, charged, hfree, List.length_cons, sizeofBlockData]
      omega
    rw [hr.info, Call.updates]
    rcases mallocUpdates_eq hr hwf n.toNat with ⟨-, h0 | hsmall⟩ | ⟨c, hc, hfit, hcase⟩
    · rw [h0] at hn
      exact absurd hn (by decide)
    · exact absurd (hsmall b (by simp [hfree])) (by omega)
    have hcsize : c.size ≤ L.info.free := ha.free ▸ le_payload hc
    rcases hcase with ⟨hroom, -⟩ | ⟨-, hval⟩
    · omega
    · have hsplits : splits c (alignSize n.toNat) := by
        simp only [splits, hn, wadd, sizeofBlockData, sizeofSizeT]
        omega
      rw [hval, decide_eq_true hsplits]
      rintro ⟨-, -, -, -, hneg, -⟩
      rw [apply_allocated, apply_free_neg, wsub_of_le (by simp only [sizeofBlockData]; omega)
        (by simp only; omega)] at hneg
      simp only [Update.value, sizeofBlockData] at hneg
      omega

/-! ## Runs -/

/-- The counters say what the two lists say, and together how large the region is. -/
def Accounted (size : ℕ) (h : Heap) : Prop :=
  ∃ free alloc, BlockList h.mem h.freeList free ∧ BlockList h.mem h.allocList alloc ∧
    h.memoryInfo.allocated + h.memoryInfo.free = h.memoryInfo.total ∧ h.memoryInfo.total = size ∧
    h.memoryInfo.free = (free.map Block.size).sum ∧
    h.memoryInfo.allocated =
      (alloc.map Block.size).sum + sizeofBlockData * (free.length + alloc.length)

/-- The call wraps neither counter, and they say what the lists say after it. -/
def KeepsAccounts (size : ℕ) (s : Heap × List ℕ) (c : Call) : Prop :=
  Exact s.1.memoryInfo (c.updates s.1) ∧ ∀ s', stepCall s c = some s' → Accounted size s'.1

theorem accounted_iff {size : ℕ} (hr : Represents h L) (hwf : Wf lo hi L) (hsize : size = hi - lo) :
    Accounted size h ↔ Accounts size L := by
  constructor
  · rintro ⟨free, alloc, hfree, halloc, -, htotal, hf, ha⟩
    obtain rfl := hfree.unique hr.free
    obtain rfl := halloc.unique hr.alloc
    rw [hr.info] at htotal hf ha
    exact ⟨ha, hf, htotal⟩
  · intro ha
    refine ⟨L.free, L.alloc, hr.free, hr.alloc, ?_⟩
    rw [hr.info]
    exact ⟨by rw [ha.sum hwf, ha.total, hsize], ha.total, ha.free, ha.allocated⟩

/-- What a run keeps: a well-formed heap whose counters say what its lists say. -/
def Counts (lo hi : ℕ) (s : Heap × List ℕ) : Prop :=
  ∃ L, Represents s.1 L ∧ Wf lo hi L ∧ Reduced L.info ∧ Accounts (hi - lo) L

/-- One call keeps the accounts exactly if it is not the one request. -/
theorem keepsAccounts_iff {s : Heap × List ℕ} (hs : Counts lo hi s) (c : Call) :
    (KeepsAccounts (hi - lo) s c ↔ ¬ WrapsSplit s.1 c) ∧
      (¬ WrapsSplit s.1 c → ∀ s', stepCall s c = some s' → Counts lo hi s') := by
  obtain ⟨L, hr, hwf, hreduced, ha⟩ := hs
  obtain ⟨t, hval, hr', hwf', hreduced', hbalanced⟩ := stepCall_balanced hr hwf hreduced c
  have hnext : ¬ WrapsSplit s.1 c → Accounts (hi - lo) (c.edit L).1 := fun hw =>
    ha.of_balanced hwf hwf' hreduced' (hbalanced hw)
  refine ⟨⟨fun hkeeps hw => not_exact_updates hr hwf ha hw hkeeps.1, fun hw => ?_⟩,
    fun hw s' hstep => ?_⟩
  · refine ⟨exact_updates hr hwf ha hw, fun s' hstep => ?_⟩
    obtain rfl := Option.some.inj (hstep.symm.trans hval)
    exact (accounted_iff hr' hwf' rfl).mpr (hnext hw)
  · obtain rfl := Option.some.inj (hstep.symm.trans hval)
    exact ⟨_, hr', hwf', hreduced', hnext hw⟩

/-- In an accepted region the counters say what the lists say, at first and after every call, and no
assignment to them wraps, if and only if the region does not begin at the null pointer and no split
test wraps. -/
theorem counters_exact (m : Mem) (address size : UInt64) (calls : List Call)
    (haccepted : (initMemoryManager (boot m) address.toNat size.toNat).2 = 0)
    (hend : address.toNat + size.toNat ≤ 2 ^ 64) :
    let start := (initMemoryManager (boot m) address.toNat size.toNat).1
    (∃ h ptrs, run stepCall (start, []) calls = some (h, ptrs)) ∧
      (Accounted size.toNat start ∧
          Throughout stepCall (KeepsAccounts size.toNat) (start, []) calls ↔
        address ≠ 0 ∧
          Throughout stepCall (fun s c => ¬ WrapsSplit s.1 c) (start, []) calls) := by
  intro start
  obtain ⟨lo, hi, L₀, hr₀, hwf₀, -⟩ := init_represents m hend
  have hcounted : Counted lo hi (start, []) :=
    ⟨L₀, hr₀, hwf₀, hr₀.info ▸ init_reduced m⟩
  obtain ⟨⟨h, ptrs⟩, hrun, -⟩ := run_total (P := fun _ _ => True) hcounted
    (throughout_of_forall fun _ _ => trivial) fun s c hs _ => hs.step c
  refine ⟨⟨h, ptrs, hrun⟩, ?_⟩
  by_cases hnull : address = 0
  · -- no list holds the one block of the region
    refine iff_of_false (fun hkept => ?_) fun hok => hok.1 hnull
    obtain ⟨free, -, hfree, -, -, -, hbytes, -⟩ := hkept.1
    have hstart : start.freeList = 0 ∧ start.memoryInfo.free ≠ 0 := by
      simp only [start, initMemoryManager, hnull, UInt64.toNat_zero, sizeofBlockData,
        sizeofSizeT] at haccepted ⊢
      split_ifs at haccepted ⊢
      exact ⟨rfl, by simp only [wsub]; omega⟩
    rw [hstart.1] at hfree
    obtain rfl := hfree.unique (blockList_nil.mpr rfl)
    exact hstart.2 hbytes
  have hne : address.toNat ≠ 0 := fun h0 => hnull (UInt64.toNat_inj.mp h0)
  obtain ⟨hr, hwf⟩ := init_layout m hend hne haccepted
  have hsize : address.toNat + size.toNat - address.toNat = size.toNat := by omega
  have ha : Accounts (address.toNat + size.toNat - address.toNat)
      (Layout.init address.toNat size.toNat) := ⟨rfl, rfl, hsize.symm⟩
  have hcounts : Counts address.toNat (address.toNat + size.toNat) (start, []) :=
    ⟨_, hr, hwf, hr.info ▸ init_reduced m, ha⟩
  rw [← hsize]
  constructor
  · rintro ⟨-, hkept⟩
    refine ⟨hnull, hkept.of_invariant hcounts fun s c hs hc => ?_⟩
    have hw := (keepsAccounts_iff hs c).1.mp hc
    exact ⟨hw, (keepsAccounts_iff hs c).2 hw⟩
  · rintro ⟨-, hcareful⟩
    refine ⟨(accounted_iff hr hwf rfl).mpr ha, hcareful.of_invariant hcounts fun s c hs hc => ?_⟩
    exact ⟨(keepsAccounts_iff hs c).1.mpr hc, (keepsAccounts_iff hs c).2 hc⟩

/-- Three blocks handed out on a page at 6 MiB, and two given back that merge. -/
theorem counters_exact_page :
    let start := (initMemoryManager (boot fun _ => 0) 0x600000 0x1000).1
    Accounted 0x1000 start ∧ Throughout stepCall (KeepsAccounts 0x1000) (start, [])
      [.malloc 100, .malloc 8, .malloc 24, .free 0x600010, .free 0x600088] :=
  (counters_exact (fun _ => 0) 0x600000 0x1000
    [.malloc 100, .malloc 8, .malloc 24, .free 0x600010, .free 0x600088]
    (by decide) (by decide)).2.mpr ⟨by decide, by decide +kernel⟩

/-- The region from 8 to `2 ^ 64`: a block of all its bytes is handed out, and the counter of free
bytes is below what it says. -/
theorem whole_region_miscounted :
    ¬ ∀ (m : Mem) (address size : UInt64) (calls : List Call) (h : Heap) (ptrs : List ℕ),
      (initMemoryManager (boot m) address.toNat size.toNat).2 = 0 →
      address.toNat + size.toNat ≤ 2 ^ 64 →
      run stepCall ((initMemoryManager (boot m) address.toNat size.toNat).1, []) calls =
        some (h, ptrs) →
      Accounted size.toNat h := by
  intro hall
  have hrun : ((run stepCall ((initMemoryManager (boot fun _ => 0) (8 : UInt64).toNat
      (0xfffffffffffffff8 : UInt64).toNat).1, []) [.malloc 0xffffffffffffffe8]).map fun s =>
        (s.1.freeList, s.1.memoryInfo.free)) = some (0, 0xfffffffffffffff0) := by
    decide +kernel
  obtain ⟨⟨h, ptrs⟩, hrun, hvals⟩ := Option.map_eq_some_iff.mp hrun
  simp only [Prod.mk.injEq] at hvals
  obtain ⟨hlist, hbytes⟩ := hvals
  obtain ⟨free, -, hfree, -, -, -, hcount, -⟩ := hall (fun _ => 0) 8 0xfffffffffffffff8
    [.malloc 0xffffffffffffffe8] h ptrs (by decide) (by decide) hrun
  rw [hlist] at hfree
  obtain rfl := hfree.unique (blockList_nil.mpr rfl)
  rw [hbytes] at hcount
  exact absurd hcount (by decide)

end TronKernel.FirstFit
