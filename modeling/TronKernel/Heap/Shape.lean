import TronKernel.Heap.Layout
import Mathlib.Data.List.TakeWhile

/-!
# `malloc` and `free` keep the shape of the heap

Each call is first described by what it does to the two lists (`malloc_cases`, `release_cases`);
the shape `Wf` is then carried through these descriptions. The only arithmetic that can wrap is
`size + 24` in the split test, and it wraps on one block only: the whole region, when that starts
at `8` and ends at `2 ^ 64`. The header of the remainder would then be the null pointer, so the
block is in effect taken whole.
-/

namespace TronKernel.FirstFit

open Tiling

theorem alignSize_dvd (n : ℕ) : 8 ∣ alignSize n := by
  simp only [alignSize, wadd, sizeofSizeT]
  split_ifs <;> omega

namespace Layout

variable {lo hi : ℕ} {L : Layout}

/-! ## Reading the shape -/

theorem Wf.within (h : Wf lo hi L) {b : Block} (hb : b ∈ L.blocks) :
    lo ≤ b.addr ∧ b.stop ≤ hi :=
  h.tiles.within hb b.addr_lt_stop

theorem Wf.apart (h : Wf lo hi L) : L.blocks.Pairwise Block.Apart :=
  h.tiles.pairwise fun b _ => b.addr_lt_stop

theorem Wf.eight_le (h : Wf lo hi L) {b : Block} (hb : b ∈ L.blocks) : 8 ≤ b.addr := by
  have hlo := (h.within hb).1
  have hpos := h.lo_pos
  exact Nat.le_of_dvd (by omega) (h.addr_aligned b hb)

/-- A live block is apart from every free block. -/
theorem Wf.free_apart_alloc (h : Wf lo hi L) {f b : Block} (hf : f ∈ L.free) (hb : b ∈ L.alloc) :
    f.Apart b :=
  (List.pairwise_append.mp h.apart).2.2 f hf b hb

theorem Wf.alloc_apart (h : Wf lo hi L) : L.alloc.Pairwise Block.Apart :=
  (List.pairwise_append.mp h.apart).2.1

/-- Two live blocks at one address are one block. -/
theorem Wf.alloc_addr_inj (h : Wf lo hi L) {a b : Block} (ha : a ∈ L.alloc) (hb : b ∈ L.alloc)
    (heq : a.addr = b.addr) : a = b := by
  by_contra hne
  exact (h.alloc_apart.forall ha hb hne).addr_ne heq

/-! ## Initialisation -/

theorem wf_init {address size : ℕ} (hpos : 0 < address) (haddr : 8 ∣ address) (hsize : 8 ∣ size)
    (hmin : 24 ≤ size) (hend : address + size ≤ 2 ^ 64) :
    Wf address (address + size) (init address size) where
  lo_pos := hpos
  hi_le := hend
  addr_aligned := by simpa [blocks, init] using haddr
  size_aligned := by
    simp only [blocks, init, sizeofBlockData, List.append_nil, List.mem_singleton, forall_eq]
    omega
  tiles := by
    intro p
    have hstop : address + sizeofBlockData + (size - sizeofBlockData) = address + size := by
      simp only [sizeofBlockData]; omega
    simp only [blocks, init, List.append_nil, cover_cons, cover_nil, Block.stop, hstop]
    omega
  ordered := by simp [init]

/-! ## `malloc` -/

/-- The remainder of a block of which the first `size` payload bytes are taken. -/
def rest (b : Block) (size : ℕ) : Block :=
  ⟨b.addr + sizeofBlockData + size, b.size - sizeofBlockData - size⟩

/-- What the split test decides for a block of a well-formed heap: either there is exact room for
a header and eight more bytes, or the block is taken whole. -/
theorem Wf.split_cases (h : Wf lo hi L) {b : Block} (hb : b ∈ L.free) {size : ℕ}
    (hfit : size ≤ b.size) (hdvd : 8 ∣ size) :
    (splits b size ∧ size + 24 ≤ b.size ∧ remainder b size = [rest b size]) ∨
      (¬ splits b size ∧ b.size < size + 24) ∨
      (splits b size ∧ size = b.size ∧ b.stop = 2 ^ 64 ∧ b.addr = 8 ∧ remainder b size = []) := by
  have hmem : b ∈ L.blocks := List.mem_append_left _ hb
  have hstop := (h.within hmem).2
  have height := h.eight_le hmem
  have hhi := h.hi_le
  have hsize := h.size_aligned b hmem
  simp only [Block.stop, sizeofBlockData] at hstop ⊢
  simp only [splits, remainder, rest, wadd, sizeofBlockData, sizeofSizeT]
  rcases Nat.lt_or_ge (size + 24) (2 ^ 64) with hsmall | hwrap
  · by_cases hroom : size + 24 ≤ b.size
    · refine Or.inl ⟨by omega, hroom, ?_⟩
      rw [if_pos (by omega)]
    · exact Or.inr (Or.inl ⟨by omega, by omega⟩)
  · refine Or.inr (Or.inr ⟨by omega, by omega, by omega, by omega, ?_⟩)
    rw [if_neg (by omega)]

/-- What `malloc` does to the lists. -/
theorem malloc_cases (h : Wf lo hi L) (n : ℕ) :
    ((n = 0 ∨ ∀ b ∈ L.free, b.size < alignSize n) ∧ malloc L n = (L, 0)) ∨
      ∃ before b after, n ≠ 0 ∧ L.free = before ++ b :: after ∧
        (∀ c ∈ before, c.size < alignSize n) ∧ alignSize n ≤ b.size ∧
        ((alignSize n + 24 ≤ b.size ∧
            malloc L n =
              (⟨before ++ rest b (alignSize n) :: after, ⟨b.addr, alignSize n⟩ :: L.alloc,
                chargeBlock L.info true (alignSize n)⟩, wadd b.addr 16)) ∨
          (b.size < alignSize n + 24 ∧
            (splits b (alignSize n) → alignSize n = b.size ∧ b.stop = 2 ^ 64 ∧ b.addr = 8) ∧
            malloc L n =
              (⟨before ++ after, b :: L.alloc,
                chargeBlock L.info (splits b (alignSize n)) b.size⟩, wadd b.addr 16))) := by
  by_cases hn : n = 0
  · exact Or.inl ⟨Or.inl hn, by simp [malloc, hn]⟩
  set size := alignSize n with hsize
  set go : Block → Bool := fun b => b.size < size with hgo
  have hsplit : L.free = L.free.takeWhile go ++ L.free.dropWhile go :=
    List.takeWhile_append_dropWhile.symm
  have hbefore : ∀ c ∈ L.free.takeWhile go, c.size < size := fun c hc => by
    simpa [hgo] using List.mem_takeWhile_imp hc
  cases hdrop : L.free.dropWhile go with
  | nil =>
    refine Or.inl ⟨Or.inr fun b hb => hbefore b ?_, ?_⟩
    · rwa [hsplit, hdrop, List.append_nil] at hb
    · simp only [malloc, if_neg hn, ← hsize, ← hgo, hdrop]
  | cons b after =>
    have hfit : size ≤ b.size := by
      have := List.head?_dropWhile_not go L.free
      rw [hdrop] at this
      simpa [hgo] using this
    have hb : b ∈ L.free := by rw [hsplit, hdrop]; simp
    have hval : malloc L n =
        (⟨L.free.takeWhile go ++ (if splits b size then remainder b size else []) ++ after,
          (if splits b size then ⟨b.addr, size⟩ else b) :: L.alloc,
          chargeBlock L.info (splits b size)
            (if splits b size then (⟨b.addr, size⟩ : Block) else b).size⟩, wadd b.addr 16) := by
      simp only [malloc, if_neg hn, ← hsize, ← hgo, hdrop]
    refine Or.inr ⟨L.free.takeWhile go, b, after, hn, ?_, hbefore, hfit, ?_⟩
    · rw [← hdrop]; exact hsplit
    rcases h.split_cases hb hfit (alignSize_dvd n) with
      ⟨hs, hroom, hrem⟩ | ⟨hs, hroom⟩ | ⟨hs, heq, hstop, haddr, hrem⟩
    · refine Or.inl ⟨hroom, ?_⟩
      simp [hval, hs, hrem]
    · refine Or.inr ⟨hroom, fun hc => absurd hc hs, ?_⟩
      simp [hval, hs]
    · refine Or.inr ⟨by omega, fun _ => ⟨heq, hstop, haddr⟩, ?_⟩
      have hwhole : (⟨b.addr, size⟩ : Block) = b := by rw [heq]
      simp [hval, hs, hrem, hwhole]

/-- Handing out a whole free block keeps the shape. -/
theorem Wf.take_whole (h : Wf lo hi L) {before after : List Block} {b : Block} {info : MemoryInfo}
    (hfree : L.free = before ++ b :: after) :
    Wf lo hi ⟨before ++ after, b :: L.alloc, info⟩ := by
  have hperm : L.blocks.Perm (before ++ after ++ b :: L.alloc) := by
    simp only [blocks, hfree, List.append_assoc, List.cons_append]
    refine List.Perm.append_left _ ?_
    rw [← List.cons_append]
    exact List.perm_middle.symm
  have hsub : ∀ c, c ∈ before ++ after ++ b :: L.alloc → c ∈ L.blocks :=
    fun c hc => hperm.mem_iff.mpr hc
  exact
    { lo_pos := h.lo_pos
      hi_le := h.hi_le
      addr_aligned := fun c hc => h.addr_aligned c (hsub c hc)
      size_aligned := fun c hc => h.size_aligned c (hsub c hc)
      tiles := h.tiles.perm hperm
      ordered := by
        have hord := h.ordered
        rw [hfree] at hord
        exact hord.sublist (List.Sublist.append_left (List.sublist_cons_self b after) before) }

/-- Handing out the front of a free block keeps the shape. -/
theorem Wf.take_front (h : Wf lo hi L) {before after : List Block} {b : Block} {size : ℕ}
    {info : MemoryInfo} (hfree : L.free = before ++ b :: after) (hroom : size + 24 ≤ b.size)
    (hdvd : 8 ∣ size) :
    Wf lo hi ⟨before ++ rest b size :: after, ⟨b.addr, size⟩ :: L.alloc, info⟩ := by
  set taken : Block := ⟨b.addr, size⟩ with htaken
  have hb : b ∈ L.blocks := by simp [blocks, hfree]
  have hperm : L.blocks.Perm (b :: (before ++ after ++ L.alloc)) := by
    simp only [blocks, hfree, List.append_assoc, List.cons_append]
    exact List.perm_middle
  have hperm' : (before ++ rest b size :: after ++ taken :: L.alloc).Perm
      (taken :: rest b size :: (before ++ after ++ L.alloc)) := by
    refine List.perm_middle.trans (List.Perm.cons _ ?_)
    simp only [List.append_assoc, List.cons_append]
    exact List.perm_middle
  have hstop : (rest b size).stop = b.stop := by
    simp only [rest, Block.stop, sizeofBlockData]; omega
  have haddr := h.addr_aligned b hb
  have hsize := h.size_aligned b hb
  have hmem : ∀ c, c ∈ before ++ rest b size :: after ++ taken :: L.alloc →
      c = taken ∨ c = rest b size ∨ c ∈ L.blocks := by
    intro c hc
    have := hperm'.mem_iff.mp hc
    simp only [List.mem_cons] at this
    rcases this with rfl | rfl | hc
    · exact Or.inl rfl
    · exact Or.inr (Or.inl rfl)
    · exact Or.inr (Or.inr (hperm.mem_iff.mpr (List.mem_cons_of_mem _ hc)))
  refine
    { lo_pos := h.lo_pos
      hi_le := h.hi_le
      addr_aligned := fun c hc => ?_
      size_aligned := fun c hc => ?_
      tiles := ?_
      ordered := ?_ }
  · rcases hmem c hc with rfl | rfl | hc
    · exact haddr
    · simp only [rest, sizeofBlockData]; omega
    · exact h.addr_aligned c hc
  · rcases hmem c hc with rfl | rfl | hc
    · exact hdvd
    · simp only [rest, sizeofBlockData]; omega
    · exact h.size_aligned c hc
  · -- the front and the remainder cover what the block covered
    refine (h.tiles.perm hperm).congr fun p => ?_
    change cover _ _ (before ++ rest b size :: after ++ taken :: L.alloc) p = _
    rw [cover_perm hperm']
    exact @cover_split _ Block.addr Block.stop b taken (rest b size) rfl rfl hstop
      taken.addr_lt_stop.le (rest b size).addr_lt_stop.le _ p
  · -- the remainder starts above the block's address and ends where the block ended
    have hord := h.ordered
    rw [hfree] at hord
    obtain ⟨hbefore, htail, hcross⟩ := List.pairwise_append.mp hord
    obtain ⟨hbafter, hafter⟩ := List.pairwise_cons.mp htail
    refine List.pairwise_append.mpr ⟨hbefore, List.pairwise_cons.mpr ⟨fun c hc => ?_, hafter⟩, ?_⟩
    · rw [hstop]; exact hbafter c hc
    · intro c hc d hd
      rcases List.mem_cons.mp hd with rfl | hd
      · have := hcross c hc b (by simp)
        simp only [rest, sizeofBlockData]; omega
      · exact hcross c hc d (List.mem_cons_of_mem _ hd)

theorem wf_malloc (h : Wf lo hi L) (n : ℕ) : Wf lo hi (malloc L n).1 := by
  rcases malloc_cases h n with
    ⟨-, hval⟩ | ⟨before, b, after, -, hfree, -, -, ⟨hroom, hval⟩ | ⟨-, -, hval⟩⟩
  · rw [hval]; exact h
  · rw [hval]; exact h.take_front hfree hroom (alignSize_dvd n)
  · rw [hval]; exact h.take_whole hfree

/-! ## `free` -/

/-- A block merged with the one that begins where it ends. -/
theorem stop_joined (b n : Block) (h : b.stop = n.addr) :
    (⟨b.addr, b.size + (sizeofBlockData + n.size)⟩ : Block).stop = n.stop := by
  simp only [Block.stop] at h ⊢; omega

theorem cover_joined {b n : Block} (h : b.stop = n.addr) (l : List Block) (p : ℕ) :
    cover Block.addr Block.stop (⟨b.addr, b.size + (sizeofBlockData + n.size)⟩ :: l) p
      = cover Block.addr Block.stop (b :: n :: l) p :=
  (@cover_split _ Block.addr Block.stop ⟨b.addr, b.size + (sizeofBlockData + n.size)⟩ b n rfl h
    (stop_joined b n h).symm b.addr_lt_stop.le n.addr_lt_stop.le l p).symm

/-- `joinNext` starts with a block at the inserted address. -/
theorem joinNext_eq_cons (b : Block) (l : List Block) :
    ∃ d ds, joinNext b l = d :: ds ∧ d.addr = b.addr := by
  cases l with
  | nil => exact ⟨b, [], rfl, rfl⟩
  | cons n ns =>
    by_cases h : b.stop = n.addr
    · exact ⟨⟨b.addr, b.size + (sizeofBlockData + n.size)⟩, ns, by simp only [joinNext, if_pos h],
        rfl⟩
    · exact ⟨b, n :: ns, by simp only [joinNext, if_neg h], rfl⟩

theorem cover_joinNext (b : Block) (l : List Block) (p : ℕ) :
    cover Block.addr Block.stop (joinNext b l) p = cover Block.addr Block.stop (b :: l) p := by
  cases l with
  | nil => rfl
  | cons n ns =>
    by_cases h : b.stop = n.addr
    · simp only [joinNext, if_pos h]; exact cover_joined h ns p
    · simp only [joinNext, if_neg h]

theorem ordered_joinNext {b : Block} {l : List Block} (hl : l.Pairwise fun a b => a.stop < b.addr)
    (hb : ∀ c ∈ l, b.stop ≤ c.addr) : (joinNext b l).Pairwise fun a b => a.stop < b.addr := by
  cases l with
  | nil => simp [joinNext]
  | cons n ns =>
    obtain ⟨hn, hns⟩ := List.pairwise_cons.mp hl
    have hbn := hb n (by simp)
    by_cases h : b.stop = n.addr
    · simp only [joinNext, if_pos h]
      refine List.pairwise_cons.mpr ⟨fun c hc => ?_, hns⟩
      rw [stop_joined b n h]
      exact hn c hc
    · simp only [joinNext, if_neg h]
      refine List.pairwise_cons.mpr ⟨fun c hc => ?_, hl⟩
      rcases List.mem_cons.mp hc with rfl | hc
      · omega
      · have := hn c hc
        have := n.addr_lt_stop
        omega

theorem cover_joinPrev (before bs : List Block) (p : ℕ) :
    cover Block.addr Block.stop (joinPrev before bs) p
      = cover Block.addr Block.stop (before ++ bs) p := by
  cases bs with
  | nil => simp [joinPrev]
  | cons b bs =>
    rcases List.eq_nil_or_concat before with rfl | ⟨before, q, rfl⟩
    · simp [joinPrev]
    · simp only [joinPrev, List.concat_eq_append, List.getLast?_concat, List.dropLast_concat]
      split_ifs with h
      · rw [List.append_assoc, cover_append, cover_append, List.singleton_append, cover_joined h]
      · rfl

theorem ordered_joinPrev {before bs : List Block}
    (hbefore : before.Pairwise fun a b => a.stop < b.addr)
    (hbs : bs.Pairwise fun a b => a.stop < b.addr)
    (hcross : ∀ c ∈ before, ∀ d ∈ bs, c.stop ≤ d.addr) :
    (joinPrev before bs).Pairwise fun a b => a.stop < b.addr := by
  cases bs with
  | nil => simpa [joinPrev] using hbefore
  | cons b bs =>
    obtain ⟨hb, hbs'⟩ := List.pairwise_cons.mp hbs
    rcases List.eq_nil_or_concat before with rfl | ⟨before, q, rfl⟩
    · simpa [joinPrev] using hbs
    simp only [joinPrev, List.concat_eq_append, List.getLast?_concat, List.dropLast_concat] at *
    obtain ⟨hinit, -, hq⟩ := List.pairwise_append.mp hbefore
    have hqb := hcross q (by simp) b (by simp)
    have hqlt := q.addr_lt_stop
    have hblt := b.addr_lt_stop
    -- a block before the last one ends below the last one, hence below everything after it
    have hfar : ∀ c ∈ before, ∀ d ∈ b :: bs, c.stop < d.addr := by
      intro c hc d hd
      have hcq := hq c hc q (by simp)
      have hqd := hcross q (by simp) d hd
      omega
    split_ifs with h
    · refine List.pairwise_append.mpr ⟨hinit, List.pairwise_cons.mpr ⟨fun d hd => ?_, hbs'⟩, ?_⟩
      · rw [stop_joined q b h]; exact hb d hd
      · intro c hc d hd
        rcases List.mem_cons.mp hd with rfl | hd
        · exact hq c hc q (by simp)
        · exact hfar c hc d (by simp [hd])
    · refine List.pairwise_append.mpr ⟨hbefore, hbs, fun c hc d hd => ?_⟩
      rcases List.mem_append.mp hc with hc | hc
      · exact hfar c hc d hd
      · obtain rfl := List.mem_singleton.mp hc
        rcases List.mem_cons.mp hd with rfl | hd
        · omega
        · have := hb d hd
          omega

theorem cover_insertFree (b : Block) (l : List Block) (p : ℕ) :
    cover Block.addr Block.stop (insertFree b l) p = cover Block.addr Block.stop (b :: l) p := by
  rw [insertFree, cover_joinPrev, cover_append, cover_joinNext, cover_cons, ← Nat.add_assoc,
    ← cover_append, List.takeWhile_append_dropWhile, cover_cons]

/-- Where a block that is apart from all free blocks belongs among them. -/
theorem around_insert {b : Block} {l : List Block} (hl : l.Pairwise fun a b => a.stop < b.addr)
    (hb : ∀ c ∈ l, c.Apart b) :
    (∀ c ∈ l.takeWhile fun c => c.addr < b.addr, c.stop ≤ b.addr) ∧
      ∀ c ∈ l.dropWhile fun c => c.addr < b.addr, b.stop ≤ c.addr := by
  have hblt := b.addr_lt_stop
  constructor
  · intro c hc
    have hlt : c.addr < b.addr := by simpa using List.mem_takeWhile_imp hc
    rcases hb c ((List.takeWhile_prefix _).subset hc) with hapart | hapart <;> omega
  · intro c hc
    have hmem := (List.dropWhile_suffix _).subset hc
    -- the first block not below `b` is above it, and the list rises from there
    have hge : b.addr ≤ c.addr := by
      cases hdrop : l.dropWhile fun c => decide (c.addr < b.addr) with
      | nil => rw [hdrop] at hc; exact absurd hc (by simp)
      | cons d ds =>
        have hhead : b.addr ≤ d.addr := by
          have := List.head?_dropWhile_not (fun c : Block => decide (c.addr < b.addr)) l
          rw [hdrop] at this
          simpa using this
        have hsub : (d :: ds).Pairwise fun a b => a.stop < b.addr := by
          rw [← hdrop]; exact hl.sublist (List.dropWhile_suffix _).sublist
        rw [hdrop] at hc
        rcases List.mem_cons.mp hc with rfl | hc
        · exact hhead
        · have := (List.pairwise_cons.mp hsub).1 c hc
          have := d.addr_lt_stop
          omega
    have := c.addr_lt_stop
    rcases hb c hmem with hapart | hapart <;> omega

theorem ordered_insertFree {b : Block} {l : List Block}
    (hl : l.Pairwise fun a b => a.stop < b.addr)
    (hb : ∀ c ∈ l, c.Apart b) :
    (insertFree b l).Pairwise fun a b => a.stop < b.addr := by
  obtain ⟨hbelow, habove⟩ := around_insert hl hb
  have hnext := ordered_joinNext (hl.sublist (List.dropWhile_suffix _).sublist) habove
  refine ordered_joinPrev (hl.sublist (List.takeWhile_prefix _).sublist) hnext fun c hc d hd => ?_
  obtain ⟨e, es, hjoin, haddr⟩ := joinNext_eq_cons b (l.dropWhile fun c => c.addr < b.addr)
  have hcb := hbelow c hc
  rw [hjoin] at hd hnext
  rcases List.mem_cons.mp hd with rfl | hd
  · omega
  · have := (List.pairwise_cons.mp hnext).1 d hd
    have := e.addr_lt_stop
    omega

/-- A property that survives merging holds of every block of the list `insertFree` makes. -/
theorem forall_insertFree {P : Block → Prop} {b : Block} {l : List Block} (hb : P b)
    (hl : ∀ c ∈ l, P c) (hjoin : ∀ a c, P a → P c → P ⟨a.addr, a.size + (16 + c.size)⟩) :
    ∀ c ∈ insertFree b l, P c := by
  have hnext : ∀ {m : List Block}, (∀ c ∈ m, P c) → ∀ c ∈ joinNext b m, P c := by
    intro m hm c hc
    cases m with
    | nil => simp only [joinNext, List.mem_singleton] at hc; exact hc ▸ hb
    | cons n ns =>
      simp only [joinNext] at hc
      split_ifs at hc with h
      · rcases List.mem_cons.mp hc with rfl | hc
        · exact hjoin b n hb (hm n (by simp))
        · exact hm c (by simp [hc])
      · rcases List.mem_cons.mp hc with rfl | hc
        · exact hb
        · exact hm c hc
  have hprev : ∀ {before bs : List Block}, (∀ c ∈ before, P c) → (∀ c ∈ bs, P c) →
      ∀ c ∈ joinPrev before bs, P c := by
    intro before bs hbefore hbs c hc
    cases bs with
    | nil => exact hbefore c hc
    | cons d ds =>
      rcases List.eq_nil_or_concat before with rfl | ⟨before, q, rfl⟩
      · exact hbs c hc
      simp only [joinPrev, List.concat_eq_append, List.getLast?_concat, List.dropLast_concat] at *
      split_ifs at hc with h
      · rcases List.mem_append.mp hc with hc | hc
        · exact hbefore c (by simp [hc])
        · rcases List.mem_cons.mp hc with rfl | hc
          · exact hjoin q d (hbefore q (by simp)) (hbs d (by simp))
          · exact hbs c (by simp [hc])
      · rcases List.mem_append.mp hc with hc | hc
        · exact hbefore c (by simpa using hc)
        · exact hbs c hc
  exact hprev (fun c hc => hl c ((List.takeWhile_prefix _).subset hc))
    (hnext fun c hc => hl c ((List.dropWhile_suffix _).subset hc))

/-- What `free` does to the lists. -/
theorem release_cases (L : Layout) (ptr : ℕ) :
    ((∀ b ∈ L.alloc, b.addr ≠ wsub ptr 16) ∧ release L ptr = L) ∨
      ∃ b ∈ L.alloc, b.addr = wsub ptr 16 ∧
        release L ptr =
          ⟨insertFree b L.free, L.alloc.erase b,
            refundBlock L.info b.size (L.free.length + 1 - (insertFree b L.free).length)⟩ := by
  cases hfind : L.alloc.find? fun b => b.addr = wsub ptr sizeofBlockData with
  | none =>
    refine Or.inl ⟨fun b hb => ?_, by simp only [release, hfind]⟩
    simpa using List.find?_eq_none.mp hfind b hb
  | some b =>
    refine Or.inr ⟨b, List.mem_of_find?_eq_some hfind, ?_, by simp only [release, hfind]⟩
    simpa using List.find?_some hfind

theorem wf_release (h : Wf lo hi L) (ptr : ℕ) : Wf lo hi (release L ptr) := by
  rcases release_cases L ptr with ⟨-, hval⟩ | ⟨b, hb, -, hval⟩
  · rw [hval]; exact h
  rw [hval]
  have herase : L.alloc.Perm (b :: L.alloc.erase b) := List.perm_cons_erase hb
  have hmem : ∀ c ∈ L.alloc.erase b, c ∈ L.blocks := fun c hc =>
    List.mem_append_right _ (List.mem_of_mem_erase hc)
  have hbmem : b ∈ L.blocks := List.mem_append_right _ hb
  have hforall : ∀ P : Block → Prop, (∀ c ∈ L.blocks, P c) →
      (∀ a c, P a → P c → P ⟨a.addr, a.size + (16 + c.size)⟩) →
      ∀ c ∈ insertFree b L.free ++ L.alloc.erase b, P c := by
    intro P hP hjoin c hc
    rcases List.mem_append.mp hc with hc | hc
    · exact forall_insertFree (hP b hbmem) (fun d hd => hP d (List.mem_append_left _ hd)) hjoin c hc
    · exact hP c (hmem c hc)
  refine
    { lo_pos := h.lo_pos
      hi_le := h.hi_le
      addr_aligned := hforall (fun c => 8 ∣ c.addr) h.addr_aligned fun _ _ ha _ => ha
      size_aligned := hforall (fun c => 8 ∣ c.size) h.size_aligned fun _ _ ha hc => by
        have := ha; have := hc; simp only at *; omega
      tiles := h.tiles.congr fun p => ?_
      ordered := ordered_insertFree h.ordered fun c hc => h.free_apart_alloc hc hb }
  -- the freed block moves from one list to the other
  change cover _ _ (insertFree b L.free ++ L.alloc.erase b) p = cover _ _ (L.free ++ L.alloc) p
  rw [cover_append, cover_append, cover_insertFree, cover_perm herase, cover_cons, cover_cons]
  omega

end Layout

end TronKernel.FirstFit
