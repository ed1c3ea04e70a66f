import TronKernel.Heap.Isolation

/-!
# `tests/test_mm.c`: a client of the heap

`test_mm` asks for blocks of any sizes, fills each of them with its number, looks whether they
still have their contents and gives them back, again and again. A step is one call of `malloc` or
`free` or one byte that `memset` writes or `memcheck` reads; between the steps other processes use
the heap and write to their own blocks. The test never finds an error (`test_mm_finds_no_error`).
-/

namespace TronKernel.Tests.Memory

open FirstFit Layout Runs Mem

/-- `MAX_BLOCKS` -/
def MAX_BLOCKS : ℕ := 128

/-- `mm_rq` -/
structure MmRq where
  address : ℕ
  size : UInt32
deriving DecidableEq, Repr

/-- What the test does next. -/
inductive Place where
  /-- the condition of the first loop, and `malloc` -/
  | request
  /-- the loop over `memset`, at index `i` -/
  | set (i : ℕ)
  /-- in `memset` for `mm_rqs[i]`, with `length` bytes to write -/
  | fill (i : ℕ) (rq : MmRq) (length : ℕ)
  /-- the loop over `memcheck`, at index `i` -/
  | check (i : ℕ)
  /-- in `memcheck` for `mm_rqs[i]`, at byte `k` -/
  | compare (i : ℕ) (rq : MmRq) (k : ℕ)
  /-- the loop over `free`, at index `i` -/
  | release (i : ℕ)
  /-- `printf("test_mm ERROR\n")` -/
  | error
deriving DecidableEq, Repr

/-- The heap, and the variables of `test_mm`: the first `rq` entries of `mm_rqs`, and `total`. -/
structure State where
  heap : Heap
  rqs : List MmRq
  total : ℕ
  place : Place

/-- The next step of the test. `size` is what `GetUniform(max_memory - total - 1) + 1` gives, if it
is called. -/
def State.own (maxMemory : ℕ) (s : State) (size : UInt32) : Option State :=
  match s.place with
  | .request =>
    if s.rqs.length < MAX_BLOCKS ∧ s.total < maxMemory then
      (malloc s.heap size.toNat).map fun r =>
        if r.2 ≠ 0 then
          { s with
            heap := r.1
            rqs := s.rqs ++ [⟨r.2, size⟩]
            total := (s.total + size.toNat) % 2 ^ 32 }
        else { s with heap := r.1 }
    else some { s with place := .set 0 }
  | .set i =>
    match s.rqs[i]? with
    | some rq => some { s with
        place := if rq.address ≠ 0 then .fill i rq rq.size.toNat else .set (i + 1) }
    | none => some { s with place := .check 0 }
  | .fill i _ 0 => some { s with place := .set (i + 1) }
  | .fill i rq (length + 1) => some { s with
      heap := { s.heap with
        mem := Function.update s.heap.mem (wadd rq.address length) (UInt8.ofNat i) }
      place := .fill i rq length }
  | .check i =>
    match s.rqs[i]? with
    | some rq => some { s with
        place := if rq.address ≠ 0 then .compare i rq 0 else .check (i + 1) }
    | none => some { s with place := .release 0 }
  | .compare i rq k =>
    if k < rq.size.toNat then
      some { s with
        place := if s.heap.mem (wadd rq.address k) ≠ UInt8.ofNat i then .error
          else .compare i rq (k + 1) }
    else some { s with place := .check (i + 1) }
  | .release i =>
    match s.rqs[i]? with
    | some rq =>
      if rq.address ≠ 0 then (free s.heap rq.address).map fun h =>
        { s with heap := h, place := .release (i + 1) }
      else some { s with place := .release (i + 1) }
    | none => some { s with rqs := [], total := 0, place := .request }
  | .error => none

/-- The test makes its next step, or another process calls the heap or writes a byte. -/
inductive Event where
  | own (size : UInt32)
  | other (e : FirstFit.Event)

def step (maxMemory : ℕ) (s : State) : Event → Option State
  | .own size => s.own maxMemory size
  | .other (.call c) => (c.exec s.heap).map fun r => { s with heap := r.1 }
  | .other (.write a v) =>
    some { s with heap := { s.heap with mem := Function.update s.heap.mem a.toNat v } }

/-- The blocks that the test has and has not given back. -/
def State.live (s : State) : List MmRq :=
  match s.place with
  | .release i => s.rqs.drop i
  | _ => s.rqs

/-- The pointer is none of the test's. -/
def Foreign (s : State) (ptr : ℕ) : Prop := ∀ rq ∈ s.live, rq.address ≠ ptr

/-- Other processes free blocks of their own and write to blocks of their own. -/
def Minds (s : State) : Event → Prop
  | .other (.call (.free ptr)) => Foreign s ptr.toNat
  | .other (.write a _) => ∃ alloc, BlockList s.heap.mem s.heap.allocList alloc ∧
      ∃ b ∈ alloc, Foreign s (b.addr + sizeofBlockData) ∧
        b.addr + sizeofBlockData ≤ a.toNat ∧ a.toNat < b.stop
  | _ => True

/-! ## The blocks of the test -/

/-- The request has a block of its own. -/
def HasBlock (L : Layout) (rq : MmRq) : Prop :=
  ∃ b ∈ L.alloc, rq.address = b.addr + sizeofBlockData ∧ rq.address < 2 ^ 64 ∧
    rq.size.toNat ≤ b.size

variable {lo hi n : ℕ} {L : Layout} {rq rq' : MmRq}

theorem HasBlock.inPayload (h : HasBlock L rq) {k : ℕ} (hk : k < rq.size.toNat) :
    L.InPayload (rq.address + k) := by
  obtain ⟨b, hb, haddr, -, hsize⟩ := h
  refine ⟨b, hb, by omega, ?_⟩
  show _ < b.addr + sizeofBlockData + b.size
  omega

theorem HasBlock.address_ne_zero (h : HasBlock L rq) : rq.address ≠ 0 := by
  obtain ⟨b, -, haddr, -⟩ := h
  simp only [sizeofBlockData] at haddr
  omega

/-- A byte of a block has an address. -/
theorem HasBlock.lt (h : HasBlock L rq) (hwf : Wf lo hi L) {k : ℕ} (hk : k < rq.size.toNat) :
    rq.address + k < 2 ^ 64 := by
  obtain ⟨b, hb, -, hhi⟩ := h.inPayload hk
  exact lt_of_lt_of_le hhi (hwf.separated.stop_le b (List.mem_append_right _ hb))

/-- Two blocks have no byte in common. -/
theorem HasBlock.byte_ne (h : HasBlock L rq) (h' : HasBlock L rq') (hwf : Wf lo hi L)
    (hne : rq.address ≠ rq'.address) {k k' : ℕ} (hk : k < rq.size.toNat)
    (hk' : k' < rq'.size.toNat) : rq.address + k ≠ rq'.address + k' := by
  obtain ⟨b, hb, haddr, -, hsize⟩ := h
  obtain ⟨b', hb', haddr', -, hsize'⟩ := h'
  have hbb : b ≠ b' := fun heq => hne (by rw [haddr, haddr', heq])
  have hstop : b.stop = b.addr + sizeofBlockData + b.size := rfl
  have hstop' : b'.stop = b'.addr + sizeofBlockData + b'.size := rfl
  rcases hwf.alloc_apart.forall hb hb' hbb with hapart | hapart
  · omega
  · omega

theorem le_alignSize (hn : n < 2 ^ 32) : n ≤ alignSize n := by
  simp only [alignSize, wadd, sizeofSizeT]
  split_ifs <;> omega

/-- What `malloc` gives the test. -/
theorem malloc_fresh (hwf : Wf lo hi L) (hn : n < 2 ^ 32) :
    L.malloc n = (L, 0) ∨ ∃ b, (L.malloc n).1.alloc = b :: L.alloc ∧
      (L.malloc n).2 = b.addr + sizeofBlockData ∧ b.addr + sizeofBlockData < 2 ^ 64 ∧
        n ≤ b.size := by
  have hle := le_alignSize hn
  rcases malloc_cases hwf n with
    ⟨-, hval⟩ | ⟨before, b, after, hn0, hfree, -, hfit, ⟨-, hval⟩ | ⟨-, -, hval⟩⟩
  · exact Or.inl hval
  all_goals
    have hb : b ∈ L.blocks := List.mem_append_left _ (by rw [hfree]; simp)
    have hstop := hwf.separated.stop_le b hb
    have hspan : b.stop = b.addr + 16 + b.size := rfl
    have hlt : b.addr + 16 < 2 ^ 64 := by omega
    have haddr : wadd b.addr 16 = b.addr + 16 := wadd_of_lt hlt
  · exact Or.inr ⟨⟨b.addr, alignSize n⟩, by rw [hval], by rw [hval]; exact haddr, hlt, hle⟩
  · exact Or.inr ⟨b, by rw [hval], by rw [hval]; exact haddr, hlt, by omega⟩

/-- A block stays until it is given back. -/
theorem HasBlock.call (h : HasBlock L rq) (hwf : Wf lo hi L) {c : Call}
    (hc : ∀ ptr, c = .free ptr → rq.address ≠ ptr.toNat) : HasBlock (c.edit L).1 rq := by
  obtain ⟨b, hb, haddr, hlt, hsize⟩ := h
  cases c with
  | malloc size =>
    refine ⟨b, ?_, haddr, hlt, hsize⟩
    rcases malloc_alloc hwf size.toNat with hval | ⟨d, halloc, -⟩
    · simpa only [Call.edit, hval] using hb
    · rw [Call.edit, halloc]
      exact List.mem_cons_of_mem d hb
  | free ptr =>
    have hne := hc ptr rfl
    have hstop := hwf.separated.stop_le b (List.mem_append_right _ hb)
    have hspan : b.stop = b.addr + 16 + b.size := rfl
    have hptr := ptr.toNat_lt
    simp only [sizeofBlockData] at haddr
    refine ⟨b, ?_, haddr, hlt, hsize⟩
    rcases release_cases L ptr.toNat with ⟨-, hval⟩ | ⟨d, -, hd, hval⟩
    · simpa only [Call.edit, hval] using hb
    · have hbd : b ≠ d := by
        rintro rfl
        simp only [wsub] at hd
        omega
      rw [Call.edit, hval]
      exact (List.mem_erase_of_ne hbd).mpr hb

/-! ## The invariant -/

/-- The bytes that `memset` has written. -/
def Place.wrote : Place → ℕ → ℕ → Prop
  | .set i, j, _ => j < i
  | .fill i _ length, j, k => j < i ∨ j = i ∧ length ≤ k
  | .check _, _, _ | .compare _ _ _, _, _ => True
  | _, _, _ => False

/-- The variables of `memset` and `memcheck`. -/
def Place.fits (rqs : List MmRq) : Place → Prop
  | .fill i rq length => rqs[i]? = some rq ∧ length ≤ rq.size.toNat
  | .compare i rq _ => rqs[i]? = some rq
  | .error => False
  | _ => True

/-- The blocks of the test are live and different ones, and hold what has been written to them. -/
structure Kept (lo hi : ℕ) (s : State) (L : Layout) : Prop where
  represents : Represents s.heap L
  wf : Wf lo hi L
  blocks : ∀ rq ∈ s.live, HasBlock L rq
  nodup : (s.live.map MmRq.address).Nodup
  filled : ∀ i rq, s.rqs[i]? = some rq → ∀ k, s.place.wrote i k → k < rq.size.toNat →
    s.heap.mem (rq.address + k) = UInt8.ofNat i
  fits : s.place.fits s.rqs

variable {s s' : State} {place : Place}

theorem live_eq (hplace : ∀ i, s.place ≠ .release i) : s.live = s.rqs := by
  unfold State.live
  split
  · next i heq => exact absurd heq (hplace i)
  · rfl

/-- The test has entered the entry in `mm_rqs` while it fills or compares it. -/
theorem Kept.hasBlock (h : Kept lo hi s L) (hplace : ∀ i, s.place ≠ .release i) {i : ℕ}
    (hrq : s.rqs[i]? = some rq) : HasBlock L rq :=
  h.blocks rq (by rw [live_eq hplace]; exact List.mem_of_getElem? hrq)

/-- The test goes on without a call and without a write. -/
theorem Kept.goto (h : Kept lo hi s L) (hold : ∀ i, s.place ≠ .release i)
    (hnew : ∀ i, place ≠ .release i)
    (hwrote : ∀ i rq k, s.rqs[i]? = some rq → k < rq.size.toNat → place.wrote i k →
      s.place.wrote i k) (hfits : place.fits s.rqs) : Kept lo hi { s with place := place } L := by
  have hlive : ({ s with place := place } : State).live = s.live :=
    (live_eq hnew).trans (live_eq hold).symm
  refine ⟨h.represents, h.wf, ?_, ?_, fun i rq hrq k hk hlt => ?_, hfits⟩
  · rw [hlive]
    exact h.blocks
  · rw [hlive]
    exact h.nodup
  · exact h.filled i rq hrq k (hwrote i rq k hrq hlt hk) hlt

/-- Another process calls the heap. -/
theorem Kept.call (h : Kept lo hi s L) {c : Call} (hminds : Minds s (.other (.call c))) {max : ℕ} :
    ∃ s', step max s (.other (.call c)) = some s' ∧ ∃ L', Kept lo hi s' L' := by
  obtain ⟨heap, hval, hr, hwf, hframe⟩ := exec_refines h.represents h.wf c
  refine ⟨{ s with heap := heap }, by rw [step, hval]; rfl, (c.edit L).1, hr, hwf,
    fun rq hrq => ?_, h.nodup, fun i rq hrq k hk hlt => ?_, h.fits⟩
  · refine (h.blocks rq hrq).call h.wf fun ptr hptr => ?_
    subst hptr
    exact hminds rq hrq
  · have hplace : ∀ j, s.place ≠ .release j := fun j hj => by
      change s.place.wrote i k at hk
      rw [hj] at hk
      exact hk
    exact (hframe _ ((h.hasBlock hplace hrq).inPayload hlt)).trans (h.filled i rq hrq k hk hlt)

/-- Another process writes to a block of its own. -/
theorem Kept.write (h : Kept lo hi s L) {a : UInt64} {v : UInt8}
    (hminds : Minds s (.other (.write a v))) : ∃ L', Kept lo hi
      { s with heap := { s.heap with mem := Function.update s.heap.mem a.toNat v } } L' := by
  obtain ⟨alloc, halloc, b, hb, hforeign, hlo', hhi'⟩ := hminds
  obtain rfl := halloc.unique h.represents.alloc
  refine ⟨L, h.represents.write h.wf ⟨b, hb, hlo', hhi'⟩ v, h.wf, h.blocks, h.nodup,
    fun i rq hrq k hk hlt => ?_, h.fits⟩
  have hplace : ∀ j, s.place ≠ .release j := fun j hj => by
    change s.place.wrote i k at hk
    rw [hj] at hk
    exact hk
  have hne : rq.address + k ≠ a.toNat := by
    obtain ⟨d, hd, haddr, -, hsize⟩ := h.hasBlock hplace hrq
    have hbd : d ≠ b := fun heq => by
      refine hforeign rq ?_ (heq ▸ haddr)
      rw [live_eq hplace]
      exact List.mem_of_getElem? hrq
    have hdstop : d.stop = d.addr + sizeofBlockData + d.size := rfl
    rcases h.wf.alloc_apart.forall hd hb hbd with hapart | hapart
    · omega
    · omega
  exact (Function.update_of_ne hne ..).trans (h.filled i rq hrq k hk hlt)

/-- `malloc` in the first loop. -/
theorem Kept.malloc (h : Kept lo hi s L) (hplace : s.place = .request) (size : UInt32) :
    ∃ heap p, FirstFit.malloc s.heap size.toNat = some (heap, p) ∧
      ∃ L', Kept lo hi { s with heap := heap } L' ∧ (p ≠ 0 →
        HasBlock L' ⟨p, size⟩ ∧ ∀ rq ∈ s.rqs, rq.address ≠ p) := by
  have hrequest : ∀ i, s.place ≠ .release i := fun i hi => by
    rw [hplace] at hi
    exact Place.noConfusion hi
  have hsize : size.toUInt64.toNat = size.toNat := UInt32.toNat_toUInt64 size
  obtain ⟨heap, hval, hr, hwf, -⟩ := exec_refines h.represents h.wf (.malloc size.toUInt64)
  obtain ⟨r, hmalloc, hpair⟩ := Option.map_eq_some_iff.mp hval
  rw [hsize] at hmalloc
  obtain ⟨rfl, hp⟩ := Prod.mk.inj hpair
  have hptr : r.2 = (L.malloc size.toNat).2 := by
    rw [← hsize]
    exact Option.some.inj hp
  have hedit : (Call.edit L (.malloc size.toUInt64)).1 = (L.malloc size.toNat).1 := by
    rw [← hsize]
    rfl
  have hblocks : ∀ rq ∈ s.live, HasBlock (L.malloc size.toNat).1 rq := fun rq hrq => by
    rw [← hedit]
    exact (h.blocks rq hrq).call h.wf fun ptr hptr => Call.noConfusion hptr
  rw [hedit] at hr hwf
  refine ⟨r.1, r.2, hmalloc, _, ⟨hr, hwf, hblocks, h.nodup, fun i rq _ k hk _ => ?_, h.fits⟩,
    fun hne => ?_⟩
  · change s.place.wrote i k at hk
    rw [hplace] at hk
    exact hk.elim
  · rcases malloc_fresh h.wf (n := size.toNat) size.toNat_lt with
      hnull | ⟨b, halloc, haddr, hlt, hle⟩
    · rw [hptr, hnull] at hne
      exact absurd rfl hne
    · refine ⟨⟨b, ?_, hptr.trans haddr, ?_, hle⟩, fun rq hrq heq => ?_⟩
      · rw [halloc]
        exact List.mem_cons_self
      · show r.2 < 2 ^ 64
        rw [hptr, haddr]
        exact hlt
      · -- the block is none of those that were live
        obtain ⟨d, hd, hdaddr, -⟩ := h.blocks rq (by rwa [live_eq hrequest])
        have hapart := hwf.alloc_apart
        rw [halloc] at hapart
        have hne := ((List.pairwise_cons.mp hapart).1 d hd).addr_ne
        rw [hptr, haddr] at heq
        omega

/-- The last loop gives back the first block that is still live. -/
theorem live_release {i : ℕ} (hplace : s.place = .release i) (hrq : s.rqs[i]? = some rq) :
    s.live = rq :: s.rqs.drop (i + 1) := by
  obtain ⟨hlt, heq⟩ := List.getElem?_eq_some_iff.mp hrq
  rw [State.live, hplace, ← heq]
  exact List.drop_eq_getElem_cons hlt

/-- `free` in the last loop. -/
theorem Kept.free (h : Kept lo hi s L) {i : ℕ} (hplace : s.place = .release i)
    (hrq : s.rqs[i]? = some rq) :
    ∃ heap, FirstFit.free s.heap rq.address = some heap ∧
      ∃ L', Kept lo hi { s with heap := heap, place := .release (i + 1) } L' := by
  have hlive := live_release hplace hrq
  have hown := h.blocks rq (by rw [hlive]; exact List.mem_cons_self)
  have haddr : (UInt64.ofNat rq.address).toNat = rq.address := by
    obtain ⟨b, -, -, hlt, -⟩ := hown
    exact UInt64.toNat_ofNat_of_lt' hlt
  obtain ⟨heap, hval, hr, hwf, -⟩ :=
    exec_refines h.represents h.wf (.free (UInt64.ofNat rq.address))
  obtain ⟨r, hfree, hpair⟩ := Option.map_eq_some_iff.mp hval
  rw [haddr] at hfree
  obtain ⟨rfl, -⟩ := Prod.mk.inj hpair
  have hnodup := h.nodup
  rw [hlive, List.map_cons, List.nodup_cons] at hnodup
  refine ⟨r, hfree, _, hr, hwf, fun rq' hrq' => ?_, hnodup.2, fun _ _ _ _ hk => hk.elim, trivial⟩
  refine (h.blocks rq' (by rw [hlive]; exact List.mem_cons_of_mem rq hrq')).call h.wf
    fun ptr hptr => ?_
  rw [← Call.free.inj hptr, haddr]
  exact fun heq => hnodup.1 (heq ▸ List.mem_map_of_mem hrq')

/-- `memset` writes a byte. -/
theorem Kept.fillByte (h : Kept lo hi s L) {i length : ℕ}
    (hplace : s.place = .fill i rq (length + 1)) :
    Kept lo hi { s with
      heap := { s.heap with
        mem := Function.update s.heap.mem (wadd rq.address length) (UInt8.ofNat i) }
      place := .fill i rq length } L := by
  have hfill : ∀ j, s.place ≠ .release j := fun j hj => by
    rw [hplace] at hj
    exact Place.noConfusion hj
  have hfits := h.fits
  rw [hplace] at hfits
  obtain ⟨hrq, hle⟩ := hfits
  have hown := h.hasBlock hfill hrq
  have hlt : length < rq.size.toNat := hle
  rw [wadd_of_lt (hown.lt h.wf hlt)]
  have hlive : s.live = s.rqs := live_eq hfill
  refine ⟨h.represents.write h.wf (hown.inPayload hlt) _, h.wf, hlive ▸ h.blocks, hlive ▸ h.nodup,
    fun j rq' hrq' k hk hklt => ?_, hrq, hlt.le⟩
  show Function.update s.heap.mem (rq.address + length) (UInt8.ofNat i) (rq'.address + k) = _
  by_cases hji : j = i
  · -- the block that is being filled
    subst hji
    obtain rfl : rq' = rq := Option.some.inj (hrq'.symm.trans hrq)
    by_cases hkl : k = length
    · rw [hkl, Function.update_self]
    · rw [Function.update_of_ne (by omega)]
      refine h.filled j rq' hrq' k ?_ hklt
      rw [hplace]
      rcases hk with hlt' | ⟨-, hlek⟩
      · exact absurd hlt' (lt_irrefl j)
      · exact Or.inr ⟨rfl, by omega⟩
  · have hne : rq'.address ≠ rq.address := fun heq => hji <| by
      have hnodup := h.nodup
      rw [hlive] at hnodup
      have hjlt : j < (s.rqs.map MmRq.address).length := by
        rw [List.length_map]
        exact (List.getElem?_eq_some_iff.mp hrq').1
      refine (List.getElem?_inj hjlt hnodup).mp ?_
      rw [List.getElem?_map, List.getElem?_map, hrq', hrq, Option.map_some, Option.map_some, heq]
    rw [Function.update_of_ne ((h.hasBlock hfill hrq').byte_ne hown h.wf hne hklt hlt)]
    refine h.filled j rq' hrq' k ?_ hklt
    rw [hplace]
    rcases hk with hlt' | ⟨hji', -⟩
    · exact Or.inl hlt'
    · exact absurd hji' hji

/-- The first loop enters the block that `malloc` has given. -/
theorem Kept.append (h : Kept lo hi s L) (hplace : s.place = .request) {p : ℕ} {size : UInt32}
    (hown : HasBlock L ⟨p, size⟩) (hfresh : ∀ rq ∈ s.rqs, rq.address ≠ p) (total : ℕ) :
    Kept lo hi { s with rqs := s.rqs ++ [⟨p, size⟩], total := total } L := by
  have hrequest : ∀ j, s.place ≠ .release j := fun j hj => by
    rw [hplace] at hj
    exact Place.noConfusion hj
  have hlive : s.live = s.rqs := live_eq hrequest
  set t : State := { s with rqs := s.rqs ++ [⟨p, size⟩], total := total }
  have hlive' : t.live = s.rqs ++ [⟨p, size⟩] := live_eq hrequest
  refine ⟨h.represents, h.wf, fun rq hrq => ?_, ?_, fun i rq _ k hk _ => ?_, ?_⟩
  · rw [hlive'] at hrq
    rcases List.mem_append.mp hrq with hrq | hrq
    · exact h.blocks rq (hlive ▸ hrq)
    · rw [List.mem_singleton.mp hrq]
      exact hown
  · rw [hlive', List.map_append, List.nodup_append]
    refine ⟨by rw [← hlive]; exact h.nodup, List.nodup_singleton _, fun x hx y hy => ?_⟩
    obtain ⟨rq, hrq, rfl⟩ := List.mem_map.mp hx
    rw [List.mem_singleton.mp hy]
    exact hfresh rq hrq
  · change s.place.wrote i k at hk
    rw [hplace] at hk
    exact hk.elim
  · show s.place.fits (s.rqs ++ [⟨p, size⟩])
    rw [hplace]
    trivial

/-- Every step of the test. -/
theorem Kept.own (h : Kept lo hi s L) (max : ℕ) (size : UInt32) :
    ∃ s', s.own max size = some s' ∧ ∃ L', Kept lo hi s' L' := by
  have hfits := h.fits
  have hlength : ∀ {i j : ℕ} {rq : MmRq}, s.rqs[i]? = none → s.rqs[j]? = some rq → j < i :=
    fun hi hj => lt_of_lt_of_le (List.getElem?_eq_some_iff.mp hj).1
      (List.getElem?_eq_none_iff.mp hi)
  unfold State.own
  cases hplace : s.place with
  | request =>
    have hnot : ∀ j, s.place ≠ .release j := fun j hj => Place.noConfusion (hplace.symm.trans hj)
    simp only
    by_cases hmore : s.rqs.length < MAX_BLOCKS ∧ s.total < max
    · obtain ⟨heap, p, hval, L', hkept, hnew⟩ := h.malloc hplace size
      rw [if_pos hmore, hval]
      refine ⟨_, rfl, L', ?_⟩
      rw [← hplace]
      beta_reduce
      by_cases hp : p = 0
      · rw [if_neg (not_not_intro (show (heap, p).2 = 0 from hp))]
        exact hkept
      · rw [if_pos (show (heap, p).2 ≠ 0 from hp)]
        exact hkept.append hplace (hnew hp).1 (hnew hp).2 _
    · rw [if_neg hmore]
      exact ⟨_, rfl, L, h.goto hnot (fun _ => Place.noConfusion)
        (fun _ _ _ _ _ hk => absurd hk (Nat.not_lt_zero _)) trivial⟩
  | set i =>
    have hnot : ∀ j, s.place ≠ .release j := fun j hj => Place.noConfusion (hplace.symm.trans hj)
    simp only
    cases hrq : s.rqs[i]? with
    | none =>
      refine ⟨_, rfl, L, h.goto hnot (fun _ => Place.noConfusion) (fun j rq k hj _ _ => ?_) trivial⟩
      rw [hplace]
      exact hlength hrq hj
    | some rq =>
      refine ⟨_, rfl, L, ?_⟩
      rw [if_pos (h.hasBlock hnot hrq).address_ne_zero]
      refine h.goto hnot (fun _ => Place.noConfusion) (fun j rq' k hj hk hwrote => ?_) ⟨hrq, le_rfl⟩
      rw [hplace]
      rcases hwrote with hlt | ⟨rfl, hle⟩
      · exact hlt
      · obtain rfl : rq' = rq := Option.some.inj (hj.symm.trans hrq)
        exact absurd hk (not_lt.mpr hle)
  | fill i rq length =>
    have hnot : ∀ j, s.place ≠ .release j := fun j hj => Place.noConfusion (hplace.symm.trans hj)
    cases length with
    | zero =>
      refine ⟨_, rfl, L, h.goto hnot (fun _ => Place.noConfusion) (fun j _ k _ _ hlt => ?_) trivial⟩
      rw [hplace]
      rcases Nat.lt_succ_iff_lt_or_eq.mp hlt with hlt | heq
      · exact Or.inl hlt
      · exact Or.inr ⟨heq, Nat.zero_le k⟩
    | succ length => exact ⟨_, rfl, L, h.fillByte hplace⟩
  | check i =>
    have hnot : ∀ j, s.place ≠ .release j := fun j hj => Place.noConfusion (hplace.symm.trans hj)
    simp only
    cases hrq : s.rqs[i]? with
    | none =>
      have hlive : s.live = s.rqs := live_eq hnot
      exact ⟨_, rfl, L, h.represents, h.wf, hlive ▸ h.blocks, hlive ▸ h.nodup,
        fun _ _ _ _ hk => hk.elim, trivial⟩
    | some rq =>
      refine ⟨_, rfl, L, ?_⟩
      rw [if_pos (h.hasBlock hnot hrq).address_ne_zero]
      exact h.goto hnot (fun _ => Place.noConfusion) (fun _ _ _ _ _ _ => hplace ▸ trivial) hrq
  | compare i rq k =>
    have hnot : ∀ j, s.place ≠ .release j := fun j hj => Place.noConfusion (hplace.symm.trans hj)
    rw [hplace] at hfits
    simp only
    by_cases hk : k < rq.size.toNat
    · have hbyte : s.heap.mem (wadd rq.address k) = UInt8.ofNat i := by
        rw [wadd_of_lt ((h.hasBlock hnot hfits).lt h.wf hk)]
        exact h.filled i rq hfits k (by rw [hplace]; trivial) hk
      rw [if_pos hk, if_neg (not_not_intro hbyte)]
      exact ⟨_, rfl, L, h.goto hnot (fun _ => Place.noConfusion)
        (fun _ _ _ _ _ _ => hplace ▸ trivial) hfits⟩
    · rw [if_neg hk]
      exact ⟨_, rfl, L, h.goto hnot (fun _ => Place.noConfusion)
        (fun _ _ _ _ _ _ => hplace ▸ trivial) trivial⟩
  | release i =>
    simp only
    cases hrq : s.rqs[i]? with
    | none =>
      exact ⟨_, rfl, L, h.represents, h.wf, fun _ hrq => absurd hrq List.not_mem_nil,
        List.nodup_nil, fun _ _ _ _ hk => hk.elim, trivial⟩
    | some rq =>
      obtain ⟨heap, hfree, hkept⟩ := h.free hplace hrq
      have hmem : rq ∈ s.live := by
        rw [live_release hplace hrq]
        exact List.mem_cons_self
      simp only [if_pos (h.blocks rq hmem).address_ne_zero, hfree]
      exact ⟨_, rfl, hkept⟩
  | error =>
    rw [hplace] at hfits
    exact hfits.elim

/-! ## Runs -/

/-- **`test_mm` finds no error.** Whatever sizes it asks for, and whatever other processes do in
between with the heap and with blocks of their own, the test never gets stuck and never finds a byte
that it has not written. -/
theorem test_mm_finds_no_error (m : Mem) (address size : UInt64)
    (hend : address.toNat + size.toNat ≤ 2 ^ 64) (maxMemory : ℕ) (es : List Event)
    (hminds : Throughout (step maxMemory) Minds
      ⟨(initMemoryManager (boot m) address.toNat size.toNat).1, [], 0, .request⟩ es) :
    ∃ s, run (step maxMemory)
        ⟨(initMemoryManager (boot m) address.toNat size.toNat).1, [], 0, .request⟩ es = some s ∧
      s.place ≠ .error := by
  obtain ⟨lo, hi, L, hr, hwf, -⟩ := init_represents m hend
  set start : State := ⟨(initMemoryManager (boot m) address.toNat size.toNat).1, [], 0, .request⟩
  have hstart : Kept lo hi start L := ⟨hr, hwf, fun _ hrq => absurd hrq List.not_mem_nil,
    List.nodup_nil, fun _ _ _ _ hk => hk.elim, trivial⟩
  have hstep : ∀ s e, (∃ L, Kept lo hi s L) → Minds s e →
      ∃ s', step maxMemory s e = some s' ∧ ∃ L, Kept lo hi s' L := by
    intro s e hs he
    obtain ⟨L, hs⟩ := hs
    cases e with
    | own size => exact hs.own maxMemory size
    | other e =>
      cases e with
      | call c => exact hs.call he
      | write a v => exact ⟨_, rfl, hs.write he⟩
  obtain ⟨s, hrun, L', hs⟩ := run_total ⟨L, hstart⟩ hminds hstep
  refine ⟨s, hrun, fun herror => ?_⟩
  have hfits := hs.fits
  rw [herror] at hfits
  exact hfits

/-! ## Two processes -/

/-- Other processes free what is not the test's, and write to few blocks of their own. -/
def MindsListed (s : State) : Event → Prop
  | .other (.call (.free ptr)) => Foreign s ptr.toNat
  | .other (.write a _) => ∃ alloc ∈ listed s.heap.mem 4 s.heap.allocList, ∃ b ∈ alloc,
      Foreign s (b.addr + sizeofBlockData) ∧ b.addr + sizeofBlockData ≤ a.toNat ∧ a.toNat < b.stop
  | _ => True

instance (s : State) (ptr : ℕ) : Decidable (Foreign s ptr) :=
  inferInstanceAs (Decidable (∀ rq ∈ s.live, _))

instance (s : State) (e : Event) : Decidable (MindsListed s e) :=
  match e with
  | .own _ => isTrue trivial
  | .other (.call (.malloc _)) => isTrue trivial
  | .other (.call (.free ptr)) => inferInstanceAs (Decidable (Foreign s ptr.toNat))
  | .other (.write _ _) =>
    inferInstanceAs (Decidable (∃ alloc ∈ listed s.heap.mem 4 s.heap.allocList, _))

theorem MindsListed.minds {s : State} {e : Event} (h : MindsListed s e) : Minds s e := by
  cases e with
  | own size => trivial
  | other e =>
    cases e with
    | call c =>
      cases c with
      | malloc n => trivial
      | free ptr => exact h
    | write a v =>
      obtain ⟨alloc, halloc, b, hb, hforeign⟩ := h
      exact ⟨alloc, blockList_of_listed halloc, b, hb, hforeign⟩

/-- The test gets a block of three bytes and one of one byte, fills them, checks them, gives them
back and begins again. Between the two, another process has a block that it writes to meanwhile and
gives back before the test does. -/
def twoProcesses : List Event :=
  [.own 3, .other (.call (.malloc 16)), .other (.write 0x600028 255), .own 1] ++
    List.replicate 6 (.own 1) ++ [.other (.write 0x600037 254)] ++
    List.replicate 5 (.own 1) ++ [.other (.call (.malloc 8)), .other (.write 0x600060 253)] ++
    List.replicate 5 (.own 1) ++ [.other (.call (.free 0x600028))] ++ List.replicate 9 (.own 2)

theorem test_mm_finds_no_error_page : ∃ s, run (step 4)
    ⟨(initMemoryManager (boot fun _ => 0) 0x600000 0x1000).1, [], 0, .request⟩ twoProcesses =
      some s ∧ s.place ≠ .error := by
  have hlisted : Throughout (step 4) MindsListed
      ⟨(initMemoryManager (boot fun _ => 0) 0x600000 0x1000).1, [], 0, .request⟩ twoProcesses := by
    decide +kernel
  exact test_mm_finds_no_error (fun _ => 0) 0x600000 0x1000 (by decide) 4 twoProcesses
    (hlisted.mono fun _ _ h => h.minds)

end TronKernel.Tests.Memory
