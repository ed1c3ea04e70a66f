import TronKernel.Heap.Runs

/-!
# Client data and in-band headers

A program calls the heap and writes into the payloads of live blocks. The run is compared with the
run of its calls alone: both memories represent the same layout after every step, although they
differ in the payloads, and what the program wrote stays where it wrote it
(`client_writes_isolated`).
-/

namespace TronKernel.FirstFit

open Mem Layout Runs

/-- What the program does. -/
inductive Event where
  | call (c : Call)
  | write (a : UInt64) (v : UInt8)

/-- The calls of the program, without its writes. -/
def Event.call? : Event → Option Call
  | .call c => some c
  | .write _ _ => none

/-- The heap, the pointers returned so far and the last byte the program wrote to each address since
the address was handed out. -/
structure Session where
  heap : Heap
  ptrs : List ℕ
  written : ℕ → Option UInt8

/-- The byte belongs to the block that `malloc` has just returned. -/
def handedOut (h : Heap) (ptr : Option ℕ) (x : ℕ) : Bool :=
  match ptr with
  | none => false
  | some p => p ≠ 0 ∧ p ≤ x ∧ x < p + blockSize h.mem (wsub p sizeofBlockData)

/-- One event. Nothing has been written yet to a block that is handed out. -/
def Session.step (s : Session) : Event → Option Session
  | .call c => (c.exec s.heap).map fun r =>
      { heap := r.1
        ptrs := s.ptrs ++ r.2.toList
        written := fun x => if handedOut r.1 r.2 x then none else s.written x }
  | .write a v => some
      { s with
        heap := { s.heap with mem := Function.update s.heap.mem a.toNat v }
        written := Function.update s.written a.toNat (some v) }

/-- A byte in the payload of a block on the alloc list. -/
def InLivePayload (h : Heap) (x : ℕ) : Prop :=
  ∃ alloc, BlockList h.mem h.allocList alloc ∧
    ∃ b ∈ alloc, b.addr + sizeofBlockData ≤ x ∧ x < b.stop

/-- Writes go to payloads of live blocks only. -/
def Confined (s : Session) : Event → Prop
  | .call _ => True
  | .write a _ => InLivePayload s.heap a.toNat

variable {lo hi : ℕ} {h : Heap} {L : Layout} {x : ℕ}

theorem Represents.inLivePayload (hr : Represents h L) : InLivePayload h x ↔ L.InPayload x := by
  constructor
  · rintro ⟨alloc, halloc, hx⟩
    obtain rfl := halloc.unique hr.alloc
    exact hx
  · exact fun hx => ⟨L.alloc, hr.alloc, hx⟩

/-- A client write touches no header. -/
theorem Represents.write (hr : Represents h L) (hwf : Wf lo hi L) (hx : L.InPayload x)
    (v : UInt8) : Represents { h with mem := Function.update h.mem x v } L := by
  obtain ⟨b, hb, hlo, hhi⟩ := hx
  simp only [sizeofBlockData] at hlo
  have hbmem : b ∈ L.blocks := List.mem_append_right _ hb
  have hapart : ∀ c ∈ L.blocks, x < c.addr ∨ c.addr + 16 ≤ x := fun c hc => by
    have hcle := c.addr_add_le
    by_cases hcb : c = b
    · exact Or.inr (hcb ▸ hlo)
    · rcases hwf.apart.forall hc hbmem hcb with h | h <;> omega
  have hsame : ∀ c ∈ L.blocks, SameHeader h.mem (Function.update h.mem x v) c.addr := by
    intro c hc
    have hxc := hapart c hc
    have hcle := c.addr_add_le
    have hstop := hwf.separated.stop_le c hc
    have hframe : ∀ y, c.addr ≤ y → y < c.addr + 16 →
        Function.update h.mem x v y = h.mem y := fun y h₁ h₂ =>
      Function.update_of_ne (by omega) _ _
    constructor
    · exact loadLE_congr fun y h₁ h₂ => hframe y h₁ (by omega)
    · rw [blockNext, blockNext, wadd_of_lt (by omega)]
      exact loadLE_congr fun y h₁ h₂ => hframe y (by omega) (by omega)
  exact ⟨hr.free.congr fun c hc => hsame c (List.mem_append_left _ hc),
    hr.alloc.congr fun c hc => hsame c (List.mem_append_right _ hc), hr.info⟩

/-- `malloc` returns null and changes nothing, or puts the returned block on the alloc list. -/
theorem malloc_alloc (hwf : Wf lo hi L) (n : ℕ) :
    L.malloc n = (L, 0) ∨
      ∃ b, (L.malloc n).1.alloc = b :: L.alloc ∧ (L.malloc n).2 = wadd b.addr 16 := by
  rcases malloc_cases hwf n with
    ⟨-, hval⟩ | ⟨before, b, after, -, -, -, -, ⟨-, hval⟩ | ⟨-, -, hval⟩⟩
  · exact Or.inl hval
  · exact Or.inr ⟨⟨b.addr, alignSize n⟩, by rw [hval], by rw [hval]⟩
  · exact Or.inr ⟨b, by rw [hval], by rw [hval]⟩

/-- A payload byte after a call was one before it or has just been handed out. -/
theorem inPayload_edit (hwf : Wf lo hi L) (c : Call) (hr : Represents h (c.edit L).1)
    (hwf' : Wf lo hi (c.edit L).1) (hx : (c.edit L).1.InPayload x) :
    L.InPayload x ∨ handedOut h (c.edit L).2 x = true := by
  obtain ⟨b, hb, hlo, hhi⟩ := hx
  cases c with
  | malloc size =>
    rcases malloc_alloc hwf size.toNat with hval | ⟨d, halloc, hptr⟩
    · refine Or.inl ⟨b, ?_, hlo, hhi⟩
      simpa only [Call.edit, hval] using hb
    · rw [Call.edit, halloc] at hb
      rcases List.mem_cons.mp hb with rfl | hb
      · right
        have hmem : b ∈ (L.malloc size.toNat).1.alloc := by rw [halloc]; simp
        have hsize : blockSize h.mem b.addr = b.size := hr.alloc.size_eq b hmem
        have hstop := hwf'.separated.stop_le b (List.mem_append_right _ hmem)
        have hspan : b.addr + 16 + b.size = b.stop := rfl
        simp only [sizeofBlockData] at hlo
        have hp : wadd b.addr 16 = b.addr + 16 := wadd_of_lt (by omega)
        have hback : wsub (b.addr + 16) 16 = b.addr := by
          rw [wsub_of_le (by omega) (by omega)]; omega
        simp only [handedOut, Call.edit, hptr, hp, sizeofBlockData, hback, hsize,
          decide_eq_true_eq]
        omega
      · exact Or.inl ⟨b, hb, hlo, hhi⟩
  | free ptr =>
    refine Or.inl ⟨b, ?_, hlo, hhi⟩
    rcases release_cases L ptr.toNat with ⟨-, hval⟩ | ⟨d, -, -, hval⟩
    · simpa only [Call.edit, hval] using hb
    · rw [Call.edit, hval] at hb
      exact List.mem_of_mem_erase hb

/-! ## The run with the writes and the run without them -/

/-- Both heaps represent one layout, and the program's bytes are where it wrote them. -/
structure Alongside (lo hi : ℕ) (s : Session) (t : Heap × List ℕ) (L : Layout) : Prop where
  session : Represents s.heap L
  calls : Represents t.1 L
  wf : Wf lo hi L
  ptrs : s.ptrs = t.2
  kept : ∀ x, L.InPayload x → ∀ v, s.written x = some v → s.heap.mem x = v

theorem Alongside.step {s : Session} {t : Heap × List ℕ} (hs : Alongside lo hi s t L) (e : Event)
    (hconf : Confined s e) :
    ∃ s' t', s.step e = some s' ∧ run stepCall t e.call?.toList = some t' ∧
      ∃ L', Alongside lo hi s' t' L' := by
  cases e with
  | call c =>
    obtain ⟨h₁, hval₁, hr₁, hwf₁, hframe₁⟩ := exec_refines hs.session hs.wf c
    obtain ⟨h₂, hval₂, hr₂, -, -⟩ := exec_refines hs.calls hs.wf c
    refine ⟨_, (h₂, t.2 ++ (c.edit L).2.toList), by simp only [Session.step, hval₁]; rfl, ?_,
      (c.edit L).1, hr₁, hr₂, hwf₁, by simp only [hs.ptrs], ?_⟩
    · simp only [Event.call?, Option.toList_some, run_cons, stepCall, hval₂]
      rfl
    · intro x hx v hv
      by_cases hout : handedOut h₁ (c.edit L).2 x
      · simp [hout] at hv
      · have hold : L.InPayload x := (inPayload_edit hs.wf c hr₁ hwf₁ hx).resolve_right hout
        simp only [hout, Bool.false_eq_true, if_false] at hv
        rw [hframe₁ x hold]
        exact hs.kept x hold v hv
  | write a v =>
    have hpay := hs.session.inLivePayload.mp hconf
    refine ⟨_, t, rfl, rfl, L, hs.session.write hs.wf hpay v, hs.calls, hs.wf, hs.ptrs, ?_⟩
    intro x hx w hw
    by_cases hxa : x = a.toNat
    · subst hxa
      simpa using hw
    · simp only [Function.update_of_ne hxa] at hw ⊢
      exact hs.kept x hx w hw

/-- The program's writes change neither the allocator's lists, counters and results nor any byte it
wrote to a block that is still live. -/
theorem client_writes_isolated (m : Mem) (address size : UInt64) (es : List Event)
    (hend : address.toNat + size.toNat ≤ 2 ^ 64)
    (hconf : Throughout Session.step Confined
      ⟨(initMemoryManager (boot m) address.toNat size.toNat).1, [], fun _ => none⟩ es) :
    ∃ s h free alloc,
      run Session.step
        ⟨(initMemoryManager (boot m) address.toNat size.toNat).1, [], fun _ => none⟩ es = some s ∧
      run stepCall ((initMemoryManager (boot m) address.toNat size.toNat).1, [])
        (es.filterMap Event.call?) = some (h, s.ptrs) ∧
      BlockList s.heap.mem s.heap.freeList free ∧ BlockList h.mem h.freeList free ∧
      BlockList s.heap.mem s.heap.allocList alloc ∧ BlockList h.mem h.allocList alloc ∧
      s.heap.memoryInfo = h.memoryInfo ∧
      ∀ b ∈ alloc, ∀ x, b.addr + sizeofBlockData ≤ x → x < b.stop →
        ∀ v, s.written x = some v → s.heap.mem x = v := by
  obtain ⟨lo, hi, L, hr, hwf, halloc, -⟩ := init_represents m hend
  set h₀ := (initMemoryManager (boot m) address.toNat size.toNat).1
  have hstart : ∃ L, Alongside lo hi ⟨h₀, [], fun _ => none⟩ (h₀, []) L :=
    ⟨L, hr, hr, hwf, rfl, fun x _ v hv => absurd hv (by simp)⟩
  obtain ⟨s, ⟨h, ptrs⟩, hrun, hcalls, L', hs⟩ := run_simulation
    (R := fun s t => ∃ L, Alongside lo hi s t L) hstart hconf
    fun s t e ⟨L, hs⟩ he => hs.step e he
  refine ⟨s, h, L'.free, L'.alloc, hrun, ?_, hs.session.free, hs.calls.free, hs.session.alloc,
    hs.calls.alloc, hs.session.info.trans hs.calls.info.symm, fun b hb x hlo hhi =>
      hs.kept x ⟨b, hb, hlo, hhi⟩⟩
  rw [hcalls, ← (show s.ptrs = ptrs from hs.ptrs)]

/-! ## Blocks that can be counted -/

/-- The blocks that the pointers lead to, if there are no more than so many. -/
def listed (m : Mem) : ℕ → ℕ → Option (List Block)
  | 0, p => if p = 0 then some [] else none
  | rounds + 1, p =>
    if p = 0 then some []
    else (listed m rounds (blockNext m p)).map fun bs => ⟨p, blockSize m p⟩ :: bs

theorem blockList_of_listed {m : Mem} {rounds p : ℕ} {bs : List Block}
    (h : listed m rounds p = some bs) : BlockList m p bs := by
  induction rounds generalizing p bs with
  | zero =>
    rw [listed] at h
    split_ifs at h with hp
    obtain rfl := Option.some.inj h
    exact blockList_nil.mpr hp
  | succ rounds ih =>
    rw [listed] at h
    split_ifs at h with hp
    · obtain rfl := Option.some.inj h
      exact blockList_nil.mpr hp
    · obtain ⟨bs', hbs', rfl⟩ := Option.map_eq_some_iff.mp h
      exact blockList_cons.mpr ⟨rfl, hp, rfl, ih hbs'⟩

/-- A byte in the payload of one of at most four live blocks. -/
def InListed (h : Heap) (x : ℕ) : Prop :=
  ∃ alloc ∈ listed h.mem 4 h.allocList, ∃ b ∈ alloc, b.addr + sizeofBlockData ≤ x ∧ x < b.stop

instance (h : Heap) (x : ℕ) : Decidable (InListed h x) :=
  inferInstanceAs (Decidable (∃ alloc ∈ listed h.mem 4 h.allocList, _))

theorem InListed.inLivePayload (hx : InListed h x) : InLivePayload h x := by
  obtain ⟨alloc, halloc, b, hb, hx⟩ := hx
  exact ⟨alloc, blockList_of_listed halloc, b, hb, hx⟩

/-- Writes go to few live blocks. -/
def ConfinedToListed (s : Session) : Event → Prop
  | .call _ => True
  | .write a _ => InListed s.heap a.toNat

instance (s : Session) (e : Event) : Decidable (ConfinedToListed s e) :=
  match e with
  | .call _ => isTrue trivial
  | .write a _ => inferInstanceAs (Decidable (InListed s.heap a.toNat))

theorem ConfinedToListed.confined {s : Session} {e : Event} (h : ConfinedToListed s e) :
    Confined s e := by
  cases e with
  | call c => trivial
  | write a v => exact InListed.inLivePayload h

/-- Two blocks on a page at 6 MiB are written at both ends. The first one is given back and becomes
a smaller one, and both are written again. -/
def busyPage : List Event :=
  [.call (.malloc 32), .call (.malloc 16), .write 0x600010 7, .write 0x60002f 9, .write 0x600040 5,
    .write 0x60004f 6, .call (.free 0x600010), .call (.malloc 8), .write 0x600017 3,
    .write 0x600040 4]

theorem client_writes_isolated_page :
    ∃ s h free alloc,
      run Session.step
        ⟨(initMemoryManager (boot fun _ => 0) 0x600000 0x1000).1, [], fun _ => none⟩ busyPage =
          some s ∧
      run stepCall ((initMemoryManager (boot fun _ => 0) 0x600000 0x1000).1, [])
        [.malloc 32, .malloc 16, .free 0x600010, .malloc 8] = some (h, s.ptrs) ∧
      BlockList s.heap.mem s.heap.freeList free ∧ BlockList h.mem h.freeList free ∧
      BlockList s.heap.mem s.heap.allocList alloc ∧ BlockList h.mem h.allocList alloc ∧
      s.heap.memoryInfo = h.memoryInfo ∧
      ∀ b ∈ alloc, ∀ x, b.addr + sizeofBlockData ≤ x → x < b.stop →
        ∀ v, s.written x = some v → s.heap.mem x = v := by
  have hlisted : Throughout Session.step ConfinedToListed
      ⟨(initMemoryManager (boot fun _ => 0) 0x600000 0x1000).1, [], fun _ => none⟩ busyPage := by
    decide +kernel
  exact client_writes_isolated (fun _ => 0) 0x600000 0x1000 busyPage (by decide)
    (hlisted.mono fun _ _ h => h.confined)

end TronKernel.FirstFit
