import TronKernel.Heap.Accounting
import TronKernel.Sched.Slice
import TronKernel.Sched.Waiting

/-!
# Creating and destroying a process gives the heap back

`newProcess` takes its blocks in one order and `free_proc` gives them back in another, each call of
`free` with its own merges. Of the first-fit heap that does not matter: the free list is determined
by the blocks that are live, and the counters by the two lists. So blocks that have been taken and
given back, in any order, leave no trace (`mallocs_undone`), and what `free_proc` gives back are
exactly the blocks that `newProcess` took.

The number of arguments is an `int`. Of 2³² arguments none is copied, and with 2³¹ the end of the
list is written in front of it.
-/

namespace TronKernel.Sched

open Programs Sem

variable {H : Type} [Allocator H] {h : H} {n : ℕ} {ns ms : List ℕ}

/-! ## Several blocks -/

/-- `malloc` for one size after the other: the heap and the pointers. -/
def mallocs (h : H) : List ℕ → H × List ℕ
  | [] => (h, [])
  | n :: ns =>
    let r := mallocs (Allocator.malloc h n).1 ns
    (r.1, (Allocator.malloc h n).2 :: r.2)

/-- None of them returns NULL. -/
def AllSucceed (h : H) (ns : List ℕ) : Prop := ∀ a ∈ (mallocs h ns).2, a ≠ 0

instance (h : H) (ns : List ℕ) : Decidable (AllSucceed h ns) :=
  inferInstanceAs (Decidable (∀ a ∈ (mallocs h ns).2, a ≠ 0))

theorem allSucceed_cons : AllSucceed h (n :: ns) ↔
    (Allocator.malloc h n).2 ≠ 0 ∧ AllSucceed (Allocator.malloc h n).1 ns := by
  simp [AllSucceed, mallocs]

theorem live_mallocs {a : ℕ} (ha : Allocator.Live h a) (ns : List ℕ) :
    Allocator.Live (mallocs h ns).1 a := by
  induction ns generalizing h with
  | nil => exact ha
  | cons n ns ih => exact ih (live_malloc_of_live ha)

theorem fresh_mallocs (hall : AllSucceed h ns) : Fresh h (mallocs h ns).1 (mallocs h ns).2 := by
  induction ns generalizing h with
  | nil => exact Fresh.nil h h
  | cons n ns ih =>
    obtain ⟨hne, hall⟩ := allSucceed_cons.mp hall
    have hf := ih hall
    have hlive : Allocator.Live (Allocator.malloc h n).1 (Allocator.malloc h n).2 :=
      (Allocator.live_malloc h n _).mpr (Or.inr ⟨hne, rfl⟩)
    refine ⟨List.nodup_cons.mpr ⟨fun hmem => hf.not_live _ hmem hlive, hf.nodup⟩, ?_, ?_⟩
    · intro a ha
      rcases List.mem_cons.mp ha with rfl | ha
      · exact Allocator.malloc_fresh h n
      · exact fun hold => hf.not_live a ha (live_malloc_of_live hold)
    · intro a ha
      rcases List.mem_cons.mp ha with rfl | ha
      · exact live_mallocs hlive ns
      · exact hf.live a ha

/-! ## The first-fit heap -/

section FirstFit

open FirstFit FirstFit.Layout

variable {lo hi : ℕ} {L : Layout}

/-- Next to a live block no free block is as large as the one whose split test wraps. -/
theorem free_size_ne (hwf : Wf lo hi L) (hlive : L.alloc ≠ []) {b : Block} (hb : b ∈ L.free) :
    b.size ≠ 2 ^ 64 - 24 := by
  have hfill := hwf.charged_add_payload
  have hpay := le_payload hb
  have halloc := List.length_pos_iff.mpr hlive
  have hfree := List.length_pos_of_mem hb
  have hhi := hwf.hi_le
  have hlo := hwf.lo_pos
  simp only [charged, sizeofBlockData] at hfill
  omega

theorem alloc_malloc {h : FirstFitHeap} (hwf : Wf lo hi h.1)
    (hne : (Allocator.malloc h n).2 ≠ 0) :
    ∃ b, (Allocator.malloc h n).1.1.alloc = b :: h.1.alloc ∧
      (Allocator.malloc h n).2 = wadd b.addr 16 := by
  refine (malloc_alloc hwf n).resolve_left fun hval => hne ?_
  exact congrArg Prod.snd hval

/-- Calls of `malloc` that succeed put their blocks before the live ones, and the counters
follow. -/
theorem layout_mallocs {h : FirstFitHeap} (hwf : Wf lo hi h.1) (hreduced : Reduced h.1.info)
    (hlive : h.1.alloc ≠ []) (hall : AllSucceed h ns) :
    Wf lo hi (mallocs h ns).1.1 ∧ Reduced (mallocs h ns).1.1.info ∧
      Balanced h.1 (mallocs h ns).1.1 ∧ ∃ bs, (mallocs h ns).1.1.alloc = bs ++ h.1.alloc ∧
        ∀ p, p ∈ (mallocs h ns).2 ↔ p ∈ bs.map fun b => wadd b.addr 16 := by
  induction ns generalizing h with
  | nil => exact ⟨hwf, hreduced, Balanced.refl _, [], rfl, fun p => by simp [mallocs]⟩
  | cons n ns ih =>
    obtain ⟨hne, hall⟩ := allSucceed_cons.mp hall
    obtain ⟨b, halloc, hptr⟩ := alloc_malloc hwf hne
    obtain ⟨hwf', hreduced', hbalanced', bs, halloc', hptrs⟩ :=
      ih (h := (Allocator.malloc h n).1) (wf_malloc hwf n) (reduced_malloc hwf hreduced n)
        (halloc ▸ List.cons_ne_nil _ _) hall
    have hbalanced := balanced_malloc (n := n) hwf fun _ b hb => free_size_ne hwf hlive hb
    refine ⟨hwf', hreduced', hbalanced.trans hbalanced', bs ++ [b], ?_, fun p => ?_⟩
    · show (mallocs (Allocator.malloc h n).1 ns).1.1.alloc = _
      rw [halloc', List.append_assoc]
      exact congrArg (bs ++ ·) halloc
    · rw [mallocs, List.mem_cons, hptrs, hptr, List.map_append, List.mem_append, List.map_singleton,
        List.mem_singleton, or_comm]

theorem foldl_free (ps : List ℕ) (h : FirstFitHeap) :
    (ps.foldl Allocator.free h).1 = ps.foldl release h.1 := by
  induction ps generalizing h with
  | nil => rfl
  | cons p ps ih => exact ih _

theorem wsub_wadd {a : ℕ} (ha : a < 2 ^ 64) : wsub (wadd a 16) 16 = a := by
  simp only [wsub, wadd]
  omega

/-- Giving back all of the blocks, in any order, leaves no trace. -/
theorem mallocs_undone {h : FirstFitHeap} (hreduced : Reduced h.1.info)
    (hn : alignSize n ≠ 2 ^ 64 - 24) (hall : AllSucceed h (n :: ns)) {ps : List ℕ}
    (hps : ∀ p, p ∈ ps ↔ p ∈ (mallocs h (n :: ns)).2) :
    ps.foldl Allocator.free (mallocs h (n :: ns)).1 = h := by
  obtain ⟨lo, hi, hwf⟩ := h.2
  obtain ⟨hne, htail⟩ := allSucceed_cons.mp hall
  obtain ⟨b, halloc, hptr⟩ := alloc_malloc hwf hne
  -- the first block makes the others safe from the wrapping test
  obtain ⟨hwf', hreduced', hbalanced', bs, halloc', hptrs⟩ :=
    layout_mallocs (h := (Allocator.malloc h n).1) (wf_malloc hwf n) (reduced_malloc hwf hreduced n)
      (halloc ▸ List.cons_ne_nil _ _) htail
  have hbalanced := (balanced_malloc (n := n) hwf fun heq => absurd heq hn).trans hbalanced'
  obtain ⟨hwf'', hbalanced'', hreduced'', halloc''⟩ := foldl_release hwf' hreduced' ps
  replace halloc' : (mallocs h (n :: ns)).1.1.alloc = (bs ++ [b]) ++ h.1.alloc :=
    halloc'.trans ((congrArg (bs ++ ·) halloc).trans (by simp))
  have hlt : ∀ c ∈ (mallocs h (n :: ns)).1.1.alloc, c.addr < 2 ^ 64 := fun c hc => by
    have hin := hwf'.within (List.mem_append_right _ hc)
    have := c.addr_lt_stop
    have := hwf'.hi_le
    omega
  have hmem : ∀ p, p ∈ ps ↔ ∃ c ∈ bs ++ [b], wadd c.addr 16 = p := fun p => by
    rw [hps, mallocs, List.mem_cons, hptrs, hptr]
    simp [or_and_right, exists_or, or_comm, eq_comm]
  have hnodup : ((bs ++ [b]) ++ h.1.alloc).Nodup := halloc' ▸
    hwf'.alloc_apart.imp fun hapart heq => hapart.addr_ne (congrArg Block.addr heq)
  have hback : (ps.foldl release (mallocs h (n :: ns)).1.1).alloc = h.1.alloc := by
    refine halloc''.trans ?_
    change (mallocs h (n :: ns)).1.1.alloc.filter _ = _
    rw [halloc'] at hlt ⊢
    rw [List.filter_append, List.filter_eq_nil_iff.mpr, List.filter_eq_self.mpr, List.nil_append]
    · intro c hc
      refine decide_eq_true fun p hp heq => ?_
      obtain ⟨d, hd, rfl⟩ := (hmem p).mp hp
      have hdin : d ∈ (bs ++ [b]) ++ h.1.alloc := List.mem_append_left _ hd
      have hcin : c ∈ (bs ++ [b]) ++ h.1.alloc := List.mem_append_right _ hc
      rw [wsub_wadd (hlt d hdin)] at heq
      obtain rfl := hwf'.alloc_addr_inj (halloc' ▸ hcin) (halloc' ▸ hdin) heq
      exact (List.nodup_append.mp hnodup).2.2 c hd c hc rfl
    · intro c hc hout
      refine of_decide_eq_true hout _ ((hmem _).mpr ⟨c, hc, rfl⟩) ?_
      rw [wsub_wadd (hlt c (List.mem_append_left _ hc))]
  have hbalance := hbalanced.trans hbalanced''
  have hsame : ps.foldl release (mallocs h (n :: ns)).1.1 = h.1 := hbalance.unique (Balanced.refl _)
    hreduced'' hreduced (hwf''.free_unique hwf hback) hback
  exact Subtype.ext ((foldl_free ps _).trans hsame)

end FirstFit

/-! ## The blocks of a process -/

variable {s s' : Kernel H} {argv : List (List UInt8)} {name readFd writeFd priority : ℕ}

/-- The arguments that `save_argv` copies in `newProcess`. -/
def copied (argv : List (List UInt8)) : List (List UInt8) :=
  argv.take (toInt (countArgv argv)).toNat

/-- The sizes that `save_argv` asks `malloc` for. -/
def argvRequests (argc : ℤ) (argv : List (List UInt8)) : List ℕ :=
  argvBytes argc :: (argv.take argc.toNat).map fun arg => arg.length + 1

/-- The sizes that `newProcess` asks `malloc` for. -/
def requests (argv : List (List UInt8)) : List ℕ :=
  sizeofProcess :: (argvRequests (toInt (countArgv argv)) argv ++ [STACK_FRAME_SIZE])

/-- The blocks hold copies of the strings, in order. -/
def Copies (s : Kernel H) (copies : List ℕ) (argv : List (List UInt8)) : Prop :=
  List.Forall₂ (fun a arg => s.mem a = some (.text arg)) copies argv

omit [Allocator H] in
theorem Copies.congr {copies : List ℕ} (h : Copies s copies argv)
    (hmem : ∀ a ∈ copies, ∀ arg, s.mem a = some (.text arg) → s'.mem a = some (.text arg)) :
    Copies s' copies argv := by
  unfold Copies at h ⊢
  induction h with
  | nil => exact .nil
  | cons hhead _ ih =>
    refine .cons (hmem _ (by simp) _ hhead) (ih fun a ha => hmem a (by simp [ha]))

omit [Allocator H] in
theorem Copies.text {copies : List ℕ} (h : Copies s copies argv) {a : ℕ} (ha : a ∈ copies) :
    ∃ arg, s.mem a = some (.text arg) := by
  unfold Copies at h
  induction h with
  | nil => exact absurd ha List.not_mem_nil
  | cons hhead _ ih =>
    rcases List.mem_cons.mp ha with rfl | ha
    · exact ⟨_, hhead⟩
    · exact ih ha

/-- The blocks of a process that is to be filled in. -/
structure Blocks (s s' : Kernel H) (argv : List (List UInt8)) (proc saved stack : ℕ)
    (copies : List ℕ) : Prop where
  heap : s'.heap = (mallocs s.heap (requests argv)).1
  blocks : (mallocs s.heap (requests argv)).2 = proc :: saved :: (copies ++ [stack])
  list_at : s'.mem saved = some (.argv copies)
  copies_at : Copies s' copies (copied argv)
  stack_at : s'.mem stack = some .stack
  kept : ∀ a, Allocator.Live s.heap a → s'.mem a = s.mem a

omit [Allocator H] in
/-- The end of `newProcess` changes nothing but states, semaphores and the new process. -/
theorem ends_startProcess (name proc saved stack readFd writeFd priority : ℕ) (s : Kernel H) :
    Ends (fun r s' => r = proc ∧ ∃ t pid ppid, OnlyStates s t ∧ s' = t.put proc
        (.process (newProc name saved pid ppid stack readFd writeFd priority)))
      (fun _ _ => True) 
      (startProcess interrupt name proc saved stack readFd writeFd priority) s := by
  rw [startProcess, ends_bind]
  refine (stable_onlyStates.semWait (keeps_throw _) _ s).mono (fun _ s₁ h₁ => ?_) fun _ _ h => h
  rw [ends_bind, ends_get, ends_bind, ends_modify, ends_bind]
  refine (stable_onlyStates.semPost _ _).mono (fun _ s₂ h₂ => ?_) fun _ _ h => h
  rw [ends_bind]
  refine ends_getRunningPid lenient_true fun ppid _ => ?_
  refine ⟨rfl, s₂, s₁.pidc, ppid, (h₁.trans ?_).trans h₂, rfl⟩
  exact ⟨rfl, fun _ => rfl, rfl, rfl, rfl, rfl, rfl⟩

/-- A new process is at `proc`, and its argument list holds new copies of the strings. -/
structure Made (s s' : Kernel H) (proc : ℕ) (argv : List (List UInt8)) (p : Process)
    (copies : List ℕ) : Prop where
  process_at : s'.process? proc = some p
  argv_at : s'.argv? p.argv = some copies
  copies_at : Copies s' copies argv
  fresh : Fresh s.heap s'.heap (proc :: p.argv :: (copies ++ [p.stack]))

theorem Blocks.made {t : Kernel H} {proc saved stack : ℕ} {copies : List ℕ} {p : Process}
    (h : Blocks s s' argv proc saved stack copies) (hall : AllSucceed s.heap (requests argv))
    (hheap : t.heap = s'.heap)
    (hmem : ∀ a o, s'.mem a = some o → (∀ q, o ≠ .process q) → t.mem a = some o)
    (hsaved : p.argv = saved) (hstack : p.stack = stack) :
    Made s (t.put proc (.process p)) proc (copied argv) p copies := by
  have hf := fresh_mallocs hall
  rw [h.blocks, ← h.heap] at hf
  have hne : ∀ a ∈ saved :: (copies ++ [stack]), a ≠ proc := fun a ha heq =>
    (List.nodup_cons.mp hf.nodup).1 (heq ▸ ha)
  constructor
  · rw [process?_eq_some, put_mem, if_pos rfl]
  · rw [argv?_eq_some, put_mem, hsaved, if_neg (hne saved (by simp))]
    exact hmem _ _ h.list_at fun q => by simp
  · refine h.copies_at.congr fun a ha arg harg => ?_
    rw [put_mem, if_neg (hne a (by simp [ha]))]
    exact hmem _ _ harg fun q => by simp
  · rw [hsaved, hstack, put_heap, hheap]
    exact hf

/-- `free_proc` gives back the stack, the strings, the list and the process. -/
theorem ends_freeProc_heap {proc : ℕ} {p : Process} {copies : List ℕ}
    (hp : s.process? proc = some p) (hargs : s.argv? p.argv = some copies) :
    Ends (fun _ s' =>
        s'.heap = (p.stack :: (copies ++ [p.argv, proc])).foldl Allocator.free s.heap)
      (fun _ _ => True) (freeProc interrupt proc) s := by
  rw [freeProc, ends_bind]
  refine ends_procAt lenient_true fun p₀ hp₀ => ?_
  obtain rfl := Option.some.inj (hp.symm.trans hp₀)
  rw [ends_bind]
  refine (ends_free _ s).mono (fun _ s₁ h₁ => ?_) fun _ _ h => h
  rw [ends_bind]
  refine ends_procAt lenient_true fun p₁ hp₁ => ?_
  obtain rfl := Option.some.inj (hp.symm.trans (h₁.1.process? hp₁))
  rw [ends_bind]
  refine (ends_freeArgv _ s₁).mono (fun _ s₂ h₂ => ?_) fun _ _ h => h
  obtain ⟨hshrinks, args, hargs₁, hheap⟩ := h₂
  obtain rfl : copies = args := by
    have hargs' := argv?_eq_some.mpr (h₁.1.mem _ _ (argv?_eq_some.mp hargs₁))
    exact Option.some.inj (hargs.symm.trans hargs')
  rw [ends_bind, ends_get, ends_bind]
  refine ends_procAt lenient_true fun p₂ _ => ?_
  rw [ends_bind]
  refine (stable_onlyStates.sysWrite (keeps_throw _) _ _ _ s₂).mono (fun _ s₃ h₃ => ?_)
    fun _ _ h => h
  refine (ends_free proc s₃).mono (fun _ s₄ h₄ => ?_) fun _ _ h => h
  rw [h₄.2, h₃.heap, hheap, h₁.2]
  simp only [List.foldl_cons, List.foldl_append, List.foldl_nil]

theorem Made.freeProc_iff {t : Kernel H} {proc : ℕ} {p cur : Process} {copies : List ℕ}
    (h : Made s t proc argv p copies) (hstack : t.mem p.stack = some .stack) (ht : Orderly t cur) :
    Returns (freeProc interrupt proc) t ↔ Unawaited t p.writeFd cur := by
  have hnodup := h.fresh.nodup
  have hne : p.argv ≠ p.stack := fun heq => by simp [heq] at hnodup
  refine Sched.freeProc_iff ht h.process_at h.argv_at hne fun a ha => ?_
  rcases List.mem_cons.mp ha with rfl | ha
  · simp [Kernel.node?, Kernel.process?, hstack]
  rcases List.mem_cons.mp ha with rfl | ha
  · simp [Kernel.node?, Kernel.process?, argv?_eq_some.mp h.argv_at]
  · obtain ⟨arg, harg⟩ := h.copies_at.text ha
    simp [Kernel.node?, Kernel.process?, harg]

/-! ## No trace -/

/-- The heap is one that calls of `malloc` and `free` lead to. -/
def Reached (h : FirstFitHeap) : Prop :=
  ∃ (m : Mem) (address size : UInt64) (calls : List FirstFit.Call) (raw : FirstFit.Heap)
    (ptrs : List ℕ), address.toNat + size.toNat ≤ 2 ^ 64 ∧
      Runs.run FirstFit.stepCall
        ((FirstFit.initMemoryManager (FirstFit.boot m) address.toNat size.toNat).1, []) calls =
          some (raw, ptrs) ∧
      FirstFit.Represents raw h.1

theorem Reached.malloc {h : FirstFitHeap} (hreached : Reached h) (n : UInt64) :
    Reached (Allocator.malloc h n.toNat).1 := by
  obtain ⟨m, address, size, calls, raw, ptrs, hend, hrun, hr⟩ := hreached
  obtain ⟨lo, hi, hwf⟩ := h.2
  obtain ⟨raw', hval, hr', -⟩ := FirstFit.exec_refines hr hwf (.malloc n)
  refine ⟨m, address, size, calls ++ [.malloc n], raw', ptrs ++ [(h.1.malloc n.toNat).2], hend, ?_,
    hr'⟩
  rw [Runs.run_append, hrun, Option.bind_some, Runs.run_cons, FirstFit.stepCall, hval]
  rfl

theorem Reached.reduced {h : FirstFitHeap} (hreached : Reached h) :
    FirstFit.Layout.Reduced h.1.info := by
  obtain ⟨m, address, size, calls, raw, ptrs, hend, hrun, hr⟩ := hreached
  obtain ⟨lo, hi, L₀, hr₀, hwf₀, -⟩ := FirstFit.init_represents m hend
  have hreduced₀ : FirstFit.Layout.Reduced L₀.info := hr₀.info ▸ FirstFit.init_reduced m
  obtain ⟨s, hval, L, hrL, -, hreduced⟩ := Runs.run_total (P := fun _ _ => True)
    (show FirstFit.Counted lo hi (_, []) from ⟨L₀, hr₀, hwf₀, hreduced₀⟩)
    (Runs.throughout_of_forall fun _ _ => trivial) fun s c hs _ => hs.step c
  obtain rfl := Option.some.inj (hrun.symm.trans hval)
  exact hr.unique hrL ▸ hreduced

section FreeProc

variable {p p' cur : Process} {proc saved stack : ℕ} {copies args : List ℕ}
  {t : Kernel FirstFitHeap} {s s' : Kernel FirstFitHeap}

/-- The list that has been made holds as many strings as were copied. -/
theorem Made.length_eq (h : Made s t proc argv p copies) (hp : t.process? proc = some p')
    (hargs : t.argv? p'.argv = some args) : args.length = argv.length := by
  obtain rfl := Option.some.inj (h.process_at.symm.trans hp)
  obtain rfl := Option.some.inj (h.argv_at.symm.trans hargs)
  exact h.copies_at.length_eq

/-- `free_proc` gives back the blocks that `newProcess` took. -/
theorem Blocks.freed (h : Blocks s s' argv proc saved stack copies) (hreached : Reached s.heap)
    (hall : AllSucceed s.heap (requests argv)) (hmade : Made s t proc (copied argv) p copies)
    (hheap : t.heap = s'.heap) (hsaved : p.argv = saved) (hstack : p.stack = stack)
    {u : Kernel FirstFitHeap} (hfree : freeProc interrupt proc t = .ok () u) : u.heap = s.heap := by
  rw [(ends_freeProc_heap hmade.process_at hmade.argv_at).of_ok hfree, hheap, h.heap]
  refine mallocs_undone hreached.reduced (by decide) hall fun a => ?_
  rw [← requests, h.blocks, hsaved, hstack]
  simp only [List.mem_cons, List.mem_append, List.not_mem_nil, or_false]
  tauto

/-- `cur` is on the processor of an orderly kernel, whose semaphores have 64-bit values. -/
structure Settled (s : Kernel H) (cur : Process) : Prop where
  within : Within s
  orderly : Orderly s cur
  values : ∀ i, (s.semaphores i).value < 2 ^ 64

/-- The new blocks are next to the nodes and processes. -/
theorem Blocks.extends (h : Blocks s s' argv proc saved stack copies) (hs : Within s)
    (hglob : s'.toGlobals = s.toGlobals) : Extends s s' where
  first := congrArg Globals.first hglob
  node? a n hn := by
    rw [node?_eq_some, h.kept a (hs.node_live hn)]
    exact node?_eq_some.mp hn
  process? a q hq := by
    rw [process?_eq_some, h.kept a (hs.process_live hq)]
    exact process?_eq_some.mp hq

/-- With the new process the kernel is orderly, whatever states have changed. -/
theorem Blocks.orderly {cur : Process} (h : Blocks s s' argv proc saved stack copies)
    (hs : Settled s cur) (hall : AllSucceed s.heap (requests argv))
    (hglob : s'.toGlobals = s.toGlobals) (hstates : OnlyStates s' t)
    (hd : t.disableCount = s.disableCount) (p : Process) :
    SamePids s (t.put proc (.process p)) ∧
      ∃ state, Orderly (t.put proc (.process p)) { cur with state := state } := by
  have hfresh := fresh_mallocs hall
  have hext := h.extends hs.within hglob
  have hother : ∀ a, Allocator.Live s.heap a → (t.put proc (.process p)).mem a = t.mem a := by
    intro a ha
    have hne : a ≠ proc := fun heq => hfresh.not_live proc (by simp [h.blocks]) (heq ▸ ha)
    rw [put_mem, if_neg hne]
  have hnode : ∀ a n, s.node? a = some n → (t.put proc (.process p)).node? a = some n := by
    intro a n hn
    rw [node?_eq_some, hother a (hs.within.node_live hn)]
    exact node?_eq_some.mp (hstates.samePids.node? a n (hext.node? a n hn))
  have hprocess : ∀ a q, s.process? a = some q →
      ∃ state, (t.put proc (.process p)).process? a = some { q with state := state } := by
    intro a q hq
    obtain ⟨state, hstate⟩ := hstates.process (hext.process? a q hq)
    refine ⟨state, ?_⟩
    rw [process?_eq_some, hother a (hs.within.process_live hq)]
    exact process?_eq_some.mp hstate
  have hpids : SamePids s (t.put proc (.process p)) := by
    refine ⟨hstates.first.trans hext.first, hnode, fun a q hq => ?_⟩
    obtain ⟨state, hstate⟩ := hprocess a q hq
    exact ⟨_, hstate, rfl⟩
  have hcurrent : (t.put proc (.process p)).currentNode = s.currentNode :=
    hstates.currentNode.trans (congrArg Globals.currentNode hglob)
  obtain ⟨n, hn, hcur⟩ := hs.orderly.current_at
  obtain ⟨state, hstate⟩ := hprocess _ _ hcur
  exact ⟨hpids, state, hcurrent.symm ▸ hs.orderly.running,
    ⟨n, hcurrent.symm ▸ hnode _ _ hn, hstate⟩, hs.orderly.searches.keep hpids,
    hd.symm ▸ hs.orderly.enabled⟩

end FreeProc

end TronKernel.Sched
