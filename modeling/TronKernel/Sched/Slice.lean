import TronKernel.Sched.Outcomes

/-!
# How long a process runs before it is replaced

`scheduler` starts the quantums of the process that it switches to at the process's priority, adds
one at every tick, and replaces the process when they are above `MAX_QUANTUM`. So on a ring with
another process to run, one of priority `p` has a slice of `max 1 (MAX_QUANTUM + 1 - p)` ticks. The
addition is one on 64 bits: for the greatest priority of all, `2 ^ 64 - 1`, which `add_process`
clamps and `change_priority` does not, it starts again at 0, and the slice has seven ticks instead
of one (`time_slice`).
-/

namespace TronKernel.Sched.Lives

open CircularList LinkedList Programs Runs

variable {H : Type} [Allocator H] {s s' : Kernel H} {l : List Entry} {e x : Entry} {sp : ℕ}

/-- The process on `e` runs, and `l` are the nodes behind it. The scheduler is enabled and there is
more than one process. -/
structure Ticking (s : Kernel H) (e : Entry) (l : List Entry) : Prop where
  shows : Shows s (e :: l)
  current : e.node = s.currentNode
  state : e.proc.state = .running
  enabled : s.disableCount = 0
  several : s.counter ≠ 1
  noYield : s.forceYield = 0

/-- `scheduler` has just switched to the process on `e`. -/
structure Dispatched (s : Kernel H) (e : Entry) (l : List Entry) : Prop extends Ticking s e l where
  quantums : e.quantums = e.proc.priority

/-! ## Assignments to the process that runs -/

theorem map_edit_head (h : Shows s (e :: l)) (f : Process → Process) :
    (e :: l).map (Entry.edit e.procAddr f) = { e with proc := f e.proc } :: l := by
  rw [List.map_cons, edit_self]
  congr 1
  refine (List.map_congr_left fun x hx => edit_of_ne f fun heq => ?_).trans (List.map_id l)
  obtain rfl := h.procAddr_inj (List.mem_cons_of_mem _ hx) List.mem_cons_self heq
  have hnodup := h.nodes_nodup
  rw [List.map_cons, List.nodup_cons] at hnodup
  exact hnodup.1 (List.mem_map_of_mem hx)

theorem map_charge_head (h : Shows s (e :: l)) (q : ℕ) :
    (e :: l).map (Entry.charge e.node q) = { e with quantums := q } :: l := by
  have hself : e.charge e.node q = { e with quantums := q } := if_pos rfl
  rw [List.map_cons, hself]
  congr 1
  refine (List.map_congr_left fun x hx => ?_).trans (List.map_id l)
  refine if_neg fun heq => ?_
  have hnodup := h.nodes_nodup
  rw [List.map_cons, List.nodup_cons, ← heq] at hnodup
  exact hnodup.1 (List.mem_map_of_mem hx)

/-- `currentNode->proc->… = …`. -/
theorem Ticking.editProc (h : Ticking s e l) {f : Process → Process} (hf : KeepsBlocks f)
    (hstate : (f e.proc).state = .running) :
    ∃ s', Sched.editProc e.procAddr f s = .ok () s' ∧ Ticking s' { e with proc := f e.proc } l ∧
      s'.toGlobals = s.toGlobals := by
  obtain ⟨s', hval, hshows, hglob, -⟩ := h.shows.editProc List.mem_cons_self hf
  rw [map_edit_head h.shows] at hshows
  refine ⟨s', hval, ⟨hshows, ?_, hstate, ?_, ?_, ?_⟩, hglob⟩ <;> rw [hglob]
  · exact h.current
  · exact h.enabled
  · exact h.several
  · exact h.noYield

/-- `currentNode->quantums = …`. -/
theorem Ticking.editQuantums (h : Ticking s e l) (f : ℕ → ℕ) :
    ∃ s', editNode e.node (fun n => { n with quantums := f n.quantums }) s = .ok () s' ∧
      Ticking s' { e with quantums := f e.quantums } l ∧ s'.toGlobals = s.toGlobals := by
  obtain ⟨s', hval, hshows, hglob, -⟩ := h.shows.editQuantums List.mem_cons_self f
  rw [map_charge_head h.shows] at hshows
  refine ⟨s', hval, ⟨hshows, ?_, h.state, ?_, ?_, ?_⟩, hglob⟩ <;> rw [hglob]
  · exact h.current
  · exact h.enabled
  · exact h.several
  · exact h.noYield

theorem Ticking.currentProc (h : Ticking s e l) : Sched.currentProc s = .ok e.procAddr s :=
  h.shows.currentProc List.mem_cons_self h.current

theorem Ticking.procAt (h : Ticking s e l) : Sched.procAt e.procAddr s = .ok e.proc s :=
  h.shows.procAt List.mem_cons_self

/-- A tick of a running process adds to its quantums. -/
theorem Ticking.schedulerRun (h : Ticking s e l) :
    ∃ s', Sched.schedulerRun interrupt s = schedulerSwitch s' ∧
      Ticking s' { e with quantums := incr64 e.quantums } l ∧ s'.toGlobals = s.toGlobals := by
  obtain ⟨s', hcharge, h', hglob⟩ := h.editQuantums incr64
  refine ⟨s', ?_, h', hglob⟩
  rw [Sched.schedulerRun, bind_of_ok h.currentProc, bind_of_ok h.procAt, h.state]
  show (get >>= fun t => editNode t.currentNode _ >>= fun _ => schedulerSwitch) s = _
  rw [get_bind, ← h.current, bind_of_ok hcharge]

/-- One tick up to the test for the end of the slice. -/
theorem Ticking.scheduler (h : Ticking s e l) (sp : ℕ) :
    ∃ s', Sched.scheduler interrupt sp s =
        (do schedulerSwitch; return (← Sched.procAt (← Sched.currentProc)).sp : Op H ℕ) s' ∧
      Ticking s' { e with proc := { e.proc with sp := sp }, quantums := incr64 e.quantums } l ∧
      s'.toGlobals = s.toGlobals := by
  obtain ⟨s₁, hsave, h₁, hglob₁⟩ :=
    h.editProc (f := fun p => { p with sp := sp }) (fun _ => ⟨rfl, rfl⟩) h.state
  obtain ⟨s₂, hrun, h₂, hglob₂⟩ := h₁.schedulerRun
  refine ⟨s₂, ?_, h₂, hglob₂.trans hglob₁⟩
  rw [Sched.scheduler, get_bind, if_neg (not_not.mpr h.enabled), get_bind, if_neg h.several,
    bind_of_ok h.currentProc, bind_of_ok hsave]
  exact bind_congr_at hrun

/-- What `schedulerSwitch` reads of the process that runs. -/
theorem Ticking.nodeAt (h : Ticking s e l) :
    Sched.nodeAt s.currentNode s = .ok ⟨e.quantums, e.procAddr, s.next e.node⟩ s := by
  rw [← h.current]
  exact h.shows.nodeAt List.mem_cons_self

theorem step_schedule {v : ℕ} (h : Sched.scheduler interrupt sp s = .ok v s') :
    step s (.schedule sp) = some s' := by
  have hrun : Call.run (.schedule sp) s = .ok () s' := by
    rw [Call.run, bind_of_ok h]
    rfl
  rw [step, outcome, hrun]

/-- The slice has not ended. -/
theorem Ticking.stays (h : Ticking s e l) (sp : ℕ) (hslice : incr64 e.quantums ≤ MAX_QUANTUM) :
    ∃ s', step s (.schedule sp) = some s' ∧
      Ticking s' { e with proc := { e.proc with sp := sp }, quantums := incr64 e.quantums } l := by
  obtain ⟨s', hval, h', -⟩ := h.scheduler sp
  have hswitch : schedulerSwitch s' = .ok () s' := by
    rw [schedulerSwitch, get_bind, bind_of_ok h'.nodeAt, bind_of_ok h'.procAt,
      if_neg (by rw [h'.state]; decide), get_bind, if_neg]
    · rfl
    · rintro (hlt | hyield)
      · exact absurd hlt (Nat.not_lt.mpr hslice)
      · exact hyield h'.noYield
  have hok : Sched.scheduler interrupt sp s = .ok sp s' := by
    rw [hval, bind_of_ok hswitch, bind_of_ok h'.currentProc, bind_of_ok h'.procAt]
    rfl
  exact ⟨s', step_schedule hok, h'⟩

/-- `dispatch` goes to the first entry from its argument on that is READY or NEW. -/
theorem dispatch_picks (h : Shows s (e :: l)) (hfind : (e :: l).find? Entry.isReady = some x) :
    ∃ s', dispatch e.node s = .ok () s' ∧ Picks s s' (e :: l) x := by
  have hx : x ∈ e :: l := List.mem_of_find?_eq_some hfind
  have hnext : findNextReady e.node s = .ok x.node s :=
    findNextReadyLoop_found h (fun y hy => hy) ⟨rfl, h.isRing⟩ hfind (Nat.le_of_lt h.length_lt)
  have h₁ : Shows { s with currentNode := x.node } (e :: l) := h.congr rfl rfl
  obtain ⟨s₂, hrun, h₂, hglob₂, hheap₂⟩ :=
    h₁.editProc hx (f := Process.enter) fun _ => ⟨rfl, rfl⟩
  have hx₂ := List.mem_map_of_mem (f := Entry.edit x.procAddr Process.enter) hx
  obtain ⟨s₃, hcharge, h₃, hglob₃, hheap₃⟩ := h₂.editQuantums hx₂ fun _ => x.proc.priority
  rw [edit_node] at hcharge h₃
  rw [List.map_map] at h₃
  have hcur₂ : s₂.currentNode = x.node := by rw [hglob₂]
  have hproc₂ := h₂.procAt hx₂
  rw [edit_procAddr, edit_self] at hproc₂
  refine ⟨s₃, ?_, hx, List.find?_some hfind, h₃, hglob₃.trans hglob₂, hheap₃.trans hheap₂⟩
  rw [dispatch, bind_of_ok hnext, modify_bind, bind_of_ok (h₁.currentProc hx rfl)]
  refine (bind_of_ok hrun).trans ?_
  rw [bind_of_ok hproc₂, get_bind, hcur₂]
  exact hcharge

/-- What has been picked has just been dispatched. -/
theorem Picks.dispatched {ring : List Entry} (h : Picks s s' ring x) (henabled : s.disableCount = 0)
    (hseveral : s.counter ≠ 1) (hyield : s.forceYield = 0) :
    ∃ l', Dispatched s' (picked x x) l' := by
  have hself : picked x x = { x with proc := x.proc.enter, quantums := x.proc.priority } := by
    rw [picked, edit_self]
    exact if_pos rfl
  obtain ⟨l', hr⟩ := exists_isRotated_cons (List.mem_map_of_mem (f := picked x) h.mem)
  refine ⟨l', ⟨⟨h.shows.rotated hr, ?_, ?_, ?_, ?_, ?_⟩, ?_⟩⟩
  · rw [hself, h.globals]
  · rw [hself]
    rfl
  · rw [h.globals]
    exact henabled
  · rw [h.globals]
    exact hseveral
  · rw [h.globals]
    exact hyield
  · rw [hself]
    rfl

/-- The process that runs becomes READY, and the search begins behind it. -/
theorem Ticking.yields (h : Ticking s e l) (hfind : l.find? Entry.isReady = some x) :
    ∃ u s' ring, (do
        Sched.editProc e.procAddr fun p => { p with state := .ready }
        dispatch (s.next e.node) : Op H Unit) s = .ok () s' ∧
      Picks u s' ring x ∧ u.toGlobals = s.toGlobals := by
  obtain ⟨u, hready, hu, hglob, -⟩ := h.shows.editProc (f := fun p => { p with state := .ready })
    List.mem_cons_self fun _ => ⟨rfl, rfl⟩
  rw [map_edit_head h.shows] at hu
  generalize ({ e with proc := { e.proc with state := .ready } } : Entry) = e' at hu
  obtain ⟨y, l, rfl⟩ : ∃ y l', l = y :: l' := by
    cases l with
    | nil => cases hfind
    | cons y l => exact ⟨y, l, rfl⟩
  have hrot : Shows u (y :: (l ++ [e'])) := hu.rotated ⟨1, rfl⟩
  have hfind' : (y :: (l ++ [e'])).find? Entry.isReady = some x := by
    rw [← List.cons_append, List.find?_append, hfind]
    rfl
  obtain ⟨s', hdispatch, hpicks⟩ := dispatch_picks hrot hfind'
  have hnext : s.next e.node = y.node := h.shows.isRing.1
  refine ⟨u, s', _, ?_, hpicks, hglob⟩
  rw [hnext]
  exact (bind_of_ok hready).trans hdispatch

/-- The slice has ended: the next process that is READY or NEW has been dispatched. -/
theorem Ticking.ends (h : Ticking s e l) (sp : ℕ) (hslice : MAX_QUANTUM < incr64 e.quantums)
    (hfind : l.find? Entry.isReady = some x) :
    ∃ s', step s (.schedule sp) = some s' ∧ s'.currentNode = x.node ∧
      ∃ l', Dispatched s' (picked x x) l' := by
  obtain ⟨t, hval, ht, -⟩ := h.scheduler sp
  generalize he' : ({ e with proc := { e.proc with sp := sp }, quantums := incr64 e.quantums } :
    Entry) = e' at ht
  have hquantums : e'.quantums = incr64 e.quantums := he' ▸ rfl
  have ht₁ : Ticking { t with forceYield := 0 } e' l :=
    ⟨ht.shows.congr rfl rfl, ht.current, ht.state, ht.enabled, ht.several, rfl⟩
  obtain ⟨u, s', ring, hyields, hpicks, hglob⟩ := ht₁.yields hfind
  have hswitch : schedulerSwitch t = .ok () s' := by
    rw [schedulerSwitch, get_bind, bind_of_ok ht.nodeAt, bind_of_ok ht.procAt,
      if_neg (by rw [ht.state]; decide), get_bind, if_pos (Or.inl (hquantums ▸ hslice)),
      modify_bind]
    exact hyields
  have hx := List.mem_map_of_mem (f := picked x) hpicks.mem
  have hcur : (picked x x).node = s'.currentNode := by
    rw [hpicks.globals]
    simp [picked]
  have hend : Sched.scheduler interrupt sp s = .ok (picked x x).proc.sp s' := by
    rw [hval, bind_of_ok hswitch, bind_of_ok (hpicks.shows.currentProc hx hcur),
      bind_of_ok (hpicks.shows.procAt hx)]
    rfl
  refine ⟨s', step_schedule hend, by rw [hpicks.globals], hpicks.dispatched ?_ ?_ ?_⟩ <;> rw [hglob]
  · exact ht.enabled
  · exact ht.several

/-! ## The slice -/

/-- The number of ticks that the priority stands for, `max 1 (MAX_QUANTUM + 1 - p)`. -/
def slice (p : ℕ) : ℕ := (max 1 ((MAX_QUANTUM : ℤ) + 1 - p)).toNat

/-- If only ticks follow, the process on the current node runs for `slice p` of them, and the one on
`x` replaces it at the last of them. -/
def GivesSlice (s : Kernel H) (p : ℕ) (x : Entry) : Prop :=
  ∀ sps : List ℕ,
    (sps.length < slice p →
      ∃ s', run step s (sps.map .schedule) = some s' ∧ s'.currentNode = s.currentNode) ∧
    (sps.length = slice p →
      ∃ s', run step s (sps.map .schedule) = some s' ∧ s'.currentNode = x.node)

/-- Ticks of a process whose quantums do not reach the bound. -/
theorem Ticking.run_stays (h : Ticking s e l) (sps : List ℕ)
    (hslice : e.quantums + sps.length ≤ MAX_QUANTUM) :
    ∃ s' e', run step s (sps.map .schedule) = some s' ∧ Ticking s' e' l ∧ e'.node = e.node ∧
      e'.quantums = e.quantums + sps.length := by
  induction sps generalizing s e with
  | nil => exact ⟨s, e, rfl, h, rfl, rfl⟩
  | cons sp sps ih =>
    rw [List.length_cons] at hslice
    have hincr : incr64 e.quantums = e.quantums + 1 :=
      incr64_of_lt (by simp only [MAX_QUANTUM] at hslice; omega)
    obtain ⟨s₁, hstep, h₁⟩ := h.stays sp (by rw [hincr]; omega)
    obtain ⟨s', e', hrun, h', hnode, hquantums⟩ := ih h₁ (by simp only [hincr]; omega)
    change e'.quantums = incr64 e.quantums + sps.length at hquantums
    refine ⟨s', e', ?_, h', hnode, ?_⟩
    · rw [List.map_cons, run_cons, hstep, Option.bind_some, hrun]
    · rw [hquantums, List.length_cons, hincr]
      omega

/-- The quantums of the greatest priority start again at 0 with the first tick. -/
theorem Dispatched.not_givesSlice (h : Dispatched s e l) (heq : e.proc.priority = 2 ^ 64 - 1)
    (hfind : l.find? Entry.isReady = some x) : ¬ GivesSlice s e.proc.priority x := by
  intro hgives
  have hwraps : incr64 e.quantums = 0 := by
    rw [h.quantums, heq]
    unfold incr64
    rfl
  obtain ⟨s₁, hstep, h₁⟩ := h.stays 0 (hwraps ▸ Nat.zero_le _)
  obtain ⟨s', hrun, hcur⟩ := (hgives [0]).2 (by rw [heq]; decide)
  rw [List.map_singleton, run_cons, hstep, Option.bind_some, run_nil] at hrun
  obtain rfl := Option.some.inj hrun
  have hnodup := h.shows.nodes_nodup
  rw [List.map_cons, List.nodup_cons] at hnodup
  apply hnodup.1
  rw [show e.node = x.node from h₁.current.trans hcur]
  exact List.mem_map_of_mem (List.mem_of_find?_eq_some hfind)

/-- A process that has just been dispatched on a ring with another one to run has the slice that its
priority stands for if and only if the priority is not the greatest number of 64 bits. A larger
priority never stands for a longer slice. -/
theorem time_slice (s : Kernel H) (e : Entry) (l : List Entry) (x : Entry) (h : Dispatched s e l)
    (hpriority : e.proc.priority < 2 ^ 64) (hfind : l.find? Entry.isReady = some x) :
    (GivesSlice s e.proc.priority x ↔ e.proc.priority ≠ 2 ^ 64 - 1) ∧
      ∀ p p', p ≤ p' → slice p' ≤ slice p := by
  have hslice : slice e.proc.priority = if e.proc.priority ≤ MAX_QUANTUM then
      MAX_QUANTUM + 1 - e.proc.priority else 1 := by
    simp only [slice, MAX_QUANTUM]
    split_ifs <;> omega
  refine ⟨⟨fun hgives heq => ?_, fun hne sps => ⟨fun hlt => ?_, fun hlen => ?_⟩⟩,
    fun p p' hle => ?_⟩
  · exact h.not_givesSlice heq hfind hgives
  · rcases List.eq_nil_or_concat sps with rfl | ⟨sps, sp, rfl⟩
    · exact ⟨s, rfl, rfl⟩
    obtain ⟨s', e', hrun, h', hnode, -⟩ := h.run_stays (sps.concat sp) (by
      rw [hslice] at hlt
      rw [h.quantums]
      split_ifs at hlt <;> simp only [List.length_concat] at hlt ⊢ <;> omega)
    exact ⟨s', hrun, by rw [← h'.current, hnode, h.current]⟩
  · rcases List.eq_nil_or_concat sps with rfl | ⟨sps, sp, rfl⟩
    · rw [hslice] at hlen
      simp only [List.length_nil] at hlen
      split_ifs at hlen
      omega
    rw [List.length_concat, hslice] at hlen
    obtain ⟨t, e', hrun, ht, hquantums⟩ : ∃ t e', run step s (sps.map .schedule) = some t ∧
        Ticking t e' l ∧ e'.quantums = e.proc.priority + sps.length := by
      by_cases hle : e.proc.priority ≤ MAX_QUANTUM
      · rw [if_pos hle] at hlen
        obtain ⟨t, e', hrun, ht, -, hq⟩ := h.run_stays sps (by rw [h.quantums]; omega)
        exact ⟨t, e', hrun, ht, hq.trans (by rw [h.quantums])⟩
      · rw [if_neg hle] at hlen
        obtain rfl := List.length_eq_zero_iff.mp (Nat.succ.inj hlen)
        exact ⟨s, e, rfl, h.toTicking, h.quantums⟩
    have hlast : MAX_QUANTUM < incr64 e'.quantums := by
      have hmax : MAX_QUANTUM = 5 := rfl
      rw [hquantums, incr64_of_lt] <;> split_ifs at hlen <;> omega
    obtain ⟨s', hstep, hcur, -⟩ := ht.ends sp hlast hfind
    refine ⟨s', ?_, hcur⟩
    rw [List.concat_eq_append, List.map_append, run_append, hrun, Option.bind_some,
      List.map_singleton, run_cons, hstep]
    rfl
  · simp only [slice]
    omega

/-! ## Two processes -/

/-- A process that has just been dispatched. -/
def dispatched (priority : ℕ) : Entry :=
  ⟨12424, priority, 8288, ⟨0, 0, 1, 0, 0, 0, .running, 8408, 0, 1, priority, 0, 0⟩, []⟩

/-- The idle process, which is ready. -/
def idle : Entry := ⟨8248, 5, 4112, ⟨0, 0, 0, 0, 0, 0, .ready, 4232, 0, 1, 5, 1, 0⟩, []⟩

def pair (priority : ℕ) : List Entry := [dispatched priority, idle]

/-- The blocks of the two processes. -/
def pairHeap : FirstFitHeap :=
  [104, 4000, 24, 104, 4000, 24].foldl (fun h n => (Allocator.malloc h n).1) loaded.heap

/-- The kernel with the two processes. -/
def pairKernel (priority : ℕ) : Kernel FirstFitHeap :=
  { loaded with
    first := 8248
    currentNode := 12424
    counter := 2
    pidc := 2
    semaphores := bootTable
    heap := pairHeap
    mem := fun a =>
      if a = 12424 then some (.node ⟨priority, 8288, 8248⟩)
      else if a = 8288 then
        some (.process ⟨0, 0, 1, 0, 0, 0, .running, 8408, 0, 1, priority, 0, 0⟩)
      else if a = 8408 then some .stack
      else if a = 8248 then some (.node ⟨5, 4112, 12424⟩)
      else if a = 4112 then some (.process ⟨0, 0, 0, 0, 0, 0, .ready, 4232, 0, 1, 5, 1, 0⟩)
      else if a = 4232 then some .stack
      else none }

theorem pairHeap_live : ∀ a ∈ [12424, 8288, 8408, 8248, 4112, 4232],
    a ≠ 0 ∧ ∃ b ∈ pairHeap.1.alloc, FirstFit.wadd b.addr 16 = a := by
  decide +kernel

theorem pairKernel_shows (priority : ℕ) : Shows (pairKernel priority) (pair priority) where
  isRing := ⟨rfl, rfl⟩
  nodes_nodup := by
    show [12424, 8248].Nodup
    decide
  blocks_nodup := by
    show [8288, 8408, 4112, 4232].Nodup
    decide
  node_at e he := by
    simp only [pair, List.mem_cons, List.not_mem_nil, or_false] at he
    rcases he with rfl | rfl <;> rfl
  node_mem a n hn := by
    refine List.mem_map.mp ?_
    show a ∈ [12424, 8248]
    unfold Kernel.node? pairKernel at hn
    dsimp only at hn
    split_ifs at hn <;> simp_all
  process_at e he := by
    simp only [pair, List.mem_cons, List.not_mem_nil, or_false] at he
    rcases he with rfl | rfl <;> rfl
  argv_at e he h := by
    simp only [pair, List.mem_cons, List.not_mem_nil, or_false] at he
    rcases he with rfl | rfl <;> exact absurd rfl h
  text_at e he h := by
    simp only [pair, List.mem_cons, List.not_mem_nil, or_false] at he
    rcases he with rfl | rfl <;> exact absurd rfl h
  stack_at e he := by
    simp only [pair, List.mem_cons, List.not_mem_nil, or_false] at he
    rcases he with rfl | rfl <;> rfl
  live a o ho := by
    refine pairHeap_live a ?_
    unfold pairKernel at ho
    dsimp only at ho
    split_ifs at ho <;> simp_all

theorem pairKernel_dispatched (priority : ℕ) :
    Dispatched (pairKernel priority) (dispatched priority) [idle] where
  shows := pairKernel_shows priority
  current := rfl
  state := rfl
  enabled := rfl
  several := by
    show 2 ≠ 1
    decide
  noYield := rfl
  quantums := rfl

/-- A process of priority 2 has four ticks. -/
theorem time_slice_two : slice 2 = 4 ∧ GivesSlice (pairKernel 2) 2 idle :=
  ⟨by decide, (time_slice (pairKernel 2) (dispatched 2) [idle] idle (pairKernel_dispatched 2)
    (by decide) rfl).1.mpr (by decide)⟩

/-- The process that `change_priority` gives the priority -1 keeps the processor at the tick that
should have been its last. -/
theorem time_slice_wraps :
    ¬ ∀ (s : Kernel FirstFitHeap) (e : Entry) (l : List Entry) (x : Entry), Dispatched s e l →
      e.proc.priority < 2 ^ 64 → l.find? Entry.isReady = some x →
      GivesSlice s e.proc.priority x := by
  intro h
  have hdisp := pairKernel_dispatched (2 ^ 64 - 1)
  exact hdisp.not_givesSlice rfl rfl (h _ _ _ idle hdisp (by decide) rfl)

end TronKernel.Sched.Lives
