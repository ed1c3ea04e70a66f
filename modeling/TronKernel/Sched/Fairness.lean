import TronKernel.Lib.RoundRobin
import TronKernel.Sched.Slice

/-!
# Who waits, and for how long

`scheduler` shares the processor among the processes that can run by weighted round robin, in the
order of the ring and with the slice of its priority as the weight of each (`round_robin`). With
yields, wake-ups and blocked processes in between nobody waits longer than the slices of those in
front of it (`bounded_waiting`). Both need that the current process is marked RUNNING: one that
`ready_process` has marked READY is not charged for its ticks and keeps the processor
(`ready_current_stays`).
-/

namespace TronKernel.Sched

open CircularList Programs

variable {H : Type} {s s' : Kernel H} {ring l pre post : List Entry} {e x y : Entry} {sp : ℕ}

/-! ## One tick -/

/-- The entry of the current process after a tick. -/
def Entry.ticked (sp : ℕ) (e : Entry) : Entry :=
  { e with
    proc := { e.proc with sp := sp }
    quantums := if e.proc.state = .running then incr64 e.quantums else e.quantums }

/-- `scheduler` takes the processor away. -/
def Entry.GivesUp (e : Entry) (forceYield : ℕ) : Prop :=
  e.proc.state = .blocked ∨ MAX_QUANTUM < e.quantums ∨ forceYield ≠ 0

/-- The entry of the process that has given up the processor. -/
def Entry.back (e : Entry) : Entry :=
  { e with proc := { e.proc with state := if e.proc.state = .blocked then .blocked else .ready } }

/-- The entry of the process that has been given the processor. -/
def Entry.start (x : Entry) : Entry :=
  { x with proc := x.proc.enter, quantums := x.proc.priority }

variable [Allocator H]

namespace Lives

open Runs RoundRobin

/-- The process on `e` has the processor, and `l` are the nodes behind it. -/
structure OnCpu (s : Kernel H) (e : Entry) (l : List Entry) : Prop where
  shows : Shows s (e :: l)
  current : e.node = s.currentNode
  alive : e.proc.state ≠ .killed
  enabled : s.disableCount = 0
  several : s.counter ≠ 1

theorem OnCpu.editProc (h : OnCpu s e l) {f : Process → Process} (hf : KeepsBlocks f)
    (hstate : (f e.proc).state = e.proc.state) :
    ∃ s', Sched.editProc e.procAddr f s = .ok () s' ∧ OnCpu s' { e with proc := f e.proc } l ∧
      s'.toGlobals = s.toGlobals := by
  obtain ⟨s', hval, hshows, hglob, -⟩ := h.shows.editProc List.mem_cons_self hf
  rw [map_edit_head h.shows] at hshows
  refine ⟨s', hval, ⟨hshows, ?_, hstate ▸ h.alive, ?_, ?_⟩, hglob⟩ <;> rw [hglob]
  · exact h.current
  · exact h.enabled
  · exact h.several

theorem OnCpu.editQuantums (h : OnCpu s e l) (f : ℕ → ℕ) :
    ∃ s', editNode e.node (fun n => { n with quantums := f n.quantums }) s = .ok () s' ∧
      OnCpu s' { e with quantums := f e.quantums } l ∧ s'.toGlobals = s.toGlobals := by
  obtain ⟨s', hval, hshows, hglob, -⟩ := h.shows.editQuantums List.mem_cons_self f
  rw [map_charge_head h.shows] at hshows
  refine ⟨s', hval, ⟨hshows, ?_, h.alive, ?_, ?_⟩, hglob⟩ <;> rw [hglob]
  · exact h.current
  · exact h.enabled
  · exact h.several

theorem OnCpu.currentProc (h : OnCpu s e l) : Sched.currentProc s = .ok e.procAddr s :=
  h.shows.currentProc List.mem_cons_self h.current

theorem OnCpu.procAt (h : OnCpu s e l) : Sched.procAt e.procAddr s = .ok e.proc s :=
  h.shows.procAt List.mem_cons_self

theorem OnCpu.nodeAt (h : OnCpu s e l) :
    Sched.nodeAt s.currentNode s = .ok ⟨e.quantums, e.procAddr, s.next e.node⟩ s := by
  rw [← h.current]
  exact h.shows.nodeAt List.mem_cons_self

/-- Only a process that is RUNNING is charged for the tick. -/
theorem OnCpu.schedulerRun (h : OnCpu s e l) :
    ∃ s', Sched.schedulerRun interrupt s = schedulerSwitch s' ∧
      OnCpu s'
        { e with quantums := if e.proc.state = .running then incr64 e.quantums else e.quantums } l ∧
      s'.toGlobals = s.toGlobals := by
  by_cases hrun : e.proc.state = .running
  · obtain ⟨s', hcharge, h', hglob⟩ := h.editQuantums incr64
    refine ⟨s', ?_, by rwa [if_pos hrun], hglob⟩
    rw [Sched.schedulerRun, bind_of_ok h.currentProc, bind_of_ok h.procAt, hrun]
    show (get >>= fun t => editNode t.currentNode _ >>= fun _ => schedulerSwitch) s = _
    rw [get_bind, ← h.current, bind_of_ok hcharge]
  · refine ⟨s, ?_, by rwa [if_neg hrun], rfl⟩
    rw [Sched.schedulerRun, bind_of_ok h.currentProc, bind_of_ok h.procAt]
    cases hstate : e.proc.state with
    | running => exact absurd hstate hrun
    | killed => exact absurd hstate h.alive
    | _ => rfl

theorem OnCpu.scheduler (h : OnCpu s e l) (sp : ℕ) :
    ∃ s', Sched.scheduler interrupt sp s =
        (do schedulerSwitch; return (← Sched.procAt (← Sched.currentProc)).sp : Op H ℕ) s' ∧
      OnCpu s' (e.ticked sp) l ∧ s'.toGlobals = s.toGlobals := by
  obtain ⟨s₁, hsave, h₁, hglob₁⟩ :=
    h.editProc (f := fun p => { p with sp := sp }) (fun _ => ⟨rfl, rfl⟩) rfl
  obtain ⟨s₂, hrun, h₂, hglob₂⟩ := h₁.schedulerRun
  refine ⟨s₂, ?_, h₂, hglob₂.trans hglob₁⟩
  rw [Sched.scheduler, get_bind, if_neg (not_not.mpr h.enabled), get_bind, if_neg h.several,
    bind_of_ok h.currentProc, bind_of_ok hsave]
  exact bind_congr_at hrun

/-- The tick leaves the processor to the process that has it. -/
theorem OnCpu.keeps (h : OnCpu s e l) (sp : ℕ) (hkeep : ¬ (e.ticked sp).GivesUp s.forceYield) :
    ∃ s', step s (.schedule sp) = some s' ∧ OnCpu s' (e.ticked sp) l ∧
      s'.toGlobals = s.toGlobals := by
  obtain ⟨s', hval, h', hglob⟩ := h.scheduler sp
  obtain ⟨hblocked, hmore⟩ := not_or.mp hkeep
  have hswitch : schedulerSwitch s' = .ok () s' := by
    rw [schedulerSwitch, get_bind, bind_of_ok h'.nodeAt, bind_of_ok h'.procAt, if_neg hblocked,
      get_bind, if_neg]
    · rfl
    · rw [hglob]
      exact hmore
  have hok : Sched.scheduler interrupt sp s = .ok sp s' := by
    rw [hval, bind_of_ok hswitch, bind_of_ok h'.currentProc, bind_of_ok h'.procAt]
    rfl
  exact ⟨s', step_schedule hok, h', hglob⟩

/-- Picking an entry changes no other one. -/
theorem picked_of_ne (h : Shows s ring) (hx : x ∈ ring) (hy : y ∈ ring) (hne : y ≠ x) :
    picked x y = y := by
  have hproc : y.procAddr ≠ x.procAddr := fun heq => hne (h.procAddr_inj hy hx heq)
  have hnode : y.node ≠ x.node := fun heq => hne (h.node_inj hy hx heq)
  rw [picked, edit_of_ne _ hproc]
  exact if_neg hnode

theorem picked_self (x : Entry) : picked x x = x.start := by
  rw [picked, edit_self]
  exact if_pos rfl

/-- `dispatch` gives the processor to the first entry of the ring that is READY or NEW. -/
theorem dispatch_first (h : Shows s ring) (hring : ring = pre ++ x :: post)
    (hpre : ∀ y ∈ pre, y.isReady = false) (hx : x.isReady = true) {a : ℕ}
    (ha : (ring.map Entry.node).head? = some a) :
    ∃ s', dispatch a s = .ok () s' ∧ Shows s' (x.start :: (post ++ pre)) ∧
      s'.toGlobals = { s.toGlobals with currentNode := x.node } := by
  have hfind : ring.find? Entry.isReady = some x := by
    rw [hring, List.find?_append, List.find?_eq_none.mpr (by simpa using hpre)]
    rw [Option.none_or, List.find?_cons_of_pos hx]
  obtain ⟨d, l, rfl⟩ : ∃ d l, ring = d :: l := by
    cases ring with
    | nil => cases hfind
    | cons d l => exact ⟨d, l, rfl⟩
  obtain rfl : d.node = a := Option.some.inj ha
  obtain ⟨s', hval, hpicks⟩ := dispatch_picks h hfind
  refine ⟨s', hval, ?_, hpicks.globals⟩
  have hr : (d :: l).IsRotated (x :: (post ++ pre)) := by
    rw [hring]
    exact List.isRotated_append
  have hmem : ∀ y ∈ post ++ pre, y ∈ d :: l := fun y hy =>
    hr.mem_iff.mpr (List.mem_cons_of_mem _ hy)
  have hnodup := (h.rotated hr).nodes_nodup
  rw [List.map_cons, List.nodup_cons] at hnodup
  have hmap : (x :: (post ++ pre)).map (picked x) = x.start :: (post ++ pre) := by
    rw [List.map_cons, picked_self]
    congr 1
    refine (List.map_congr_left fun y hy => ?_).trans (List.map_id _)
    refine picked_of_ne h hpicks.mem (hmem y hy) ?_
    rintro rfl
    exact hnodup.1 (List.mem_map_of_mem hy)
  rw [← hmap]
  exact hpicks.shows.rotated (hr.map _)

/-- The tick gives the processor to the next process that can run, which is the same one if there is
no other. -/
theorem OnCpu.passes (h : OnCpu s e l) (sp : ℕ) (hgives : (e.ticked sp).GivesUp s.forceYield)
    (hring : l ++ [(e.ticked sp).back] = pre ++ x :: post) (hpre : ∀ y ∈ pre, y.isReady = false)
    (hx : x.isReady = true) :
    ∃ s', step s (.schedule sp) = some s' ∧ OnCpu s' x.start (post ++ pre) ∧
      s'.toGlobals = { s.toGlobals with
        currentNode := x.node
        forceYield := if e.proc.state = .blocked then s.forceYield else 0 } := by
  obtain ⟨t, hval, ht, hglob⟩ := h.scheduler sp
  generalize he' : e.ticked sp = e' at ht hgives hring
  have hstate : e'.proc.state = e.proc.state := he' ▸ rfl
  -- what is left of the process, and where the search begins
  have hleaves : ∃ u, schedulerSwitch t = dispatch (t.next e'.node) u ∧ Shows u (e'.back :: l) ∧
      u.toGlobals = { s.toGlobals with
        forceYield := if e.proc.state = .blocked then s.forceYield else 0 } := by
    by_cases hblocked : e'.proc.state = .blocked
    · refine ⟨t, ?_, ?_, ?_⟩
      · rw [schedulerSwitch, get_bind, bind_of_ok ht.nodeAt, bind_of_ok ht.procAt, if_pos hblocked]
      · have hsame : e'.back = e' := by
          rw [Entry.back, if_pos hblocked, ← hblocked]
        rw [hsame]
        exact ht.shows
      · rw [if_pos (hstate ▸ hblocked), hglob]
    · have ht₁ : Shows { t with forceYield := 0 } (e' :: l) := ht.shows.congr rfl rfl
      obtain ⟨u, hready, hu, huglob, -⟩ := ht₁.editProc (f := fun p => { p with state := .ready })
        List.mem_cons_self fun _ => ⟨rfl, rfl⟩
      rw [map_edit_head ht₁] at hu
      refine ⟨u, ?_, ?_, ?_⟩
      · have hend : MAX_QUANTUM < e'.quantums ∨ t.forceYield ≠ 0 := by
          rw [hglob]
          exact hgives.resolve_left hblocked
        rw [schedulerSwitch, get_bind, bind_of_ok ht.nodeAt, bind_of_ok ht.procAt, if_neg hblocked,
          get_bind, if_pos hend, modify_bind, bind_of_ok hready]
      · rw [Entry.back, if_neg hblocked]
        exact hu
      · rw [huglob, if_neg (hstate ▸ hblocked)]
        show ({ t.toGlobals with forceYield := 0 } : Globals) = _
        rw [hglob]
  obtain ⟨u, hswitch, hu, huglob⟩ := hleaves
  have hhead : ((l ++ [e'.back]).map Entry.node).head? = some (t.next e'.node) := by
    cases l with
    | nil => exact congrArg some (isRing_singleton.mp ht.shows.isRing).symm
    | cons y l => exact congrArg some ht.shows.isRing.next_eq.symm
  have hr : (e'.back :: l).IsRotated (l ++ [e'.back]) :=
    ⟨1, by rw [List.rotate_cons_succ, List.rotate_zero]⟩
  obtain ⟨s', hdispatch, hshows, hglob'⟩ := dispatch_first (hu.rotated hr) hring hpre hx hhead
  have hcpu : OnCpu s' x.start (post ++ pre) := by
    refine ⟨hshows, ?_, ?_, ?_, ?_⟩
    · rw [hglob']
      rfl
    · show x.proc.enter.state ≠ .killed
      exact States.noConfusion
    · rw [hglob', huglob]
      exact h.enabled
    · rw [hglob', huglob]
      exact h.several
  have hok : Sched.scheduler interrupt sp s = .ok x.start.proc.sp s' := by
    rw [hval, bind_of_ok (hswitch.trans hdispatch), bind_of_ok hcpu.currentProc,
      bind_of_ok hcpu.procAt]
    rfl
  exact ⟨s', step_schedule hok, hcpu, by rw [hglob', huglob]⟩

/-! ## Round robin -/

theorem slice_eq_max (p : ℕ) : slice p = max 1 (MAX_QUANTUM + 1 - p) := by
  simp only [slice, MAX_QUANTUM]
  omega

theorem slice_pos (p : ℕ) : 0 < slice p := by
  rw [slice_eq_max]
  exact Nat.lt_of_lt_of_le Nat.zero_lt_one (Nat.le_max_left _ _)

/-- A slice is over when the quantums are above `MAX_QUANTUM`. -/
theorem slice_le_one {q : ℕ} (hq : q + 1 < 2 ^ 64) : slice q ≤ 1 ↔ MAX_QUANTUM < incr64 q := by
  rw [slice_eq_max, incr64_of_lt hq]
  simp only [MAX_QUANTUM]
  omega

/-- The nodes that wait for their turn, the next one first. -/
def waiting (l : List Entry) : List ℕ := (l.filter Entry.isReady).map Entry.node

theorem waiting_append : waiting (l ++ pre) = waiting l ++ waiting pre := by
  rw [waiting, List.filter_append, List.map_append]
  rfl

theorem waiting_eq_nil (h : ∀ y ∈ l, y.isReady = false) : waiting l = [] := by
  rw [waiting, List.filter_eq_nil_iff.mpr fun y hy => by rw [h y hy]; exact Bool.false_ne_true]
  rfl

theorem waiting_cons (h : x.isReady = true) : waiting (x :: l) = x.node :: waiting l := by
  rw [waiting, List.filter_cons_of_pos h]
  rfl

/-- The first one that waits. -/
theorem exists_first (l : List Entry) : (∀ y ∈ l, y.isReady = false) ∨
    ∃ pre x post, l = pre ++ x :: post ∧ (∀ y ∈ pre, y.isReady = false) ∧ x.isReady = true := by
  cases hfind : l.find? Entry.isReady with
  | none => exact Or.inl (by simpa using hfind)
  | some x =>
    obtain ⟨hx, pre, post, rfl, hpre⟩ := List.find?_eq_some_iff_append.mp hfind
    exact Or.inr ⟨pre, x, post, rfl, by simpa using hpre, hx⟩

/-- The kernel is at this point of the round robin in which the node `a` has the weight `w a`. -/
inductive Tracks (w : ℕ → ℕ) (s : Kernel H) : Turn ℕ → Prop
  | intro {e : Entry} {l : List Entry} (cpu : OnCpu s e l) (state : e.proc.state = .running)
    (noYield : s.forceYield = 0) (small : e.quantums + 1 < 2 ^ 64)
    (weight : ∀ y ∈ e :: l, w y.node = slice y.proc.priority ∧ y.proc.priority + 1 < 2 ^ 64) :
    Tracks w s ⟨e.node, slice e.quantums, waiting l⟩

theorem Tracks.runner {w : ℕ → ℕ} {t : Turn ℕ} (h : Tracks w s t) : t.runner = s.currentNode := by
  cases h with
  | intro cpu _ _ _ _ => exact cpu.current

/-- The process picked next has its whole turn before it. -/
theorem OnCpu.tracks {w : ℕ → ℕ} (h : OnCpu s x.start l) (hyield : s.forceYield = 0)
    (hweight : ∀ y ∈ x :: l, w y.node = slice y.proc.priority ∧ y.proc.priority + 1 < 2 ^ 64) :
    Tracks w s ⟨x.node, w x.node, waiting l⟩ := by
  obtain ⟨hx, hsmall⟩ := hweight x List.mem_cons_self
  rw [hx]
  refine .intro h rfl hyield hsmall fun y hy => ?_
  rcases List.mem_cons.mp hy with rfl | hy
  · exact ⟨hx, hsmall⟩
  · exact hweight y (List.mem_cons_of_mem _ hy)

/-- A tick of the kernel is a tick of the round robin. -/
theorem Tracks.tick {w : ℕ → ℕ} {t : Turn ℕ} (h : Tracks w s t) (sp : ℕ) :
    ∃ s', step s (.schedule sp) = some s' ∧ Tracks w s' (RoundRobin.tick w t) := by
  obtain ⟨hcpu, hstate, hyield, hsmall, hweight⟩ := h
  next e l =>
  have hquantums : (e.ticked sp).quantums = incr64 e.quantums := if_pos hstate
  have hrunning : (e.ticked sp).proc.state = .running := hstate
  by_cases hlast : slice e.quantums ≤ 1
  · have hgives : (e.ticked sp).GivesUp s.forceYield :=
      Or.inr (Or.inl (hquantums ▸ (slice_le_one hsmall).mp hlast))
    have hback : (e.ticked sp).back.isReady = true := by
      simp [Entry.isReady, Entry.back, hrunning]
    have hyield' : (if e.proc.state = .blocked then s.forceYield else 0) = 0 := by
      rw [if_neg (by rw [hstate]; exact States.noConfusion)]
    have hweight' : ∀ y ∈ (e.ticked sp).back :: l,
        w y.node = slice y.proc.priority ∧ y.proc.priority + 1 < 2 ^ 64 := fun y hy => by
      rcases List.mem_cons.mp hy with rfl | hy
      · exact hweight e List.mem_cons_self
      · exact hweight y (List.mem_cons_of_mem _ hy)
    rcases exists_first l with hnone | ⟨pre, x, post, rfl, hpre, hx⟩
    · -- nobody waits, and the turn goes to the same process
      obtain ⟨s', hstep, hcpu', hglob⟩ := hcpu.passes sp hgives rfl hnone hback
      refine ⟨s', hstep, ?_⟩
      rw [waiting_eq_nil hnone, tick_nil hlast]
      have htracks := hcpu'.tracks (by rw [hglob]; exact hyield') hweight'
      rwa [List.nil_append, waiting_eq_nil hnone] at htracks
    · have hring : (pre ++ x :: post) ++ [(e.ticked sp).back] =
          pre ++ x :: (post ++ [(e.ticked sp).back]) := by
        rw [List.append_assoc, List.cons_append]
      obtain ⟨s', hstep, hcpu', hglob⟩ := hcpu.passes sp hgives hring hpre hx
      refine ⟨s', hstep, ?_⟩
      rw [waiting_append, waiting_eq_nil hpre, List.nil_append, waiting_cons hx, tick_cons hlast]
      have htracks := hcpu'.tracks (by rw [hglob]; exact hyield') fun y hy =>
        hweight' y (by simp only [List.mem_cons, List.mem_append, List.not_mem_nil] at hy ⊢; tauto)
      rwa [waiting_append, waiting_append, waiting_cons hback, waiting_eq_nil hpre,
        List.append_nil] at htracks
  · have hle : e.quantums < MAX_QUANTUM := by
      rw [slice_eq_max] at hlast
      simp only [MAX_QUANTUM] at hlast ⊢
      omega
    have hkeeps : ¬ (e.ticked sp).GivesUp s.forceYield := by
      rintro (hblocked | hover | hforce)
      · rw [hrunning] at hblocked
        exact States.noConfusion hblocked
      · rw [hquantums] at hover
        exact hlast ((slice_le_one hsmall).mpr hover)
      · exact hforce hyield
    obtain ⟨s', hstep, hcpu', hglob⟩ := hcpu.keeps sp hkeeps
    have hincr : (e.ticked sp).quantums = e.quantums + 1 := by rw [hquantums, incr64_of_lt hsmall]
    refine ⟨s', hstep, ?_⟩
    have hturn : RoundRobin.tick w ⟨e.node, slice e.quantums, waiting l⟩ =
        ⟨(e.ticked sp).node, slice (e.ticked sp).quantums, waiting l⟩ := by
      rw [RoundRobin.tick, if_neg hlast, hincr]
      congr 1
      simp only [slice_eq_max, MAX_QUANTUM] at hle ⊢
      omega
    rw [hturn]
    refine .intro hcpu' hrunning (by rw [hglob]; exact hyield) ?_ fun y hy => ?_
    · rw [hincr]
      simp only [MAX_QUANTUM] at hle
      omega
    · rcases List.mem_cons.mp hy with rfl | hy
      · exact hweight e List.mem_cons_self
      · exact hweight y (List.mem_cons_of_mem _ hy)

/-- The nodes that are current when the ticks come. -/
def timeline (s : Kernel H) : List ℕ → List ℕ
  | [] => []
  | sp :: sps => s.currentNode :: ((step s (.schedule sp)).map fun s' => timeline s' sps).getD []

theorem Tracks.timeline {w : ℕ → ℕ} {t : Turn ℕ} (h : Tracks w s t) (sps : List ℕ) :
    Lives.timeline s sps = RoundRobin.schedule w t sps.length := by
  induction sps generalizing s t with
  | nil => rfl
  | cons sp sps ih =>
    obtain ⟨s', hstep, h'⟩ := h.tick sp
    rw [Lives.timeline, hstep, Option.map_some, Option.getD_some, ih h', List.length_cons,
      RoundRobin.schedule, h.runner]

/-- The process on `x` can run, and waits behind the current one, on `e`, and those on `pre`. -/
structure Awaits (s : Kernel H) (e : Entry) (pre : List Entry) (x : Entry) (post : List Entry) :
    Prop where
  cpu : OnCpu s e (pre ++ x :: post)
  first : s.first ∈ (e :: (pre ++ x :: post)).map Entry.node
  state : e.proc.state = .running ∨ e.proc.state = .blocked
  ready : x.isReady = true
  small : e.quantums + 1 < 2 ^ 64
  smalls : ∀ y ∈ pre, y.proc.priority + 1 < 2 ^ 64

/-- The ticks that the current process and those on `pre` may take. -/
def ahead (e : Entry) (pre : List Entry) : ℕ :=
  slice e.quantums + (pre.map fun y => slice y.proc.priority).sum

/-- The call neither blocks the process `q` nor marks the current process READY. -/
def Call.Lets (s : Kernel H) (q : ℕ) : Call → Prop
  | .schedule _ => True
  | .forceCurrentYield => True
  | .readyProcess pid => pid ≠ s.pidOf s.currentNode
  | .blockProcess pid => pid ≠ q
  | _ => False

/-- The call is a tick. -/
def Call.isTick : Call → Bool
  | .schedule _ => true
  | _ => false

/-- A tick brings `x` nearer to its turn. -/
theorem Awaits.schedule (h : Awaits s e pre x post) (sp : ℕ) :
    ∃ s', step s (.schedule sp) = some s' ∧ (s'.currentNode = x.node ∨
      ∃ e' pre' post', Awaits s' e' pre' x post' ∧ ahead e' pre' < ahead e pre) := by
  by_cases hgives : (e.ticked sp).GivesUp s.forceYield
  · rcases exists_first pre with hnone | ⟨pre₁, y, post₁, rfl, hpre, hy⟩
    · have hring : (pre ++ x :: post) ++ [(e.ticked sp).back] =
          pre ++ x :: (post ++ [(e.ticked sp).back]) := by
        rw [List.append_assoc, List.cons_append]
      obtain ⟨s', hstep, -, hglob⟩ := h.cpu.passes sp hgives hring hnone h.ready
      exact ⟨s', hstep, Or.inl (by rw [hglob])⟩
    · have hring : (pre₁ ++ y :: post₁) ++ x :: post ++ [(e.ticked sp).back] =
          pre₁ ++ y :: (post₁ ++ x :: (post ++ [(e.ticked sp).back])) := by
        simp only [List.append_assoc, List.cons_append]
      obtain ⟨s', hstep, hcpu, hglob⟩ := h.cpu.passes sp hgives hring hpre hy
      have hsplit : post₁ ++ x :: (post ++ [(e.ticked sp).back]) ++ pre₁ =
          post₁ ++ x :: (post ++ [(e.ticked sp).back] ++ pre₁) := by
        simp only [List.append_assoc, List.cons_append]
      rw [hsplit] at hcpu
      refine ⟨s', hstep, Or.inr ⟨y.start, post₁, _, ⟨hcpu, ?_, Or.inl rfl, h.ready, ?_, ?_⟩, ?_⟩⟩
      · have hfirst := h.first
        rw [hglob]
        simp only [List.map_cons, List.map_append, List.map_nil, List.mem_cons, List.mem_append,
          List.not_mem_nil, or_false] at hfirst ⊢
        show s.first = y.node ∨ _
        change s.first = e.node ∨ _ at hfirst
        rw [show (e.ticked sp).back.node = e.node from rfl]
        tauto
      · exact h.smalls y (by simp)
      · exact fun z hz => h.smalls z (by simp [hz])
      · have hpos := slice_pos e.quantums
        show slice y.proc.priority + _ < _
        simp only [ahead, List.map_append, List.map_cons, List.sum_append, List.sum_cons]
        omega
  · obtain ⟨s', hstep, hcpu, hglob⟩ := h.cpu.keeps sp hgives
    obtain ⟨hblocked, hmore⟩ := not_or.mp hgives
    have hrun : e.proc.state = .running := h.state.resolve_right hblocked
    have hquantums : (e.ticked sp).quantums = e.quantums + 1 :=
      (if_pos hrun).trans (incr64_of_lt h.small)
    have hle : e.quantums + 1 ≤ MAX_QUANTUM := by
      rw [← hquantums]
      exact Nat.not_lt.mp fun hlt => hmore (Or.inl hlt)
    refine ⟨s', hstep, Or.inr ⟨e.ticked sp, pre, post, ⟨hcpu, ?_, Or.inl hrun, h.ready, ?_,
      h.smalls⟩, ?_⟩⟩
    · rw [hglob]
      exact h.first
    · rw [hquantums]
      simp only [MAX_QUANTUM] at hle
      omega
    · simp only [ahead, hquantums, slice_eq_max, MAX_QUANTUM] at hle ⊢
      omega

/-- An assignment to the state of one process. -/
theorem Awaits.edit (h : Awaits s e pre x post) {a : ℕ} {f : Process → Process}
    (hshows : Shows s' ((e :: (pre ++ x :: post)).map (Entry.edit a f)))
    (hglob : s'.toGlobals = { s.toGlobals with blockCount := s'.blockCount })
    (hpriority : ∀ p, (f p).priority = p.priority)
    (hstate : (e.edit a f).proc.state = .running ∨ (e.edit a f).proc.state = .blocked)
    (hready : (x.edit a f).isReady = true) :
    Awaits s' (e.edit a f) (pre.map (Entry.edit a f)) (x.edit a f) (post.map (Entry.edit a f)) ∧
      ahead (e.edit a f) (pre.map (Entry.edit a f)) = ahead e pre := by
  have hprio : ∀ y : Entry, (y.edit a f).proc.priority = y.proc.priority :=
    edit_field Process.priority hpriority a
  rw [List.map_cons, List.map_append, List.map_cons] at hshows
  refine ⟨⟨⟨hshows, ?_, ?_, ?_, ?_⟩, ?_, hstate, hready, ?_, ?_⟩, ?_⟩
  · rw [edit_node, hglob]
    exact h.cpu.current
  · rcases hstate with hs | hs <;> rw [hs] <;> exact States.noConfusion
  · rw [hglob]
    exact h.cpu.enabled
  · rw [hglob]
    exact h.cpu.several
  · rw [hglob]
    simpa only [List.map_cons, List.map_append, List.map_map, Function.comp_def, edit_node]
      using h.first
  · rw [edit_quantums]
    exact h.small
  · intro y hy
    obtain ⟨z, hz, rfl⟩ := List.mem_map.mp hy
    rw [hprio]
    exact h.smalls z hz
  · simp only [ahead, edit_quantums, List.map_map, Function.comp_def, hprio]

/-- `block_process` marks the process that it finds, and forces the scheduler. -/
theorem blockProcess_cases (h : Shows s ring) (hfirst : s.first ∈ ring.map Entry.node) (pid : ℕ) :
    (∃ z ∈ ring, z.proc.pid = pid ∧ ∃ s', step s (.blockProcess pid) = some s' ∧
        Shows s' (ring.map (Entry.edit z.procAddr fun p => { p with state := .blocked })) ∧
        s'.toGlobals = s.toGlobals) ∨
      ((∀ z ∈ ring, z.proc.pid ≠ pid) ∧ step s (.blockProcess pid) = some s) := by
  rcases findNode_cases h hfirst pid with ⟨z, hz, hpid, hfind⟩ | ⟨hnone, hfind⟩
  · obtain ⟨s', hedit, hshows, hglob, -⟩ :=
      h.editProc hz (f := fun p => { p with state := .blocked }) fun _ => ⟨rfl, rfl⟩
    refine Or.inl ⟨z, hz, hpid, s', ?_, hshows, hglob⟩
    have hrun : Sched.blockProcess interrupt pid s = .error .switched s' := by
      rw [Sched.blockProcess, bind_of_ok hfind, if_neg (h.node_ne_zero hz),
        bind_of_ok (h.nodeAt hz), bind_of_ok hedit]
      rfl
    rw [step, outcome, Call.run, bind_of_error hrun]
  · refine Or.inr ⟨hnone, ?_⟩
    have hrun : Sched.blockProcess interrupt pid s = .ok failed s := by
      rw [Sched.blockProcess, bind_of_ok hfind, if_pos rfl]
      rfl
    rw [step, outcome, Call.run, bind_of_ok hrun]
    rfl

theorem step_readyProcess {pid v : ℕ} (h : Sched.readyProcess pid s = .ok v s') :
    step s (.readyProcess pid) = some s' := by
  rw [step, outcome, Call.run, bind_of_ok h]
  rfl

/-- The other calls let everybody wait as long as before. -/
theorem Awaits.calm (h : Awaits s e pre x post) {c : Call} (hc : c.Lets s x.proc.pid)
    (htick : c.isTick = false) :
    ∃ s' e' pre' x' post', step s c = some s' ∧ Awaits s' e' pre' x' post' ∧
      ahead e' pre' = ahead e pre ∧ x'.node = x.node ∧ x'.proc.pid = x.proc.pid := by
  have he : e ∈ e :: (pre ++ x :: post) := List.mem_cons_self
  have hx : x ∈ e :: (pre ++ x :: post) := by simp
  cases c with
  | forceCurrentYield =>
    refine ⟨{ s with forceYield := 1 }, e, pre, x, post, rfl,
      ⟨⟨?_, ?_, ?_, ?_, ?_⟩, ?_, ?_, ?_, ?_, ?_⟩, rfl, rfl, rfl⟩
    · exact h.cpu.shows.congr rfl rfl
    · exact h.cpu.current
    · exact h.cpu.alive
    · exact h.cpu.enabled
    · exact h.cpu.several
    · exact h.first
    · exact h.state
    · exact h.ready
    · exact h.small
    · exact h.smalls
  | readyProcess pid =>
    rcases h.cpu.shows.readyProcess h.first pid with
      ⟨z, hz, hpid, s', hval, hshows, hglob, -⟩ | ⟨-, hval⟩
    · have hze : e.procAddr ≠ z.procAddr := by
        intro heq
        obtain rfl := h.cpu.shows.procAddr_inj he hz heq
        rw [Call.Lets, ← h.cpu.current, h.cpu.shows.pidOf he] at hc
        exact hc hpid.symm
      have hready : (x.edit z.procAddr fun p => { p with state := .ready }).isReady = true := by
        by_cases hxz : x.procAddr = z.procAddr
        · rw [Entry.edit, if_pos hxz]
          rfl
        · rw [edit_of_ne _ hxz]
          exact h.ready
      obtain ⟨h', hahead⟩ := h.edit hshows (by rw [hglob]) (fun _ => rfl)
        (by rw [edit_of_ne _ hze]; exact h.state) hready
      exact ⟨s', _, _, _, _, step_readyProcess hval, h', hahead, edit_node _ _ x,
        edit_field Process.pid (by intro p; rfl) _ x⟩
    · exact ⟨s, e, pre, x, post, step_readyProcess hval, h, rfl, rfl, rfl⟩
  | blockProcess pid =>
    rcases blockProcess_cases h.cpu.shows h.first pid with
      ⟨z, hz, hpid, s', hval, hshows, hglob⟩ | ⟨-, hval⟩
    · have hzx : x.procAddr ≠ z.procAddr := by
        intro heq
        obtain rfl := h.cpu.shows.procAddr_inj hx hz heq
        exact hc hpid.symm
      have hstate :
          (e.edit z.procAddr fun p => { p with state := .blocked }).proc.state = .running ∨
            (e.edit z.procAddr fun p => { p with state := .blocked }).proc.state = .blocked := by
        by_cases hez : e.procAddr = z.procAddr
        · rw [Entry.edit, if_pos hez]
          exact Or.inr rfl
        · rw [edit_of_ne _ hez]
          exact h.state
      obtain ⟨h', hahead⟩ := h.edit hshows (by rw [hglob]) (fun _ => rfl) hstate
        (by rw [edit_of_ne _ hzx]; exact h.ready)
      exact ⟨s', _, _, _, _, hval, h', hahead, edit_node _ _ x,
        edit_field Process.pid (by intro p; rfl) _ x⟩
    · exact ⟨s, e, pre, x, post, hval, h, rfl, rfl, rfl⟩
  | schedule sp => cases htick
  | _ => exact absurd hc id

/-- A current process that is READY is not charged. -/
theorem OnCpu.run_ready (h : OnCpu s e l) (hstate : e.proc.state = .ready)
    (hquantums : e.quantums ≤ MAX_QUANTUM) (hyield : s.forceYield = 0) (sps : List ℕ) :
    ∃ s', run step s (sps.map .schedule) = some s' ∧ s'.currentNode = e.node := by
  induction sps generalizing s e with
  | nil => exact ⟨s, rfl, h.current.symm⟩
  | cons sp sps ih =>
    have hsame : (e.ticked sp).quantums = e.quantums :=
      if_neg (by rw [hstate]; exact States.noConfusion)
    have hkeeps : ¬ (e.ticked sp).GivesUp s.forceYield := by
      rintro (hblocked | hover | hforce)
      · change e.proc.state = .blocked at hblocked
        rw [hstate] at hblocked
        exact States.noConfusion hblocked
      · rw [hsame] at hover
        exact absurd hover (Nat.not_lt.mpr hquantums)
      · exact hforce hyield
    obtain ⟨s₁, hstep, h₁, hglob⟩ := h.keeps sp hkeeps
    obtain ⟨s', hrun, hcur⟩ := ih h₁ hstate (hsame ▸ hquantums) (by rw [hglob]; exact hyield)
    exact ⟨s', by rw [List.map_cons, run_cons, hstep, Option.bind_some, hrun], hcur⟩

/-- A process that has `ready_process` called for itself keeps the processor from then on: no number
of ticks gives it to another one, however many can run. -/
theorem ready_current_stays (s : Kernel H) (e : Entry) (l : List Entry) (h : Ticking s e l)
    (hfirst : s.first ∈ (e :: l).map Entry.node) (hpids : ∀ y ∈ l, y.proc.pid ≠ e.proc.pid)
    (hquantums : e.quantums ≤ MAX_QUANTUM) (sps : List ℕ) :
    ∃ s', run step s (.readyProcess e.proc.pid :: sps.map .schedule) = some s' ∧
      s'.currentNode = s.currentNode := by
  rcases h.shows.readyProcess hfirst e.proc.pid with
    ⟨z, hz, hpid, s₁, hval, hshows, hglob, -⟩ | ⟨hnone, -⟩
  · obtain rfl : z = e := by
      rcases List.mem_cons.mp hz with rfl | hz
      · rfl
      · exact absurd hpid (hpids z hz)
    rw [map_edit_head h.shows] at hshows
    have hcpu : OnCpu s₁ { z with proc := { z.proc with state := .ready } } l := by
      refine ⟨hshows, ?_, States.noConfusion, ?_, ?_⟩ <;> rw [hglob]
      · exact h.current
      · exact h.enabled
      · exact h.several
    obtain ⟨s', hrun, hcur⟩ := hcpu.run_ready rfl hquantums (by rw [hglob]; exact h.noYield) sps
    exact ⟨s', by rw [run_cons, step_readyProcess hval, Option.bind_some, hrun],
      hcur.trans h.current⟩
  · exact absurd rfl (hnone e List.mem_cons_self)

/-- A hundred ticks do not bring the idle process its turn. -/
theorem ready_current_stays_pair :
    ∃ s', run step (pairKernel 2) (.readyProcess 1 :: (List.replicate 100 0).map .schedule) =
      some s' ∧ s'.currentNode = 12424 :=
  ready_current_stays (pairKernel 2) (dispatched 2) [idle] (pairKernel_dispatched 2).toTicking
    (by decide) (by decide) (by decide) (List.replicate 100 0)

end Lives

end TronKernel.Sched
