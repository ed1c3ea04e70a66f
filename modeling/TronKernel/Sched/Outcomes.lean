import TronKernel.Sched.Lives
import Mathlib.Data.List.Find

/-!
# What a call can do to the ring

The calls of `scheduler.c` and `wait_pid` as the steps of a run. `Outcome` lists the states a step
can lead to: processes have been assigned to, one has joined the ring or has left it, and
`scheduler` has picked the next one (`ends_run`).
-/

namespace TronKernel.Sched

open Programs Sem CircularList

variable {H : Type} {s s' t u : Kernel H} {ring ring' l : List Entry} {e v x : Entry} {a : ℕ}

/-! ## What is read off a state -/

/-- The process of a node. -/
def Kernel.procOf (s : Kernel H) (node : ℕ) : Option Process :=
  (s.node? node).bind fun n => s.process? n.proc

/-- Its pid. -/
def Kernel.pidOf (s : Kernel H) (node : ℕ) : ℕ := ((s.procOf node).map Process.pid).getD 0

/-- `node->proc`, where NULL has 0. -/
def Kernel.ground (s : Kernel H) (node : ℕ) : ℕ :=
  if node = 0 then 0 else ((s.node? node).map Node.proc).getD 0

/-- `scheduler` would find that the current process has been killed. -/
def Kernel.Exits (s : Kernel H) : Prop :=
  s.disableCount = 0 ∧ s.counter ≠ 1 ∧ (s.procOf s.currentNode).map Process.state = some .killed

instance (s : Kernel H) : Decidable s.Exits := inferInstanceAs (Decidable (_ ∧ _))

/-- `foreground` and `background` after `kill_foreground_proc`. -/
def Kernel.handOver (s : Kernel H) : ℕ × ℕ :=
  if s.background = 0 then (s.foreground, s.background) else (s.background, 0)

variable [Allocator H]

theorem Shows.procOf (h : Shows s ring) (he : e ∈ ring) : s.procOf e.node = some e.proc := by
  rw [Kernel.procOf, h.node_at e he]
  exact h.process_at e he

/-- Nodes with a process are entries. -/
theorem Shows.mem_of_procOf (h : Shows s ring) {p : Process} (hp : s.procOf a = some p) :
    ∃ x ∈ ring, x.node = a ∧ x.proc = p := by
  obtain ⟨n, hn, hproc⟩ := Option.bind_eq_some_iff.mp hp
  obtain ⟨x, hx, hnode, rfl⟩ := h.node_of_some hn
  exact ⟨x, hx, hnode, Option.some.inj ((h.process_at x hx).symm.trans hproc)⟩

theorem Shows.pidOf (h : Shows s ring) (he : e ∈ ring) : s.pidOf e.node = e.proc.pid := by
  rw [Kernel.pidOf, h.procOf he]
  rfl

theorem Shows.ground (h : Shows s ring) (he : e ∈ ring) : s.ground e.node = e.procAddr := by
  rw [Kernel.ground, if_neg (h.node_ne_zero he), h.node_at e he]
  rfl

theorem Shows.current (h : Shows s ring) (he : e ∈ ring) (hcur : e.node = s.currentNode) :
    s.current = e.procAddr := by
  rw [Kernel.current, ← hcur, h.node_at e he]
  rfl

theorem Shows.exits (h : Shows s ring) (he : e ∈ ring) (hcur : e.node = s.currentNode) :
    s.Exits ↔ s.disableCount = 0 ∧ s.counter ≠ 1 ∧ e.proc.state = .killed := by
  rw [Kernel.Exits, ← hcur, h.procOf he, Option.map_some, Option.some.injEq]

/-- What `find_node` returns on a ring that is read from `first` on. -/
theorem Shows.nodeOf (h : Shows s (e :: l)) (hfirst : e.node = s.first) (pid : ℕ) :
    s.nodeOf pid = (((e :: l).find? fun x => x.proc.pid = pid).map Entry.node).getD 0 :=
  nodeOf_eq (findNode_eq h hfirst pid)

theorem Shows.nodeOf_lost (h : Shows s ring) (hfirst : s.first ∉ ring.map Entry.node) (pid : ℕ) :
    s.nodeOf pid = 0 := by
  have hnone : s.node? s.first = none := by
    rw [Option.eq_none_iff_forall_ne_some]
    intro n hn
    obtain ⟨x, hx, hxf, -⟩ := h.node_of_some hn
    exact hfirst (hxf ▸ List.mem_map_of_mem hx)
  have hfind : findNode pid s = .error .fault s := by
    rw [findNode, get_bind]
    exact bind_of_error (by rw [Sched.nodeAt, hnone])
  rw [Kernel.nodeOf, hfind]

/-- What `find_node` finds has the pid. -/
theorem Shows.nodeOf_pid (h : Shows s ring) {pid : ℕ} (hv : v ∈ ring)
    (heq : v.node = s.nodeOf pid) : v.proc.pid = pid := by
  have hfirst : s.first ∈ ring.map Entry.node := by
    by_contra hlost
    exact h.node_ne_zero hv (heq.trans (h.nodeOf_lost hlost pid))
  rcases findNode_cases h hfirst pid with ⟨x, hx, hpid, hfind⟩ | ⟨-, hfind⟩
  · rw [nodeOf_eq hfind] at heq
    obtain rfl := h.node_inj hv hx heq
    exact hpid
  · exact absurd (heq.trans (nodeOf_eq hfind)) (h.node_ne_zero hv)

/-! ## Searching for the next process -/

/-- `schedulerSwitch` up to the call of `find_next_ready`: what `scheduler` returns, or the argument
of the call. -/
def switchUpTo : Op H (ℕ ⊕ ℕ) := do
  let n ← nodeAt (← get).currentNode
  let p ← procAt n.proc
  if p.state = .blocked then return .inr n.next
  else if MAX_QUANTUM < n.quantums ∨ (← get).forceYield ≠ 0 then
    modify fun s => { s with forceYield := 0 }
    editProc n.proc fun p => { p with state := .ready }
    return .inr n.next
  else return .inl (← procAt (← currentProc)).sp

/-- `scheduler` up to the call of `find_next_ready`. -/
def schedulerUpTo (force : Op H Unit) (sp : ℕ) : Op H (ℕ ⊕ ℕ) := do
  if (← get).disableCount ≠ 0 then
    editProc (← currentProc) fun p => { p with sp := sp }
    return .inl sp
  else if (← get).counter = 1 then return .inl sp
  else
    editProc (← currentProc) fun p => { p with sp := sp }
    let proc ← currentProc
    match (← procAt proc).state with
    | .running =>
      editNode (← get).currentNode fun n => { n with quantums := incr64 n.quantums }
      switchUpTo
    | .killed =>
      schedulerDestroy force
      return .inr (← get).currentNode
    | _ => switchUpTo

/-- What follows that call, or the return. -/
def resume : ℕ ⊕ ℕ → Op H ℕ
  | .inl v => return v
  | .inr start => do
    dispatch start
    return (← procAt (← currentProc)).sp

omit [Allocator H] in
theorem switchUpTo_resume :
    (switchUpTo >>= resume : Op H ℕ) = do
      schedulerSwitch
      return (← procAt (← currentProc)).sp := by
  simp only [switchUpTo, schedulerSwitch, bind_assoc]
  congr 1; funext s; congr 1; funext n; congr 1; funext p
  split_ifs
  · simp [resume]
  · simp only [bind_assoc]
    congr 1; funext s
    split_ifs
    · simp [resume, bind_assoc]
    · simp [resume, bind_assoc]

/-- `scheduler` is its two parts. -/
theorem scheduler_eq (force : Op H Unit) (sp : ℕ) :
    scheduler force sp = schedulerUpTo force sp >>= resume := by
  simp only [scheduler, schedulerUpTo, bind_assoc]
  congr 1; funext s
  split_ifs
  · simp [resume, bind_assoc]
  · simp only [bind_assoc]
    congr 1; funext s
    split_ifs
    · simp [resume]
    · simp only [bind_assoc, schedulerRun]
      congr 1; funext a; congr 1; funext _; congr 1; funext proc; congr 1; funext p
      cases p.state with
      | running => simp only [bind_assoc, switchUpTo_resume]
      | killed => simp [resume, bind_assoc]
      | _ => exact switchUpTo_resume.symm

namespace Lives

/-! ## The steps of a run -/

/-- A step. `killOther` is the rest of a `kill_process` that comes back from the scheduler, and
`finishScheduler` the rest of a `scheduler` that such a call was made in. -/
inductive Call where
  | schedule (sp : ℕ)
  | finishScheduler
  | addProcess (name : ℕ) (argv : List (List UInt8)) (readFd writeFd priority isForeground : ℕ)
  | killProcess (pid : ℕ)
  | killOther (pid : ℕ)
  | killCurrentProcess
  | killForegroundProc
  | blockProcess (pid : ℕ)
  | readyProcess (pid : ℕ)
  | waitPid
  | forceCurrentYield

/-- `kill_process` in `scheduler`, where it is called for the current process. -/
def finishKill : Op H ℕ := do
  let pid := (← procAt (← currentProc)).pid
  let _ ← Sched.killOther interrupt pid
  return (← get).currentNode

/-- The code of a step. -/
def Call.run : Call → Op H Unit
  | .schedule sp => do let _ ← scheduler interrupt sp
  | .finishScheduler => finishKill >>= dispatch
  | .addProcess name argv readFd writeFd priority isForeground => do
    let _ ← Sched.addProcess interrupt name argv readFd writeFd priority isForeground
  | .killProcess pid => do let _ ← Sched.killProcess interrupt pid
  | .killOther pid => do let _ ← Sched.killOther interrupt pid
  | .killCurrentProcess => Sched.killCurrentProcess interrupt
  | .killForegroundProc => Sched.killForegroundProc interrupt
  | .blockProcess pid => do let _ ← Sched.blockProcess interrupt pid
  | .readyProcess pid => do let _ ← Sched.readyProcess pid
  | .waitPid => Sched.waitPid interrupt
  | .forceCurrentYield => Sched.forceCurrentYield interrupt

/-- The state after a step, if the step comes to an end or to the scheduler. -/
def step (s : Kernel H) (c : Call) : Option (Kernel H) := outcome c.run s

omit [Allocator H] in
/-- The pids of the processes that a step may block or kill. -/
def Call.Stops (s : Kernel H) : Call → ℕ → Prop
  | .blockProcess pid, q => q = pid
  | .killProcess pid, q => q = pid
  | .killOther pid, q => q = pid
  | .killCurrentProcess, q => q = s.pidOf s.currentNode
  | .finishScheduler, q => q = s.pidOf s.currentNode
  | .waitPid, q =>
    q = s.pidOf s.currentNode ∧ (s.procOf s.currentNode).map Process.children ≠ some 0
  | .killForegroundProc, q => s.background ≠ 0 ∧ q = s.pidOf s.foreground
  | .schedule _, q => s.Exits ∧ q = s.pidOf s.currentNode
  | _, _ => False

instance stopsDecidable (s : Kernel H) (c : Call) (q : ℕ) : Decidable (c.Stops s q) :=
  match c with
  | .blockProcess pid => inferInstanceAs (Decidable (q = pid))
  | .killProcess pid => inferInstanceAs (Decidable (q = pid))
  | .killOther pid => inferInstanceAs (Decidable (q = pid))
  | .killCurrentProcess => inferInstanceAs (Decidable (q = _))
  | .finishScheduler => inferInstanceAs (Decidable (q = _))
  | .waitPid => inferInstanceAs (Decidable (_ ∧ _))
  | .killForegroundProc => inferInstanceAs (Decidable (_ ∧ _))
  | .schedule _ => inferInstanceAs (Decidable (_ ∧ _))
  | .addProcess .. => isFalse id
  | .readyProcess _ => isFalse id
  | .forceCurrentYield => isFalse id

omit [Allocator H] in
/-- The node that a step hands to `destroy_node`, 0 if there is none. -/
def Call.victim (s : Kernel H) : Call → ℕ
  | .killProcess pid => if s.pidOf s.currentNode = pid then 0 else s.nodeOf pid
  | .killOther pid => s.nodeOf pid
  | .finishScheduler => s.nodeOf (s.pidOf s.currentNode)
  | .killForegroundProc =>
    if s.background = 0 ∨ s.pidOf s.currentNode = s.pidOf s.foreground then 0
    else s.nodeOf (s.pidOf s.foreground)
  | .schedule _ => if s.Exits ∧ s.current ≠ s.ground s.foreground then s.currentNode else 0
  | _ => 0

omit [Allocator H] in
/-- `foreground` and `background` when a step calls `destroy_node`, or at its end. -/
def Call.grounds (s : Kernel H) : Call → ℕ × ℕ
  | .killForegroundProc => s.handOver
  | .schedule _ =>
    if s.Exits ∧ s.current = s.ground s.foreground then s.handOver else (s.foreground, s.background)
  | _ => (s.foreground, s.background)

/-- The node that a step makes, where the heap gives one after the process has been made, and 0
where it does not. -/
def Call.Makes (s : Kernel H) (c : Call) (newNode : ℕ) : Prop :=
  match c with
  | .addProcess name argv readFd writeFd priority _ =>
    ∃ proc t, makeProcess interrupt name argv readFd writeFd priority s = .ok proc t ∧
      (Allocator.malloc t.heap sizeofNode).2 = newNode
  | _ => False

/-- The step lets `scheduler` pick a process. -/
def Call.picks : Call → Bool
  | .schedule _ => true
  | .finishScheduler => true
  | _ => false

/-! ## What a step can lead to -/

variable {T : ℕ → Prop} {fg bg : ℕ} {g k : Entry → Entry} {c : Call} {I : Kernel H → Prop}

/-- A ring on which nothing is held by a call. -/
structure Base (s : Kernel H) (ring : List Entry) : Prop where
  shows : Shows s ring
  pipes : Unopened s
  pidc : MutexFree s.semaphores PIDC_MUTEX.bytes
  proc : MutexFree s.semaphores PROC_MUTEX.bytes
  enabled : s.disableCount = 0

theorem Base.congr (h : Base s ring) (hshows : Shows s' ring') (hpipes : s'.pipes = s.pipes)
    (hsem : s'.semaphores = s.semaphores) (hdis : s'.disableCount = s.disableCount) :
    Base s' ring' where
  shows := hshows
  pipes := by
    unfold Unopened
    rw [hpipes]
    exact h.pipes
  pidc := hsem ▸ h.pidc
  proc := hsem ▸ h.proc
  enabled := hdis.trans h.enabled

/-- The entries have been changed, and `foreground` and `background` are these. -/
structure Quiet (T : ℕ → Prop) (fg bg : ℕ) (s s' : Kernel H) (ring : List Entry)
    (g : Entry → Entry) : Prop where
  shape : KeepsShape g
  shows : Shows s' (ring.map g)
  changed : ∀ x ∈ ring, Changed T x.proc (g x).proc
  heap : s'.heap = s.heap
  globals : s'.toGlobals =
    { s.toGlobals with
      blockCount := s'.blockCount
      forceYield := s'.forceYield
      foreground := fg
      background := bg }

/-- The process on `v` has left the ring: the current process is `e`, and `p` is found to be its
parent. -/
inductive Leaves (s s' : Kernel H) (ring : List Entry) (v : Entry) : List Entry → Prop
  | intro {e p w : Entry} {l : List Entry} {g : Entry → Entry} (he : e ∈ ring)
    (hcur : e.node = s.currentNode) (hp : p ∈ ring) (hpid : p.proc.pid = e.proc.ppid)
    (hfound : p.node = s.nodeOf e.proc.ppid) (hr : ring.IsRotated (v :: w :: l))
    (h : Removed s s' p v w l g) : Leaves s s' ring v ((g w).into (g v) :: l.map g)

/-- The process `p` on `newNode` has joined the ring behind the current one, `e`. Without memory for
the node it has not. -/
structure Joins (s s' : Kernel H) (e : Entry) (l : List Entry) (p : Process)
    (proc newNode : ℕ) (args : List ℕ) (isForeground : ℕ) (ring' : List Entry) : Prop where
  shows : Shows s' ring'
  entries : ring' =
    if newNode = 0 then e.bear :: l else e.bear :: newEntry p proc newNode args :: l
  pid : p.pid = s.pidc
  ppid : p.ppid = e.proc.pid
  state : p.state = .new
  children : p.children = 0
  waits : p.blockedByChildren = 0
  globals : s'.toGlobals = ({ s.toGlobals with
    pidc := incr64 s.pidc
    counter := incr64 s.counter } : Globals).promote isForeground newNode

/-- What `scheduler` makes of the entry that it has picked. -/
def picked (x y : Entry) : Entry :=
  (y.edit x.procAddr Process.enter).charge x.node x.proc.priority

/-- `scheduler` has gone to `x`. -/
structure Picks (s s' : Kernel H) (ring : List Entry) (x : Entry) : Prop where
  mem : x ∈ ring
  ready : x.isReady = true
  shows : Shows s' (ring.map (picked x))
  globals : s'.toGlobals = { s.toGlobals with currentNode := x.node }
  heap : s'.heap = s.heap

/-- No process has been removed, for there is none to remove or the current process has no
parent. -/
def Call.Spares (c : Call) (s : Kernel H) : Prop :=
  c.victim s = 0 ∨ ∀ p, s.procOf s.currentNode = some p → s.nodeOf p.ppid = 0

instance sparesDecidable (s : Kernel H) (c : Call) : Decidable (c.Spares s) :=
  inferInstanceAs (Decidable (_ ∨ ∀ p ∈ s.procOf s.currentNode, s.nodeOf p.ppid = 0))

/-- The current process does not run on, or is one that the step stops. -/
def Settled (T : ℕ → Prop) (s : Kernel H) (ring : List Entry) : Prop :=
  ∀ x ∈ ring, x.node = s.currentNode → x.proc.state ≠ .running ∨ T x.proc.pid

/-- The states in which a step calls `find_next_ready` with `start`. -/
inductive Searches (c : Call) (s : Kernel H) (ring : List Entry) (start : ℕ) (t : Kernel H) :
    List Entry → Prop
  | left {g : Entry → Entry} (hspares : c.Spares s)
    (h : Quiet (c.Stops s) (c.grounds s).1 (c.grounds s).2 s t ring g)
    (hsettled : Settled (c.Stops s) t (ring.map g)) (hcur : s.currentNode ∈ ring.map Entry.node)
    (hstart : start ∈ ring.map Entry.node) : Searches c s ring start t (ring.map g)
  | replaced {u : Kernel H} {g : Entry → Entry} {v : Entry} {ring' : List Entry}
    (h : Quiet (c.Stops s) (c.grounds s).1 (c.grounds s).2 s u ring g)
    (hsettled : Settled (c.Stops s) u (ring.map g)) (hcur : s.currentNode ∈ ring.map Entry.node)
    (hstart : start = s.currentNode) (hv : v ∈ ring) (hvictim : v.node = c.victim s)
    (hleaves : Leaves u t (ring.map g) (g v) ring') : Searches c s ring start t ring'

/-- The states that a step can lead to. -/
inductive Outcome (c : Call) (s : Kernel H) (ring : List Entry) (s' : Kernel H) : List Entry → Prop
  | stay {g : Entry → Entry} (hspares : c.Spares s)
    (h : Quiet (c.Stops s) (c.grounds s).1 (c.grounds s).2 s s' ring g) :
    Outcome c s ring s' (ring.map g)
  | removed {t : Kernel H} {g : Entry → Entry} {v : Entry} {ring' : List Entry}
    (h : Quiet (c.Stops s) (c.grounds s).1 (c.grounds s).2 s t ring g) (hv : v ∈ ring)
    (hvictim : v.node = c.victim s) (hleaves : Leaves t s' (ring.map g) (g v) ring') :
    Outcome c s ring s' ring'
  | joined {e : Entry} {l : List Entry} {p : Process} {proc newNode isForeground : ℕ}
    {args : List ℕ} {ring' : List Entry} (hspares : c.Spares s) (hr : ring.IsRotated (e :: l))
    (hcur : e.node = s.currentNode) (h : Joins s s' e l p proc newNode args isForeground ring')
    (hmakes : c.Makes s newNode) : Outcome c s ring s' ring'
  | searched {start : ℕ} {t : Kernel H} {x : Entry} {ring' : List Entry}
    (hc : c.picks = true) (h : Searches c s ring start t ring') (hpicks : Picks t s' ring' x) :
    Outcome c s ring s' (ring'.map (picked x))

/-! ## The ring after each of these -/

theorem Tweak.quiet (h : Tweak T s s' ring g) : Quiet T s.foreground s.background s s' ring g where
  shape := h.shape
  shows := h.shows
  changed := h.changed
  heap := h.heap
  globals := by
    rw [h.globals]

theorem Tweak.handOver (h : Tweak T s t ring g) (fg bg : ℕ) :
    Quiet T fg bg s { t with foreground := fg, background := bg } ring g where
  shape := h.shape
  shows := h.shows.congr rfl rfl
  changed := h.changed
  heap := h.heap
  globals := by
    show ({ t.toGlobals with foreground := fg, background := bg } : Globals) = _
    rw [h.globals]

theorem Quiet.tweak (h : Quiet T fg bg s t ring g) (h' : Tweak T t s' (ring.map g) k) :
    Quiet T fg bg s s' ring fun x => k (g x) where
  shape := h'.shape.comp h.shape
  shows := by
    have hshows := h'.shows
    rwa [List.map_map] at hshows
  changed x hx := (h.changed x hx).trans (h'.changed (g x) (List.mem_map_of_mem hx))
  heap := h'.heap.trans h.heap
  globals := by rw [h'.globals, h.globals]

theorem Quiet.base (h : Quiet T fg bg s s' ring g) (hb : Base s ring) : Base s' (ring.map g) :=
  hb.congr h.shows (by rw [h.globals]) (by rw [h.globals]) (by rw [h.globals])

theorem Leaves.shows (h : Leaves s s' ring v ring') : Shows s' ring' := by
  obtain ⟨-, -, -, -, -, -, h⟩ := h
  exact h.shows

theorem Leaves.globals (h : Leaves s s' ring v ring') : ∃ first, s'.toGlobals =
    { s.toGlobals with
      counter := decr64 s.counter
      blockCount := s'.blockCount
      first := first } := by
  obtain ⟨-, -, -, -, -, -, h⟩ := h
  exact ⟨_, h.globals⟩

theorem Leaves.currentNode (h : Leaves s s' ring v ring') : s'.currentNode = s.currentNode := by
  obtain ⟨first, hglob⟩ := h.globals
  rw [hglob]

theorem Leaves.base (h : Leaves s s' ring v ring') (hb : Base s ring) : Base s' ring' := by
  obtain ⟨first, hglob⟩ := h.globals
  exact hb.congr h.shows (by rw [hglob]) (by rw [hglob]) (by rw [hglob])

/-- An entry is still there after `v` has left the ring. It may have moved into the node of `v`, and
then its own node is gone. -/
structure Survives (v : Entry) (ring' : List Entry) (y x : Entry) : Prop where
  mem : x ∈ ring'
  procAddr : x.procAddr = y.procAddr
  pid : x.proc.pid = y.proc.pid
  ppid : x.proc.ppid = y.proc.ppid
  state : x.proc.state = y.proc.state ∨ x.proc.state = .ready
  node : x.node = y.node ∨ x.node = v.node ∧ y.node ∉ ring'.map Entry.node

theorem losesChild_state {p : Entry} (h : LosesChild p ring g) (y : Entry) :
    (g y).proc.state = y.proc.state ∨ (g y).proc.state = .ready := by
  have hlose : (y.edit p.procAddr Process.lose).proc.state = y.proc.state :=
    edit_field Process.state (f := Process.lose) (fun _ => rfl) _ y
  cases h with
  | more _ => exact Or.inl hlose
  | @last x _ _ _ =>
    dsimp only
    by_cases hyx : (y.edit p.procAddr Process.lose).procAddr = x.procAddr
    · rw [← hyx, edit_self]
      exact Or.inr rfl
    · rw [edit_of_ne _ hyx]
      exact Or.inl hlose

/-- The entries after `v` has left are those before it. -/
theorem Leaves.survives (h : Leaves s s' ring v ring') (hs : Shows s ring) :
    (∀ x ∈ ring', ∃ y ∈ ring, y ≠ v ∧ Survives v ring' y x) ∧
      ∀ y ∈ ring, y ≠ v → ∃ x, Survives v ring' y x := by
  obtain ⟨-, -, hp, -, -, hr, h⟩ := h
  next e p w l g =>
  have hshape := h.loses.shape
  have hnodup := (hs.rotated hr).nodes_nodup
  simp only [List.map_cons, List.nodup_cons, List.mem_cons, not_or] at hnodup
  obtain ⟨⟨hvw, hvl⟩, hwl, -⟩ := hnodup
  have hnodes : ((g w).into (g v) :: l.map g).map Entry.node = v.node :: l.map Entry.node := by
    rw [List.map_cons, keepsShape_nodes hshape, Entry.into, hshape.node]
  have hpid := h.loses.field Process.pid (fun _ => rfl) fun _ => rfl
  have hppid := h.loses.field Process.ppid (fun _ => rfl) fun _ => rfl
  -- the next entry has moved, the others are where they were
  have hmoved : Survives v ((g w).into (g v) :: l.map g) w ((g w).into (g v)) :=
    ⟨by simp, hshape.procAddr w, hpid w, hppid w, losesChild_state h.loses w,
      Or.inr ⟨hshape.node v, by
      rw [hnodes]
      simp [Ne.symm hvw, hwl]⟩⟩
  have hstayed : ∀ y ∈ l, Survives v ((g w).into (g v) :: l.map g) y (g y) := fun y hy =>
    ⟨List.mem_cons_of_mem _ (List.mem_map_of_mem hy), hshape.procAddr y, hpid y, hppid y,
      losesChild_state h.loses y, Or.inl (hshape.node y)⟩
  constructor
  · intro x hx
    rcases List.mem_cons.mp hx with rfl | hx
    · exact ⟨w, hr.mem_iff.mpr (by simp), fun heq => hvw (heq ▸ rfl), hmoved⟩
    · obtain ⟨y, hy, rfl⟩ := List.mem_map.mp hx
      exact ⟨y, hr.mem_iff.mpr (by simp [hy]), fun heq => hvl (heq ▸ List.mem_map_of_mem hy),
        hstayed y hy⟩
  · intro y hy hne
    rcases List.mem_cons.mp (hr.mem_iff.mp hy) with rfl | hy
    · exact absurd rfl hne
    · rcases List.mem_cons.mp hy with rfl | hy
      · exact ⟨_, hmoved⟩
      · exact ⟨_, hstayed y hy⟩

/-- The nodes that are left were there before. -/
theorem Leaves.nodes (h : Leaves s s' ring v ring') {a : ℕ} (ha : a ∈ ring'.map Entry.node) :
    a ∈ ring.map Entry.node := by
  obtain ⟨-, -, -, -, -, hr, h⟩ := h
  rw [List.map_cons, keepsShape_nodes h.loses.shape, Entry.into, h.loses.shape.node] at ha
  rw [(hr.map Entry.node).mem_iff]
  simp only [List.map_cons, List.mem_cons] at ha ⊢
  tauto

/-- The node of the process that has left is still there. -/
theorem Leaves.node_mem (h : Leaves s s' ring v ring') : v.node ∈ ring'.map Entry.node := by
  obtain ⟨-, -, -, -, -, -, h⟩ := h
  rw [List.map_cons, Entry.into, h.loses.shape.node]
  exact List.mem_cons_self

theorem Joins.mem_iff {p : Process} {proc newNode isForeground : ℕ} {args : List ℕ}
    (h : Joins s s' e l p proc newNode args isForeground ring') :
    x ∈ ring' ↔ newNode ≠ 0 ∧ x = newEntry p proc newNode args ∨ x = e.bear ∨ x ∈ l := by
  rw [h.entries]
  split_ifs with h0
  · simp [h0]
  · simp only [List.mem_cons]
    tauto

theorem Joins.currentNode {p : Process} {proc newNode isForeground : ℕ} {args : List ℕ}
    (h : Joins s s' e l p proc newNode args isForeground ring') :
    s'.currentNode = s.currentNode := by
  rw [h.globals, Globals.promote]
  split_ifs <;> rfl

omit [Allocator H] in
theorem keepsShape_picked (x : Entry) : KeepsShape (picked x) :=
  (keepsShape_charge x.node x.proc.priority).comp (keepsShape_edit (f := Process.enter)
    (fun _ => ⟨rfl, rfl⟩) x.procAddr)

omit [Allocator H] in
theorem picked_proc (x y : Entry) :
    (picked x y).proc = if y.procAddr = x.procAddr then y.proc.enter else y.proc := by
  rw [picked, charge_proc, Entry.edit]
  split_ifs <;> rfl

omit [Allocator H] in
theorem picked_pid (x y : Entry) : (picked x y).proc.pid = y.proc.pid := by
  rw [picked_proc]
  split_ifs <;> rfl

theorem Joins.base {p : Process} {proc newNode isForeground : ℕ} {args : List ℕ}
    (h : Joins s s' e l p proc newNode args isForeground ring') (hb : Base s ring) :
    Base s' ring' := by
  refine hb.congr h.shows ?_ ?_ ?_ <;>
  · rw [h.globals, Globals.promote]
    split_ifs <;> rfl

theorem Picks.base (h : Picks s s' ring x) (hb : Base s ring) : Base s' (ring.map (picked x)) :=
  hb.congr h.shows (by rw [h.globals]) (by rw [h.globals]) (by rw [h.globals])

theorem Searches.base {start : ℕ} (h : Searches c s ring start t ring') (hb : Base s ring) :
    Base t ring' := by
  cases h with
  | left _ h _ _ _ => exact h.base hb
  | replaced h _ _ _ _ _ hleaves => exact hleaves.base (h.base hb)

theorem Outcome.base (h : Outcome c s ring s' ring') (hb : Base s ring) : Base s' ring' := by
  cases h with
  | stay _ h => exact h.base hb
  | removed h _ _ hleaves => exact hleaves.base (h.base hb)
  | joined _ _ _ h _ => exact h.base hb
  | searched _ h hpicks => exact hpicks.base (h.base hb)

/-- Assignments do not change what `find_node` finds. -/
theorem Quiet.nodeOf (h : Quiet T fg bg s s' ring g) (hs : Shows s ring) (pid : ℕ) :
    s'.nodeOf pid = s.nodeOf pid := by
  have hfirst : s'.first = s.first := by rw [h.globals]
  by_cases hin : s.first ∈ ring.map Entry.node
  · obtain ⟨e, he, hef⟩ := List.mem_map.mp hin
    obtain ⟨l, hr⟩ := exists_isRotated_cons he
    have hs' : Shows s' (g e :: l.map g) := h.shows.rotated (hr.map g)
    rw [(hs.rotated hr).nodeOf hef pid,
      hs'.nodeOf ((h.shape.node e).trans (hef.trans hfirst.symm)) pid]
    rw [← List.map_cons, List.find?_map, Option.map_map]
    have hpids : ∀ x ∈ e :: l, (decide ((g x).proc.pid = pid)) = decide (x.proc.pid = pid) :=
      fun x hx => by rw [(h.changed x (hr.mem_iff.mpr hx)).pid]
    have hfind : (e :: l).find? ((fun x => decide (x.proc.pid = pid)) ∘ g) =
        (e :: l).find? fun x => decide (x.proc.pid = pid) :=
      List.find?_congr hpids
    rw [hfind]
    congr 2
    funext x
    exact h.shape.node x
  · rw [hs.nodeOf_lost hin, h.shows.nodeOf_lost]
    rwa [keepsShape_nodes h.shape, hfirst]

/-- Where a process leaves, the current one has its parent in the ring. -/
theorem Quiet.not_spares (hq : Quiet T fg bg s t ring g) (hs : Shows s ring) (hv : v ∈ ring)
    (hvictim : v.node = c.victim s) (hl : Leaves t s' (ring.map g) (g v) ring') : ¬ c.Spares s := by
  obtain ⟨he, hcur, hp, -, hfound, -, -⟩ := hl
  next e p w l k =>
  rintro (h0 | hnone)
  · exact hs.node_ne_zero hv (hvictim.trans h0)
  · obtain ⟨y, hy, rfl⟩ := List.mem_map.mp he
    rw [hq.shape.node, hq.globals] at hcur
    refine hq.shows.node_ne_zero hp (hfound.trans ?_)
    rw [hq.nodeOf hs, (hq.changed y hy).ppid]
    exact hnone y.proc (hcur ▸ hs.procOf hy)

/-- A step stops its victim. -/
theorem Call.stops_victim (hs : Shows s ring) (hv : v ∈ ring) (h : v.node = c.victim s) :
    c.Stops s v.proc.pid := by
  have hne := hs.node_ne_zero hv
  cases c with
  | schedule sp =>
    rw [Call.victim] at h
    split_ifs at h with hexits
    · refine ⟨hexits.1, ?_⟩
      rw [← h, hs.pidOf hv]
    · exact absurd h hne
  | finishScheduler => exact hs.nodeOf_pid hv h
  | killProcess pid =>
    rw [Call.victim] at h
    split_ifs at h
    · exact absurd h hne
    · exact hs.nodeOf_pid hv h
  | killOther pid => exact hs.nodeOf_pid hv h
  | killForegroundProc =>
    rw [Call.victim] at h
    split_ifs at h with hnone
    · exact absurd h hne
    · exact ⟨fun h0 => hnone (Or.inl h0), hs.nodeOf_pid hv h⟩
  | _ => exact absurd h hne

/-! ## `kill_process` and `kill_foreground_proc` -/

variable {E : Stop → Kernel H → Prop}

/-- The current process of a ring is one of its entries. -/
theorem Quiet.procOf_current (h : Quiet T fg bg s t ring g) (hs : Shows s ring) {q : Process}
    (hq : s.procOf s.currentNode = some q) :
    ∃ e ∈ ring, e.node = s.currentNode ∧ e.proc = q ∧ (g e).node = t.currentNode := by
  obtain ⟨e, he, hcur, hproc⟩ := hs.mem_of_procOf hq
  refine ⟨e, he, hcur, hproc, ?_⟩
  rw [h.shape.node, hcur, h.globals]

/-- `destroy_node` for an entry of the ring. -/
theorem Quiet.ends_destroyNode {Q : Unit → Kernel H → Prop} (hE : Lenient E)
    (h : Quiet T fg bg s t ring g) (hb : Base s ring) (hv : v ∈ ring)
    (horphan : (∀ q, s.procOf s.currentNode = some q → s.nodeOf q.ppid = 0) → Q () t)
    (hleaves : ∀ s' ring', Leaves t s' (ring.map g) (g v) ring' → Q () s') :
    Ends Q E (destroyNode interrupt v.node) t := by
  have hbt := h.base hb
  have hdis : t.disableCount < 2 ^ 31 - 1 := by
    rw [hbt.enabled]
    omega
  rw [← h.shape.node v]
  refine Sched.ends_destroyNode hE interrupt h.shows hbt.pipes hbt.proc hdis
    (List.mem_map_of_mem hv) (fun e he hcur _ hnot => horphan fun q hq => ?_)
    fun e he hcur p hp hpid hfound w l hr s' k hremoved =>
      hleaves s' _ (.intro he hcur hp hpid hfound hr hremoved)
  obtain ⟨e', he', -, rfl, hcur'⟩ := h.procOf_current hb.shows hq
  obtain rfl := h.shows.node_inj he (List.mem_map_of_mem he') (hcur.trans hcur'.symm)
  rw [h.nodeOf hb.shows, (h.changed e' he').ppid] at hnot
  exact hnot

/-- The rest of `kill_process`, where assignments have been made before. -/
theorem Quiet.ends_killOther {Q : ℕ → Kernel H → Prop} (hE : Lenient E)
    (h : Quiet T fg bg s t ring g) (hb : Base s ring) {pid : ℕ} (hT : T pid)
    (habsent : s.nodeOf pid = 0 → Q failed t)
    (horphan : ∀ u k, Quiet T fg bg s u ring k →
      (∀ q, s.procOf s.currentNode = some q → s.nodeOf q.ppid = 0) → Q pid u)
    (hleaves : ∀ u k, Quiet T fg bg s u ring k → ∀ v ∈ ring, v.proc.pid = pid →
      v.node = s.nodeOf pid → ∀ s' ring', Leaves u s' (ring.map k) (k v) ring' → Q pid s') :
    Ends Q E (Sched.killOther interrupt pid) t := by
  rw [Sched.killOther, ends_bind]
  refine ends_findNode_ring hE h.shows (fun _ _ hnot => ?_) fun _ x hx hpid hfound => ?_
  · rw [if_pos rfl]
    exact habsent ((h.nodeOf hb.shows pid).symm.trans hnot)
  · rw [if_neg (h.shows.node_ne_zero hx), ← bind_assoc, ends_bind]
    obtain ⟨v, hv, rfl⟩ := List.mem_map.mp hx
    have hmark :=
      h.tweak (Tweak.edit (T := T) h.shows hx (f := fun p => { p with state := .killed })
      (fun _ => ⟨rfl, rfl⟩)
      ⟨rfl, rfl, rfl, rfl, Or.inr (Or.inr ⟨hpid ▸ hT, Or.inr rfl⟩), Or.inl rfl⟩)
    refine h.shows.ends_editAt hx ?_
    have hv' := List.mem_map_of_mem (f := fun x => Entry.edit (g v).procAddr
      (fun p => { p with state := .killed }) (g x)) hv
    have hnode := hmark.shows.nodeAt hv'
    have hproc := hmark.shows.procAt hv'
    rw [edit_node, edit_procAddr] at hnode
    rw [edit_procAddr] at hproc
    rw [ends_bind]
    refine ends_of_ok hnode ?_
    rw [ends_bind]
    refine ends_of_ok hproc ?_
    have hsame :
        ((g v).edit (g v).procAddr fun p => { p with state := .killed }).proc.pid = pid := by
      rw [edit_self]
      exact hpid
    rw [hsame, ends_bind, h.shape.node]
    rw [h.shape.node] at hfound
    refine hmark.ends_destroyNode hE hb hv (fun hspared => ?_) fun s' ring' hl => ?_
    · exact horphan _ _ hmark hspared
    · rw [(h.changed v hv).pid] at hpid
      exact hleaves _ _ hmark v hv hpid (hfound.trans (h.nodeOf hb.shows pid)) s' ring' hl

/-- The current process is read. -/
theorem Quiet.ends_current {α : Type} {Q : α → Kernel H → Prop} (hE : Lenient E)
    (h : Quiet T fg bg s t ring g) {m : Process → Op H α}
    (hQ : ∀ e ∈ ring, e.node = s.currentNode → Ends Q E (m (g e).proc) t) :
    Ends Q E (do m (← procAt (← currentProc)) : Op H α) t := by
  refine h.shows.ends_current hE fun x hx hcur => ?_
  obtain ⟨e, he, rfl⟩ := List.mem_map.mp hx
  rw [h.shape.node, h.globals] at hcur
  exact hQ e he hcur

theorem Quiet.ends_killCurrentProcess {Q : Unit → Kernel H → Prop} (hE : Lenient E)
    (h : Quiet T fg bg s t ring g) (hT : ∀ e ∈ ring, e.node = s.currentNode → T e.proc.pid)
    (hstop : ∀ u k, Quiet T fg bg s u ring k → E .switched u) :
    Ends Q E (Sched.killCurrentProcess interrupt) t := by
  rw [Sched.killCurrentProcess, ends_bind]
  refine ends_currentProc_ring hE h.shows fun x hx hcur => ?_
  obtain ⟨e, he, rfl⟩ := List.mem_map.mp hx
  rw [h.shape.node, h.globals] at hcur
  have hpid := (h.changed e he).pid
  rw [ends_bind]
  refine h.shows.ends_editProc hx ?_
  exact hstop _ _ (h.tweak (Tweak.edit (T := T) h.shows hx
    (f := fun p => { p with state := .killed }) (fun _ => ⟨rfl, rfl⟩)
    ⟨rfl, rfl, rfl, rfl, Or.inr (Or.inr ⟨hpid ▸ hT e he hcur, Or.inr rfl⟩), Or.inl rfl⟩))

/-- `kill_process` stops at the current process, or goes on to `killOther`. -/
theorem Quiet.ends_killProcess {Q : ℕ → Kernel H → Prop} (hE : Lenient E)
    (h : Quiet T fg bg s t ring g) (hb : Base s ring) {pid : ℕ} (hT : T pid)
    (hself : s.pidOf s.currentNode = pid → ∀ u k, Quiet T fg bg s u ring k → E .switched u)
    (hother : s.pidOf s.currentNode ≠ pid → Ends Q E (Sched.killOther interrupt pid) t) :
    Ends Q E (Sched.killProcess interrupt pid) t := by
  rw [Sched.killProcess, ends_bind, killIfCurrent]
  refine h.ends_current hE fun e he hcur => ?_
  have hpid : s.pidOf s.currentNode = (g e).proc.pid := by
    rw [← hcur, hb.shows.pidOf he, (h.changed e he).pid]
  split_ifs with heq
  · refine h.ends_killCurrentProcess hE (fun e' he' hcur' => ?_) (hself (hpid.trans heq))
    obtain rfl := hb.shows.node_inj he' he (hcur'.trans hcur.symm)
    rw [← (h.changed e' he).pid, heq]
    exact hT
  · exact hother fun hsame => heq (hpid.symm.trans hsame)

theorem Quiet.setForeground (h : Quiet T fg bg s t ring g) (a : ℕ) :
    Quiet T a bg s { t with foreground := a } ring g where
  shape := h.shape
  shows := h.shows.congr rfl rfl
  changed := h.changed
  heap := h.heap
  globals := by
    show ({ t.toGlobals with foreground := a } : Globals) = _
    rw [h.globals]

theorem Quiet.setBackground (h : Quiet T fg bg s t ring g) (a : ℕ) :
    Quiet T fg a s { t with background := a } ring g where
  shape := h.shape
  shows := h.shows.congr rfl rfl
  changed := h.changed
  heap := h.heap
  globals := by
    show ({ t.toGlobals with background := a } : Globals) = _
    rw [h.globals]

/-- `foreground->proc` is NULL's or that of an entry. -/
theorem ends_foregroundProc_ring {Q : ℕ → Kernel H → Prop} (hE : Lenient E) (h : Shows s ring)
    (hnull : s.foreground = 0 → Q 0 s) (hQ : ∀ x ∈ ring, x.node = s.foreground → Q x.procAddr s) :
    Ends Q E foregroundProc s := by
  rw [foregroundProc, ends_bind, ends_get]
  split_ifs with h0
  · exact hnull h0
  · rw [ends_bind, ends_get, ends_bind]
    refine ends_nodeAt hE fun n hn => ?_
    obtain ⟨x, hx, hxf, rfl⟩ := h.node_of_some hn
    exact hQ x hx hxf

/-- An assignment to the process in the foreground, which is not NULL. -/
theorem Quiet.ends_editForeground {Q : Unit → Kernel H → Prop} (hE : Lenient E)
    (h : Quiet T fg bg s t ring g) (h0 : fg ≠ 0) {f : Process → Process} (hblocks : KeepsBlocks f)
    (hf : ∀ p, Changed T p (f p)) (hQ : ∀ u k, Quiet T fg bg s u ring k → Q () u) :
    Ends Q E (do editProc (← foregroundProc) f) t := by
  have hfg : t.foreground = fg := by rw [h.globals]
  rw [ends_bind]
  refine ends_foregroundProc_ring hE h.shows (fun hnull => absurd (hfg.symm.trans hnull) h0)
    fun x hx _ => ?_
  exact h.shows.ends_editProc hx (hQ _ _ (h.tweak (Tweak.edit h.shows hx hblocks (hf x.proc))))

/-- `kill_foreground_proc` hands over to the background, and kills. -/
theorem Tweak.ends_killForegroundProc {Q : Unit → Kernel H → Prop} (hE : Lenient E)
    (h : Tweak T s t ring g) (hb : Base s ring) (hT : s.background ≠ 0 → T (s.pidOf s.foreground))
    (hnone : s.background = 0 → Q () t)
    (hself : s.background ≠ 0 → s.pidOf s.currentNode = s.pidOf s.foreground →
      ∀ u k, Quiet T s.background 0 s u ring k → E .switched u)
    (hother : s.background ≠ 0 → s.pidOf s.currentNode ≠ s.pidOf s.foreground →
      ∀ u k, Quiet T s.background 0 s u ring k →
        Ends (fun _ => Q ()) E (Sched.killOther interrupt (s.pidOf s.foreground)) u) :
    Ends Q E (Sched.killForegroundProc interrupt) t := by
  have hbg : t.background = s.background := by rw [h.globals]
  have hfg : t.foreground = s.foreground := by rw [h.globals]
  rw [Sched.killForegroundProc, ends_bind, ends_get]
  split_ifs with h0
  swap
  · exact hnone (hbg ▸ not_not.mp h0)
  rw [ends_bind, ends_get, ends_bind, ends_modify, ends_bind, readyForegroundProc]
  refine (h.quiet.setForeground t.background).ends_editForeground hE h0
    (f := fun p => { p with state := if p.state = .blocked then .ready else p.state })
    (fun _ => ⟨rfl, rfl⟩) (fun p => ⟨rfl, rfl, rfl, rfl, ?_, Or.inl rfl⟩) fun u₁ k₁ h₁ => ?_
  · dsimp only
    split_ifs
    · exact Or.inr (Or.inl rfl)
    · exact Or.inl rfl
  rw [← bind_assoc, ends_bind]
  refine h₁.ends_editForeground hE h0 (f := fun p => { p with readFd := 0 })
    (fun _ => ⟨rfl, rfl⟩) (fun p => ⟨rfl, rfl, rfl, rfl, Or.inl rfl, Or.inl rfl⟩) fun u₂ k₂ h₂ => ?_
  have h₃ := h₂.setBackground 0
  rw [hbg] at h0 h₃
  rw [ends_bind, ends_modify, ends_bind]
  refine ends_nodeAt hE fun n hn => ?_
  obtain ⟨x, hx, hxf, rfl⟩ := h₃.shows.node_of_some hn
  obtain ⟨e, he, rfl⟩ := List.mem_map.mp hx
  rw [ends_bind]
  refine ends_of_ok (h₃.shows.procAt hx) ?_
  rw [h₃.shape.node, hfg] at hxf
  have hpid : (k₂ e).proc.pid = s.pidOf s.foreground := by
    rw [(h₃.changed e he).pid, ← hxf, hb.shows.pidOf he]
  rw [hpid, ends_bind]
  exact h₃.ends_killProcess hE hb (hT h0) (fun hsame => hself h0 hsame)
    fun hne => hother h0 hne _ _ h₃

/-! ## `scheduler` -/

theorem foreground_eq_currentNode (h : Shows s ring) (he : e ∈ ring) (hcur : e.node = s.currentNode)
    (hsame : s.current = s.ground s.foreground) : s.foreground = s.currentNode := by
  have hne := h.procAddr_ne_zero he
  rw [h.current he hcur, Kernel.ground] at hsame
  split_ifs at hsame with h0
  · exact absurd hsame hne
  · cases hn : s.node? s.foreground with
    | none =>
      rw [hn] at hsame
      exact absurd hsame hne
    | some n =>
      obtain ⟨x, hx, hfg, rfl⟩ := h.node_of_some hn
      rw [hn] at hsame
      obtain rfl := h.procAddr_inj he hx hsame
      exact hfg.symm.trans hcur

theorem settled_of_stops (h : Quiet T fg bg s t ring g) (hT : T (s.pidOf s.currentNode))
    (hs : Shows s ring) : Settled T t (ring.map g) := by
  intro x hx hcur
  obtain ⟨e, he, rfl⟩ := List.mem_map.mp hx
  rw [h.shape.node, h.globals] at hcur
  refine Or.inr ?_
  rw [(h.changed e he).pid, ← hs.pidOf he, hcur]
  exact hT

/-- A process that has not been killed goes on, or is left with its node behind it. -/
theorem Tweak.ends_switchUpTo {Q : ℕ ⊕ ℕ → Kernel H → Prop} (hE : Lenient E)
    (h : Tweak T s t ring g) (hstay : ∀ v, Q (.inl v) t)
    (hleave : ∀ u k, Tweak T s u ring k → Settled T u (ring.map k) →
      ∀ start ∈ ring.map Entry.node, Q (.inr start) u) : Ends Q E switchUpTo t := by
  rw [switchUpTo, ends_bind, ends_get, ends_bind]
  refine ends_nodeAt hE fun n hn => ?_
  obtain ⟨x, hx, hcur, rfl⟩ := h.shows.node_of_some hn
  rw [ends_bind]
  refine ends_of_ok (h.shows.procAt hx) ?_
  have hnext : t.next t.currentNode ∈ ring.map Entry.node := by
    have hmem := h.shows.isRing.next_mem (List.mem_map_of_mem (f := Entry.node) hx)
    rwa [hcur, keepsShape_nodes h.shape] at hmem
  split_ifs with hblocked
  · refine hleave t g h (fun y hy hycur => Or.inl ?_) _ hnext
    obtain rfl := h.shows.node_inj hy hx (hycur.trans hcur.symm)
    simp [hblocked]
  · rw [ends_bind, ends_get]
    split_ifs
    · have hcount := h.counters t.blockCount 0
      rw [ends_bind, ends_modify, ends_bind]
      refine hcount.shows.ends_editProc hx ?_
      have hedit := Tweak.edit (T := T) hcount.shows hx (f := fun p => { p with state := .ready })
        (fun _ => ⟨rfl, rfl⟩) ⟨rfl, rfl, rfl, rfl, Or.inr (Or.inl rfl), Or.inl rfl⟩
      refine hleave _ _ (hcount.trans hedit) (fun y hy hycur => Or.inl ?_) _ hnext
      obtain ⟨z, hz, rfl⟩ := List.mem_map.mp hy
      rw [edit_node] at hycur
      obtain rfl := h.shows.node_inj (List.mem_map_of_mem hz) hx (hycur.trans hcur.symm)
      simp
    · rw [ends_bind]
      refine ends_currentProc hE fun _ _ => ?_
      rw [ends_bind]
      exact ends_procAt hE fun p _ => hstay p.sp

/-- What `schedulerUpTo` and `finishKill` lead to. -/
def UpTo (c : Call) (s : Kernel H) (ring : List Entry) : ℕ ⊕ ℕ → Kernel H → Prop
  | .inl _, t => ∃ g, c.Spares s ∧ Quiet (c.Stops s) (c.grounds s).1 (c.grounds s).2 s t ring g
  | .inr start, t => ∃ ring', Searches c s ring start t ring'

/-- Where `scheduler` is cut, `kill_foreground_proc` has killed the current process. -/
def Cut (c : Call) (s : Kernel H) (ring : List Entry) (t : Kernel H) : Prop :=
  ∃ g, c.Spares s ∧ Quiet (c.Stops s) (c.grounds s).1 (c.grounds s).2 s t ring g

theorem ends_schedulerUpTo (hb : Base s ring) {sp : ℕ} :
    Ends (UpTo (.schedule sp) s ring) (WhenSwitched (Cut (.schedule sp) s ring))
      (schedulerUpTo interrupt sp) s := by
  have hE : Lenient (WhenSwitched (Cut (.schedule sp) s ring)) := lenient_whenSwitched _
  set c : Call := .schedule sp with hc
  -- nobody is killed
  have halive : ¬ s.Exits → c.Spares s ∧ c.grounds s = (s.foreground, s.background) := fun hx =>
    ⟨Or.inl (if_neg fun h => hx h.1), if_neg fun h => hx h.1⟩
  have hstay : ∀ t g, ¬ s.Exits → Tweak (c.Stops s) s t ring g →
      c.Spares s ∧ Quiet (c.Stops s) (c.grounds s).1 (c.grounds s).2 s t ring g :=
      fun t g hx h => by
    rw [(halive hx).2]
    exact ⟨(halive hx).1, h.quiet⟩
  rw [schedulerUpTo, ends_bind, ends_get, if_neg (by simp [hb.enabled]), ends_bind, ends_get]
  split_ifs with hone
  · exact ⟨id, hstay s id (fun hx => hx.2.1 hone) (Tweak.refl _ hb.shows)⟩
  rw [ends_bind]
  refine ends_currentProc_ring hE hb.shows fun e he hcur => ?_
  rw [ends_bind]
  refine hb.shows.ends_editProc he ?_
  have hsaved := Tweak.edit (T := c.Stops s) hb.shows he (f := fun p => { p with sp := sp })
    (fun _ => ⟨rfl, rfl⟩) ⟨rfl, rfl, rfl, rfl, Or.inl rfl, Or.inl rfl⟩
  have hexits := hb.shows.exits he hcur
  have hin : s.currentNode ∈ ring.map Entry.node := hcur ▸ List.mem_map_of_mem he
  have hge := List.mem_map_of_mem (f := Entry.edit e.procAddr fun p => { p with sp := sp }) he
  have hcur₁ := hsaved.shows.currentProc hge (by rw [edit_node]; exact hcur)
  rw [edit_procAddr] at hcur₁
  have hproc₁ := hsaved.shows.procAt hge
  rw [edit_procAddr, edit_self] at hproc₁
  generalize s.put e.procAddr (.process { e.proc with sp := sp }) = s₁ at hsaved hcur₁ hproc₁ ⊢
  rw [ends_bind]
  refine ends_of_ok hcur₁ ?_
  rw [ends_bind]
  refine ends_of_ok hproc₁ ?_
  have hswitch : ¬ s.Exits → ∀ t g, Tweak (c.Stops s) s t ring g →
      Ends (UpTo c s ring) (WhenSwitched (Cut c s ring)) switchUpTo t := fun hx t g h =>
    h.ends_switchUpTo hE (fun _ => ⟨g, hstay t g hx h⟩) fun u k hu hsettled start hstart => by
      obtain ⟨hspares, hq⟩ := hstay u k hx hu
      exact ⟨_, .left hspares hq hsettled hin hstart⟩
  dsimp only
  cases hstate : e.proc.state with
  | running =>
    have hx : ¬ s.Exits := fun h => by simpa [hstate] using (hexits.mp h).2.2
    rw [ends_bind, ends_get, ends_bind]
    refine ends_editNode hE fun n hn => ?_
    obtain ⟨x, hxmem, hxcur, rfl⟩ := hsaved.shows.node_of_some hn
    rw [← hxcur]
    exact hswitch hx _ _ (hsaved.trans (Tweak.charge _ hsaved.shows hxmem _))
  | killed =>
    have hx : s.Exits := hexits.mpr ⟨hb.enabled, hone, hstate⟩
    have hcurrent : s.current = e.procAddr := hb.shows.current he hcur
    have hT : c.Stops s (s.pidOf s.currentNode) := ⟨hx, rfl⟩
    have hnode : s₁.currentNode = s.currentNode := by rw [hsaved.globals]
    have hstart : s₁.currentNode ∈ ring.map Entry.node := hnode ▸ hin
    rw [ends_bind, schedulerDestroy, ends_bind]
    refine ends_of_ok hcur₁ ?_
    rw [ends_bind]
    -- what `foreground->proc` is
    have hfg₁ : s₁.foreground = s.foreground := by rw [hsaved.globals]
    have hground : Ends (fun a t => s₁ = t ∧ a = s.ground s.foreground)
        (WhenSwitched (Cut c s ring)) foregroundProc s₁ := by
      refine ends_foregroundProc_ring hE hsaved.shows (fun h0 => ⟨rfl, ?_⟩)
        fun x hx hfg => ⟨rfl, ?_⟩
      · exact (if_pos (hfg₁ ▸ h0)).symm
      · obtain ⟨y, hy, rfl⟩ := List.mem_map.mp hx
        rw [edit_node] at hfg
        rw [edit_procAddr, ← hb.shows.ground hy, hfg, hfg₁]
    refine hground.mono ?_ fun _ _ => id
    rintro _ _ ⟨rfl, rfl⟩
    split_ifs with hsame
    · -- the process in the foreground
      replace hsame : s.current = s.ground s.foreground := hcurrent.trans hsame
      have hspares : c.Spares s := Or.inl (if_neg fun h => h.2 hsame)
      have hgrounds : c.grounds s = s.handOver := if_pos ⟨hx, hsame⟩
      have hpids := foreground_eq_currentNode hb.shows he hcur hsame
      refine hsaved.ends_killForegroundProc hE hb (fun _ => hpids ▸ hT) (fun h0 => ?_)
        (fun h0 _ u k hu => ?_) fun _ hne => absurd (by rw [hpids]) hne
      · show UpTo c s ring (.inr s₁.currentNode) s₁
        refine ⟨_, .left hspares ?_ (settled_of_stops hsaved.quiet hT hb.shows) hin hstart⟩
        rw [hgrounds, Kernel.handOver, if_pos h0]
        exact hsaved.quiet
      · refine fun _ => ⟨k, hspares, ?_⟩
        rw [hgrounds, Kernel.handOver, if_neg h0]
        exact hu
    · replace hsame : s.current ≠ s.ground s.foreground := fun h => hsame (hcurrent.symm.trans h)
      have hvictim : e.node = c.victim s := hcur.trans (if_pos ⟨hx, hsame⟩).symm
      have hgrounds : c.grounds s = (s.foreground, s.background) := if_neg fun h => hsame h.2
      have hquiet : Quiet (c.Stops s) (c.grounds s).1 (c.grounds s).2 s s₁ ring
          (Entry.edit e.procAddr fun p => { p with sp := sp }) := by
        rw [hgrounds]
        exact hsaved.quiet
      have hsettled := settled_of_stops hsaved.quiet hT hb.shows
      rw [ends_bind, ends_get]
      rw [hnode, ← hcur]
      refine hquiet.ends_destroyNode hE hb he (fun hspared => ?_) fun s' ring' hleaves => ?_
      · exact ⟨_, .left (Or.inr hspared) hquiet hsettled hin hstart⟩
      · refine ⟨_, .replaced hquiet hsettled hin ?_ he hvictim hleaves⟩
        rw [hleaves.currentNode, hnode]
  | _ =>
    have hx : ¬ s.Exits := fun h => by simpa [hstate] using (hexits.mp h).2.2
    exact hswitch hx _ _ hsaved

theorem ends_finishKill (hb : Base s ring) :
    Ends (fun start t => ∃ ring', Searches .finishScheduler s ring start t ring')
      (WhenSwitched (Cut .finishScheduler s ring)) finishKill s := by
  have hE : Lenient (WhenSwitched (Cut .finishScheduler s ring)) := lenient_whenSwitched _
  have hs : Quiet (Call.Stops s .finishScheduler) s.foreground s.background s s ring id :=
    (Tweak.refl _ hb.shows).quiet
  rw [finishKill]
  refine hs.ends_current hE fun e he hcur => ?_
  have hpid : s.pidOf s.currentNode = e.proc.pid := by rw [← hcur, hb.shows.pidOf he]
  have hT : Call.Stops s .finishScheduler e.proc.pid := hpid.symm
  have hin : s.currentNode ∈ ring.map Entry.node := hcur ▸ List.mem_map_of_mem he
  have hstart : ∀ {t g},
      Quiet (Call.Stops s .finishScheduler) s.foreground s.background s t ring g →
        t.currentNode = s.currentNode := fun ht => by rw [ht.globals]
  rw [ends_bind]
  refine hs.ends_killOther hE hb hT (fun hnone => ?_) (fun u k hu hspared => ?_)
    fun u k hu v hv _ hvictim s' ring' hleaves => ?_
  · refine ⟨_, .left (Or.inl ?_) hs (settled_of_stops hs rfl hb.shows) hin hin⟩
    rw [Call.victim, hpid]
    exact hnone
  · exact ⟨_, .left (Or.inr hspared) hu (settled_of_stops hu rfl hb.shows) hin
      ((hstart hu).symm ▸ hin)⟩
  · refine ⟨_, .replaced hu (settled_of_stops hu rfl hb.shows) hin
      (hleaves.currentNode.trans (hstart hu)) hv ?_ hleaves⟩
    rw [Call.victim, hpid]
    exact hvictim

/-- `find_next_ready`, and what follows it each time. -/
theorem ends_dispatch_ring {Q : Unit → Kernel H → Prop} (hE : Lenient E) (h : Shows s ring)
    {start : ℕ} (hQ : ∀ s' x, Picks s s' ring x → Q () s') : Ends Q E (dispatch start) s := by
  refine ends_dispatch hE fun a n p hn hp hready => ?_
  obtain ⟨x, hx, rfl, rfl⟩ := h.node_of_some hn
  obtain rfl := Option.some.inj ((h.process_at x hx).symm.trans hp)
  have h₁ : Shows { s with currentNode := x.node } ring := h.congr rfl rfl
  have h₂ := h₁.put_process hx (f := Process.enter) fun _ => ⟨rfl, rfl⟩
  have hx₂ := List.mem_map_of_mem (f := Entry.edit x.procAddr Process.enter) hx
  have h₃ := h₂.put_quantums hx₂ x.proc.priority
  have hnext : (Kernel.put { s with currentNode := x.node } x.procAddr
      (.process x.proc.enter)).next = s.next := by
    funext a
    have hnode := node?_put_process (s := { s with currentNode := x.node })
      (node?_of_process (h₁.process_at x hx)) x.proc.enter
    rw [Kernel.next, congrFun hnode a]
    rfl
  rw [edit_node, edit_procAddr, hnext, List.map_map] at h₃
  exact hQ _ x ⟨hx, by simpa [Entry.isReady, Process.isReady] using hready, h₃, rfl, rfl⟩

/-! ## `add_process` -/

/-- Without a current process `add_process` does not come to an end. -/
theorem ends_addProcess_lost {Q : ℕ → Kernel H → Prop} (hE : Lenient E) (hb : Base s ring)
    (hcur : s.node? s.currentNode = none) {name readFd writeFd priority isForeground : ℕ}
    {argv : List (List UInt8)} :
    Ends Q E (Sched.addProcess interrupt name argv readFd writeFd priority isForeground) s := by
  have hlost : ∀ {u : Kernel H}, u.semaphores = s.semaphores → u.currentNode = s.currentNode →
      u.node? = s.node? → ∀ {α : Type} {Q : α → Kernel H → Prop} {m : Op H α},
      Ends Q E (do
        let _ ← semWait interrupt PROC_MUTEX.bytes
        editProc (← currentProc) fun p => { p with children := incr64 p.children }
        m) u := by
    intro u hsem hcurr hnode α Q m
    have hfree : MutexFree u.semaphores PROC_MUTEX.bytes := hsem ▸ hb.proc
    obtain ⟨r, hwait⟩ := semWait_free interrupt hfree
    rw [ends_bind]
    refine ends_of_ok hwait ?_
    rw [ends_bind]
    refine ends_currentProc hE fun n hn => ?_
    have hnone : u.node? u.currentNode = none := by rw [hnode, hcurr, hcur]
    exact absurd (hnone.symm.trans hn) (by simp)
  have hw : Within s := hb.shows.live
  rw [Sched.addProcess, ends_bind]
  refine ends_schedulerDisable hE fun d _ => ?_
  rw [ends_bind]
  refine ends_newProcess hE (s := { s with disableCount := d }) hw hb.pidc (fun s₁ hg => ?_)
    fun s₁ proc args own saved ppid stack d₁ hc _ _ hglob => ?_
  · exact hlost (by rw [hg.globals]) (by rw [hg.globals]) (hg.node? hw)
  · exact hlost (by rw [hglob]) (by rw [hglob]) hc.node?

/-- `add_process` behind the current process. -/
theorem ends_addProcess_ring {Q : ℕ → Kernel H → Prop} (hE : Lenient E) (hb : Base s ring)
    {name readFd writeFd priority isForeground : ℕ} {argv : List (List UInt8)}
    (hQ : ∀ s' e l p proc newNode args ring', ring.IsRotated (e :: l) → e.node = s.currentNode →
      Joins s s' e l p proc newNode args isForeground ring' →
      (∃ t, makeProcess interrupt name argv readFd writeFd priority s = .ok proc t ∧
        (Allocator.malloc t.heap sizeofNode).2 = newNode) →
      Q s.pidc s') :
    Ends Q E (Sched.addProcess interrupt name argv readFd writeFd priority isForeground) s := by
  cases hcn : s.node? s.currentNode with
  | none => exact ends_addProcess_lost hE hb hcn
  | some n =>
    obtain ⟨e, he, hcur, rfl⟩ := hb.shows.node_of_some hcn
    obtain ⟨l, hr⟩ := exists_isRotated_cons he
    have hs := hb.shows.rotated hr
    refine ends_addProcess hE hb.shows.live hb.pidc hb.proc hcn (hb.shows.process_at e he)
      fun s' proc newNode args own saved stack d hadd hd hglob hnode => ?_
    replace hglob : s'.toGlobals = ({ s.toGlobals with
        pidc := incr64 s.pidc
        counter := incr64 s.counter } : Globals).promote isForeground newNode := by
      rw [hglob, hd (by rw [hb.enabled]; omega)]
    rw [← hcur] at hadd
    by_cases h0 : newNode = 0
    · subst h0
      exact hQ s' e l (newProc name saved s.pidc e.proc.pid stack readFd writeFd (min priority 5))
        proc 0 args _ hr hcur ⟨hadd.shows_lost hs hcur, (if_pos rfl).symm, rfl, rfl, rfl, rfl, rfl,
        hglob⟩
        hnode
    · exact hQ s' e l (newProc name saved s.pidc e.proc.pid stack readFd writeFd (min priority 5))
        proc newNode args _ hr hcur ⟨hadd.shows_linked hs hcur h0, (if_neg h0).symm, rfl, rfl, rfl,
        rfl, rfl, hglob⟩
        hnode

/-! ## All steps -/

/-- A step that assigns to processes only. -/
theorem Tweak.outcome (hvictim : c.victim s = 0)
    (hgrounds : c.grounds s = (s.foreground, s.background)) (h : Tweak (c.Stops s) s s' ring g) :
    Outcome c s ring s' (ring.map g) := by
  refine .stay (Or.inl hvictim) ?_
  rw [hgrounds]
  exact h.quiet

/-- Every step leads to one of these states. -/
theorem ends_run (hb : Base s ring) (c : Call) :
    Ends (fun _ s' => ∃ ring', Outcome c s ring s' ring')
      (WhenSwitched fun s' => ∃ ring', Outcome c s ring s' ring') c.run s := by
  have hE : Lenient (WhenSwitched fun s' => ∃ ring', Outcome c s ring s' ring') :=
    lenient_whenSwitched _
  have hcut : ∀ {d : Call} e t, WhenSwitched (Cut d s ring) e t →
      WhenSwitched (fun s' => ∃ ring', Outcome d s ring s' ring') e t := fun e t h he => by
    obtain ⟨g, hspares, hq⟩ := h he
    exact ⟨_, .stay hspares hq⟩
  have hcurrent : ∀ {e}, e ∈ ring → e.node = s.currentNode → s.pidOf s.currentNode = e.proc.pid :=
    fun he hcur => by rw [← hcur, hb.shows.pidOf he]
  cases c with
  | schedule sp =>
    rw [Call.run, ends_bind, scheduler_eq, ends_bind]
    refine (ends_schedulerUpTo hb).mono (fun r t h => ?_) hcut
    cases r with
    | inl v =>
      obtain ⟨g, hspares, hq⟩ := h
      exact ⟨_, .stay hspares hq⟩
    | inr start =>
      obtain ⟨ring₁, hsearch⟩ := h
      rw [resume, ends_bind]
      refine ends_dispatch_ring hE (hsearch.base hb).shows fun s' x hpicks => ?_
      rw [ends_bind]
      refine ends_currentProc hE fun _ _ => ?_
      rw [ends_bind]
      exact ends_procAt hE fun _ _ => ⟨_, .searched rfl hsearch hpicks⟩
  | finishScheduler =>
    rw [Call.run, ends_bind]
    refine (ends_finishKill hb).mono (fun start t h => ?_) hcut
    obtain ⟨ring₁, hsearch⟩ := h
    exact ends_dispatch_ring hE (hsearch.base hb).shows fun s' x hpicks =>
      ⟨_, .searched rfl hsearch hpicks⟩
  | addProcess name argv readFd writeFd priority isForeground =>
    rw [Call.run, ends_bind]
    exact ends_addProcess_ring hE hb fun s' e l p proc newNode args ring' hr hcur h hmakes =>
      ⟨ring', .joined (Or.inl rfl) hr hcur h ⟨proc, hmakes⟩⟩
  | killProcess pid =>
    rw [Call.run, ends_bind]
    have hs : Quiet (Call.Stops s (.killProcess pid)) s.foreground s.background s s ring id :=
      (Tweak.refl _ hb.shows).quiet
    refine hs.ends_killProcess hE hb rfl (fun hself u k hu => ?_) fun hne => ?_
    · exact fun _ => ⟨_, .stay (Or.inl (if_pos hself)) hu⟩
    · have hvictim : Call.victim s (.killProcess pid) = s.nodeOf pid := if_neg hne
      refine hs.ends_killOther hE hb rfl (fun hnone => ?_) (fun u k hu hspared => ?_)
        fun u k hu v hv _ hnode s' ring' hleaves => ?_
      · exact ⟨_, .stay (Or.inl (hvictim.trans hnone)) hs⟩
      · exact ⟨_, .stay (Or.inr hspared) hu⟩
      · exact ⟨_, .removed hu hv (hnode.trans hvictim.symm) hleaves⟩
  | killOther pid =>
    rw [Call.run, ends_bind]
    have hs : Quiet (Call.Stops s (.killOther pid)) s.foreground s.background s s ring id :=
      (Tweak.refl _ hb.shows).quiet
    refine hs.ends_killOther hE hb rfl (fun hnone => ?_) (fun u k hu hspared => ?_)
      fun u k hu v hv _ hnode s' ring' hleaves => ?_
    · exact ⟨_, .stay (Or.inl hnone) hs⟩
    · exact ⟨_, .stay (Or.inr hspared) hu⟩
    · exact ⟨_, .removed hu hv hnode hleaves⟩
  | killCurrentProcess =>
    exact ends_killCurrentProcess_ring hb.shows (fun e he hcur => (hcurrent he hcur).symm)
      fun s' g h => ⟨_, h.outcome rfl rfl⟩
  | killForegroundProc =>
    have hgrounds : Call.grounds s .killForegroundProc = s.handOver := rfl
    refine (Tweak.refl (Call.Stops s .killForegroundProc) hb.shows).ends_killForegroundProc hE hb
      (fun h0 => ⟨h0, rfl⟩) (fun h0 => ?_) (fun h0 hsame u k hu => ?_) fun h0 hne u k hu => ?_
    · refine ⟨_, .stay (Or.inl (if_pos (Or.inl h0))) (?_ : Quiet _ _ _ s s ring id)⟩
      rw [hgrounds, Kernel.handOver, if_pos h0]
      exact (Tweak.refl _ hb.shows).quiet
    · refine fun _ => ⟨_, .stay (Or.inl (if_pos (Or.inr hsame))) (?_ : Quiet _ _ _ s u ring k)⟩
      rw [hgrounds, Kernel.handOver, if_neg h0]
      exact hu
    · have hvictim : Call.victim s .killForegroundProc = s.nodeOf (s.pidOf s.foreground) :=
        if_neg (not_or.mpr ⟨h0, hne⟩)
      have hquiet : ∀ {u k}, Quiet (Call.Stops s .killForegroundProc) s.background 0 s u ring k →
          Quiet (Call.Stops s .killForegroundProc) (Call.grounds s .killForegroundProc).1
            (Call.grounds s .killForegroundProc).2 s u ring k := fun hu => by
        rw [hgrounds, Kernel.handOver, if_neg h0]
        exact hu
      refine hu.ends_killOther hE hb ⟨h0, rfl⟩ (fun hnone => ?_) (fun u k hu hspared => ?_)
        fun u k hu v hv _ hnode s' ring' hleaves => ?_
      · exact ⟨_, .stay (Or.inl (hvictim.trans hnone)) (hquiet hu)⟩
      · exact ⟨_, .stay (Or.inr hspared) (hquiet hu)⟩
      · exact ⟨_, .removed (hquiet hu) hv (hnode.trans hvictim.symm) hleaves⟩
  | blockProcess pid =>
    rw [Call.run, ends_bind]
    exact ends_blockProcess_ring (T := Call.Stops s (.blockProcess pid)) hb.shows rfl
      fun s' g h => ⟨_, h.outcome rfl rfl⟩
  | readyProcess pid =>
    rw [Call.run, ends_bind]
    exact ends_readyProcess_ring hb.shows pid fun s' g h => ⟨_, h.outcome rfl rfl⟩
  | waitPid =>
    refine ends_waitPid_ring hb.shows (fun e he hcur hne => ⟨(hcurrent he hcur).symm, ?_⟩)
      fun s' g h => ⟨_, h.outcome rfl rfl⟩
    rw [← hcur, hb.shows.procOf he]
    simpa using hne
  | forceCurrentYield =>
    exact ends_forceCurrentYield_ring hb.shows fun s' g h => ⟨_, h.outcome rfl rfl⟩

/-- What a step does to a ring. -/
theorem step_outcome (hb : Base s ring) (h : step s c = some s') :
    ∃ ring', Outcome c s ring s' ring' :=
  (leads_outcome h).holds (ends_run hb c)

/-! ## The first state -/

/-- The idle process alone, as `init_scheduler` leaves it. -/
structure Starts (s : Kernel H) (e : Entry) : Prop where
  base : Base s [e]
  current : e.node = s.currentNode
  first : e.node = s.first
  pid : e.proc.pid = 0
  ppid : e.proc.ppid = 0
  state : e.proc.state = .running
  children : e.proc.children = 0
  waits : e.proc.blockedByChildren = 0
  foreground : s.foreground = 0
  background : s.background = 0
  pidc : s.pidc = 1
  counter : s.counter = 1

theorem Booted.starts {s₀ : Kernel H} (hs : Booting s₀) {node proc idle argv stack : ℕ}
    {args own : List ℕ} (h : Booted s₀ s node proc (idleProc idle argv stack) args own) :
    Starts s ⟨node, MAX_QUANTUM, proc, idleProc idle argv stack, args⟩ := by
  have hnode : s.node? node = some ⟨MAX_QUANTUM, proc, node⟩ := by rw [h.node?, if_pos rfl]
  have hnext : s.next node = node := by rw [Kernel.next, hnode]; rfl
  have hglob := h.globals
  have hshows : Shows s [⟨node, MAX_QUANTUM, proc, idleProc idle argv stack, args⟩] := by
    constructor
    · exact isRing_singleton.mpr hnext
    · simp
    · rw [List.flatMap_singleton, Entry.blocks, Entry.argBlocks, ← h.args_at.blocks]
      exact (List.nodup_cons.mp h.fresh.nodup).2
    · simp [hnode, hnext]
    · intro a n hn
      rw [h.node?] at hn
      split_ifs at hn with ha
      exact ⟨_, List.mem_singleton_self _, ha.symm⟩
    · simp [h.process?]
    · simpa using h.args_at.argv_at
    · simpa using h.args_at.text_at
    · simpa using h.stack_at
    · exact h.within
  refine ⟨⟨hshows, fun j => ?_, ?_, ?_, ?_⟩, ?_, ?_, rfl, rfl, rfl, rfl, rfl, ?_, ?_, ?_, ?_⟩
  · rw [hglob]
    exact hs.pipes j
  · rw [hglob]
    exact bootTable_pidc
  · rw [hglob]
    exact bootTable_proc
  all_goals rw [hglob]
  · exact hs.disableCount
  · exact hs.foreground
  · exact hs.background

/-- After `init_scheduler` a run starts. -/
theorem starts_of_init {s₀ : Kernel H} {idle : ℕ} (hs : Booting s₀)
    (h : initScheduler interrupt idle s₀ = .ok () s) (hfirst : s.first ≠ 0) : ∃ e, Starts s e := by
  have hend : Ends (fun _ s' => s'.first ≠ 0 → ∃ e, Starts s' e) (fun _ _ => True)
      (initScheduler interrupt idle) s₀ := by
    refine ends_initScheduler lenient_true hs (fun s' hglob h0 => ?_)
      fun s' node proc argv stack args own hb _ => ⟨_, Booted.starts hs hb⟩
    exact absurd (by rw [hglob, hs.first]) h0
  exact hend.of_ok h hfirst

end Lives

end TronKernel.Sched
