import TronKernel.Sched.Ring

/-!
# Rules for the accesses of the scheduler

The precondition under which an access or a search of the code ends in a wanted state, whatever the
memory holds. A program that uses memory that is not there, or goes on for ever, stops, and nothing
is wanted of that: the rules ask only that the postcondition is `Lenient` with these stops.
-/

namespace TronKernel.Sched

open Programs

variable {H α : Type} {s s' : Kernel H} {a : ℕ} {E : Stop → Kernel H → Prop}

/-- Nothing is asked when the program stops by itself. -/
def Lenient (E : Stop → Kernel H → Prop) : Prop := ∀ e s, e ≠ .switched → E e s

theorem lenient_true : Lenient fun _ (_ : Kernel H) => True := fun _ _ _ => trivial

/-- The program is not interrupted. -/
def NotSwitched : Stop → Kernel H → Prop := fun e _ => e ≠ .switched

/-- Where another process has been switched to, `I` holds. -/
def WhenSwitched (I : Kernel H → Prop) : Stop → Kernel H → Prop := fun e s => e = .switched → I s

theorem lenient_whenSwitched (I : Kernel H → Prop) : Lenient (WhenSwitched I) :=
  fun _ _ h h' => absurd h' h

/-- `_force_scheduler` as the end of the call that makes it. -/
def interrupt : Op H Unit := throw .switched

/-- The program ends in this state, or is interrupted in it. -/
def Leads (m : Op H α) (s s' : Kernel H) : Prop :=
  (∃ v, m s = .ok v s') ∨ m s = .error .switched s'

theorem Leads.holds {I : Kernel H → Prop} {m : Op H α} {s' : Kernel H} (h : Leads m s s')
    (hm : Ends (fun _ => I) (WhenSwitched I) m s) : I s' := by
  rcases h with ⟨v, hv⟩ | he
  · exact hm.of_ok hv
  · exact hm.of_error he rfl

/-- The state that a call leads to, if there is one. -/
def outcome (m : Op H α) (s : Kernel H) : Option (Kernel H) :=
  match m s with
  | .ok _ s' => some s'
  | .error .switched s' => some s'
  | .error _ _ => none

theorem leads_outcome {m : Op H α} {s' : Kernel H} (h : outcome m s = some s') : Leads m s s' := by
  unfold outcome at h
  split at h
  · next v s₁ hm => exact Or.inl ⟨v, by rw [hm, Option.some.inj h]⟩
  · next s₁ hm => exact Or.inr (by rw [hm, Option.some.inj h])
  · cases h

/-- `currentNode->proc`. -/
def Kernel.current (s : Kernel H) : ℕ := ((s.node? s.currentNode).map Node.proc).getD 0

/-- The node holds a process with that pid. -/
def Holds (s : Kernel H) (node pid : ℕ) : Prop :=
  ∃ n p, s.node? node = some n ∧ s.process? n.proc = some p ∧ p.pid = pid

/-- `get_running_pid` is `pid`. -/
def Kernel.Runs (s : Kernel H) (pid : ℕ) : Prop :=
  s.currentNode = 0 ∧ pid = 0 ∨ Holds s s.currentNode pid

/-! ## Other globals -/

/-- The scheduler sees no difference. -/
structure Unseen (s s' : Kernel H) : Prop where
  first : s'.first = s.first
  currentNode : s'.currentNode = s.currentNode
  node? : s'.node? = s.node?
  process? : s'.process? = s.process?

theorem Unseen.refl (s : Kernel H) : Unseen s s := ⟨rfl, rfl, rfl, rfl⟩

theorem Unseen.nodeAt (h : Unseen s s') {n : Node} (hn : s.node? a = some n) :
    nodeAt a s' = .ok n s' := by
  rw [Sched.nodeAt, h.node?, hn]

theorem Unseen.procAt (h : Unseen s s') {p : Process} (hp : s.process? a = some p) :
    procAt a s' = .ok p s' := by
  rw [Sched.procAt, h.process?, hp]

theorem getRunningPid_ok {n : Node} {p : Process} (h0 : s.currentNode ≠ 0)
    (hn : s.node? s.currentNode = some n) (hp : s.process? n.proc = some p) :
    getRunningPid s = .ok p.pid s := by
  have hnode : nodeAt s.currentNode s = .ok n s := by rw [nodeAt, hn]
  have hproc : procAt n.proc s = .ok p s := by rw [procAt, hp]
  rw [getRunningPid, get_bind, if_neg h0, currentProc, bind_assoc, get_bind, bind_assoc,
    bind_of_ok hnode, pure_bind, bind_of_ok hproc]
  rfl

/-- The nodes and processes are still there, perhaps among others. -/
structure Extends (s s' : Kernel H) : Prop where
  first : s'.first = s.first
  node? : ∀ a n, s.node? a = some n → s'.node? a = some n
  process? : ∀ a p, s.process? a = some p → s'.process? a = some p

theorem Extends.refl (s : Kernel H) : Extends s s := ⟨rfl, fun _ _ h => h, fun _ _ h => h⟩

theorem Unseen.extends (h : Unseen s s') : Extends s s' :=
  ⟨h.first, fun _ _ hn => h.node? ▸ hn, fun _ _ hp => h.process? ▸ hp⟩

theorem Extends.nodeAt (h : Extends s s') {n : Node} (hn : s.node? a = some n) :
    nodeAt a s' = .ok n s' := by
  rw [Sched.nodeAt, h.node? a n hn]

theorem Extends.procAt (h : Extends s s') {p : Process} (hp : s.process? a = some p) :
    procAt a s' = .ok p s' := by
  rw [Sched.procAt, h.process? a p hp]

/-- The nodes are still there and their processes have the same pids. -/
structure SamePids (s s' : Kernel H) : Prop where
  first : s'.first = s.first
  node? : ∀ a n, s.node? a = some n → s'.node? a = some n
  process? : ∀ a p, s.process? a = some p → ∃ q, s'.process? a = some q ∧ q.pid = p.pid

theorem Extends.samePids (h : Extends s s') : SamePids s s' :=
  ⟨h.first, h.node?, fun a p hp => ⟨p, h.process? a p hp, rfl⟩⟩

theorem SamePids.nodeAt (h : SamePids s s') {n : Node} (hn : s.node? a = some n) :
    nodeAt a s' = .ok n s' := by
  rw [Sched.nodeAt, h.node? a n hn]

/-- A search that ends, ends with the same node. -/
theorem SamePids.findNodeLoop (h : SamePids s s') {pid r : ℕ} (rounds x : ℕ)
    (hfind : findNodeLoop pid rounds x s = .ok r s) :
    findNodeLoop pid rounds x s' = .ok r s' := by
  induction rounds generalizing x with
  | zero => exact absurd hfind (by simp [Sched.findNodeLoop])
  | succ rounds ih =>
    rw [Sched.findNodeLoop, get_bind] at hfind ⊢
    rw [h.first]
    split_ifs at hfind ⊢ with hx
    · rw [pure_apply] at hfind ⊢
      injection hfind with hr
      rw [hr]
    · cases hn : s.node? x with
      | none =>
        have herr : Sched.nodeAt x s = .error .fault s := by rw [Sched.nodeAt, hn]
        rw [bind_of_error herr] at hfind
        exact absurd hfind (by simp)
      | some n =>
        rw [bind_of_ok ((Extends.refl s).nodeAt hn)] at hfind
        rw [bind_of_ok (h.nodeAt hn)]
        cases hp : s.process? n.proc with
        | none =>
          have herr : Sched.procAt n.proc s = .error .fault s := by rw [Sched.procAt, hp]
          rw [bind_of_error herr] at hfind
          exact absurd hfind (by simp)
        | some q =>
          rw [bind_of_ok ((Extends.refl s).procAt hp)] at hfind
          obtain ⟨q', hq, hsame⟩ := h.process? _ _ hp
          rw [bind_of_ok (show Sched.procAt n.proc s' = .ok q' s' by rw [Sched.procAt, hq]), hsame]
          split_ifs at hfind ⊢ with hpid
          · rw [pure_apply] at hfind ⊢
            injection hfind with hr
            rw [hr]
          · exact ih n.next hfind

theorem SamePids.findNode (h : SamePids s s') {pid r : ℕ} (hfind : findNode pid s = .ok r s) :
    findNode pid s' = .ok r s' := by
  rw [Sched.findNode, get_bind] at hfind ⊢
  rw [h.first]
  cases hn : s.node? s.first with
  | none =>
    have herr : Sched.nodeAt s.first s = .error .fault s := by rw [Sched.nodeAt, hn]
    rw [bind_of_error herr] at hfind
    exact absurd hfind (by simp)
  | some n =>
    rw [bind_of_ok ((Extends.refl s).nodeAt hn)] at hfind
    rw [bind_of_ok (h.nodeAt hn)]
    cases hp : s.process? n.proc with
    | none =>
      have herr : Sched.procAt n.proc s = .error .fault s := by rw [Sched.procAt, hp]
      rw [bind_of_error herr] at hfind
      exact absurd hfind (by simp)
    | some q =>
      rw [bind_of_ok ((Extends.refl s).procAt hp)] at hfind
      obtain ⟨q', hq, hsame⟩ := h.process? _ _ hp
      rw [bind_of_ok (show Sched.procAt n.proc s' = .ok q' s' by rw [Sched.procAt, hq]), hsame]
      split_ifs at hfind ⊢ with hpid
      · rw [pure_apply] at hfind ⊢
        injection hfind with hr
        rw [hr]
      · exact h.findNodeLoop _ _ hfind

theorem Extends.findNode (h : Extends s s') {pid r : ℕ} (hfind : findNode pid s = .ok r s) :
    findNode pid s' = .ok r s' := h.samePids.findNode hfind

theorem Unseen.findNode (h : Unseen s s') {pid r : ℕ} (hfind : findNode pid s = .ok r s) :
    findNode pid s' = .ok r s' := h.extends.findNode hfind

variable (hE : Lenient E)

include hE

/-! ## Accesses -/

theorem ends_nodeAt {Q : Node → Kernel H → Prop} (h : ∀ n, s.node? a = some n → Q n s) :
    Ends Q E (nodeAt a) s := by
  rw [Ends, nodeAt]
  cases hn : s.node? a with
  | none => exact hE _ _ (by simp)
  | some n => exact h n hn

theorem ends_procAt {Q : Process → Kernel H → Prop} (h : ∀ p, s.process? a = some p → Q p s) :
    Ends Q E (procAt a) s := by
  rw [Ends, procAt]
  cases hp : s.process? a with
  | none => exact hE _ _ (by simp)
  | some p => exact h p hp

theorem ends_editNode {Q : Unit → Kernel H → Prop} {f : Node → Node}
    (h : ∀ n, s.node? a = some n → Q () (s.put a (.node (f n)))) : Ends Q E (editNode a f) s := by
  rw [editNode, ends_bind]
  exact ends_nodeAt hE h

theorem ends_editProc {Q : Unit → Kernel H → Prop} {f : Process → Process}
    (h : ∀ p, s.process? a = some p → Q () (s.put a (.process (f p)))) :
    Ends Q E (editProc a f) s := by
  rw [editProc, ends_bind]
  exact ends_procAt hE h

theorem ends_currentProc {Q : ℕ → Kernel H → Prop}
    (h : ∀ n, s.node? s.currentNode = some n → Q n.proc s) : Ends Q E currentProc s := by
  rw [currentProc, ends_bind, ends_get, ends_bind]
  exact ends_nodeAt hE h

theorem ends_getRunningPid {Q : ℕ → Kernel H → Prop} (h : ∀ pid, s.Runs pid → Q pid s) :
    Ends Q E getRunningPid s := by
  rw [getRunningPid, ends_bind, ends_get]
  split_ifs with h0
  · exact h 0 (Or.inl ⟨h0, rfl⟩)
  · rw [ends_bind]
    refine ends_currentProc hE fun n hn => ?_
    rw [ends_bind]
    exact ends_procAt hE fun p hp => h p.pid (Or.inr ⟨n, p, hn, hp, rfl⟩)

theorem ends_pipeAt {Q : Pipe.PipeT → Kernel H → Prop} {i : ℤ}
    (h : 0 ≤ i → Q (s.pipes i.toNat) s) : Ends Q E (pipeAt i) s := by
  rw [pipeAt]
  split_ifs with hrange
  · exact h hrange.1
  · exact hE _ _ (by simp)

/-! ## Searches -/

theorem ends_findNodeLoop {Q : ℕ → Kernel H → Prop} {pid : ℕ} (hnone : Q 0 s)
    (h : ∀ x, Holds s x pid → Q x s) (rounds : ℕ) :
    ∀ x, Ends Q E (findNodeLoop pid rounds x) s := by
  induction rounds with
  | zero => exact fun _ => hE _ _ (by simp)
  | succ rounds ih =>
    intro x
    rw [findNodeLoop, ends_bind, ends_get]
    split_ifs
    · exact hnone
    · rw [ends_bind]
      refine ends_nodeAt hE fun n hn => ?_
      rw [ends_bind]
      refine ends_procAt hE fun p hp => ?_
      split_ifs with hpid
      · exact h x ⟨n, p, hn, hp, hpid⟩
      · exact ih n.next

/-- `find_node` changes nothing, and what it finds has the pid. -/
theorem ends_findNode {Q : ℕ → Kernel H → Prop} {pid : ℕ} (hnone : Q 0 s)
    (h : ∀ x, Holds s x pid → Q x s) : Ends Q E (findNode pid) s := by
  rw [findNode, ends_bind, ends_get, ends_bind]
  refine ends_nodeAt hE fun n hn => ?_
  rw [ends_bind]
  refine ends_procAt hE fun p hp => ?_
  split_ifs with hpid
  · exact h _ ⟨n, p, hn, hp, hpid⟩
  · exact ends_findNodeLoop hE hnone h _ _

/-- READY or NEW. -/
def Process.isReady (p : Process) : Prop := p.state = .ready ∨ p.state = .new

theorem ends_findNextReadyLoop {Q : ℕ → Kernel H → Prop}
    (h : ∀ x n p, s.node? x = some n → s.process? n.proc = some p → p.isReady → Q x s) (calls : ℕ) :
    ∀ x, Ends Q E (findNextReadyLoop calls x) s := by
  induction calls with
  | zero => exact fun _ => hE _ _ (by simp)
  | succ calls ih =>
    intro x
    rw [findNextReadyLoop, ends_bind]
    refine ends_nodeAt hE fun n hn => ?_
    rw [ends_bind]
    refine ends_procAt hE fun p hp => ?_
    split_ifs with hready
    · exact h x n p hn hp hready
    · exact ih n.next

/-- `find_next_ready` changes nothing, and what it finds is READY or NEW. -/
theorem ends_findNextReady {Q : ℕ → Kernel H → Prop} (start : ℕ)
    (h : ∀ x n p, s.node? x = some n → s.process? n.proc = some p → p.isReady → Q x s) :
    Ends Q E (findNextReady start) s :=
  ends_findNextReadyLoop hE h _ _

/-! ## Changing the process with a pid -/

/-- An assignment to the process of a node that `find_node` has found. -/
theorem ends_editFound {Q : Unit → Kernel H → Prop} {x pid : ℕ} {f : Process → Process}
    (hx : Holds s x pid) (h : ∀ a p, s.process? a = some p → p.pid = pid →
      Holds (s.put a (.process (f p))) x (f p).pid → Q () (s.put a (.process (f p)))) :
    Ends Q E (do editProc (← nodeAt x).proc f) s := by
  obtain ⟨n, p, hn, hp, rfl⟩ := hx
  rw [ends_bind]
  refine ends_nodeAt hE fun n' hn' => ?_
  obtain rfl := Option.some.inj (hn.symm.trans hn')
  refine ends_editProc hE fun p' hp' => ?_
  obtain rfl := Option.some.inj (hp.symm.trans hp')
  refine h n.proc p hp rfl ⟨n, f p, ?_, (process?_put_process _ _ _ _).trans (if_pos rfl), rfl⟩
  exact (congrFun (node?_put_process (node?_of_process hp) (f p)) x).trans hn

/-- The pid of a node's process. -/
theorem ends_pidOf {Q : ℕ → Kernel H → Prop} {x : ℕ} (h : ∀ pid, Holds s x pid → Q pid s) :
    Ends Q E (do return (← procAt (← nodeAt x).proc).pid) s := by
  rw [ends_bind]
  refine ends_nodeAt hE fun n hn => ?_
  rw [ends_bind]
  exact ends_procAt hE fun p hp => h p.pid ⟨n, p, hn, hp, rfl⟩

theorem ends_readyProcess {Q : ℕ → Kernel H → Prop} {pid : ℕ} (hnone : Q failed s)
    (h : ∀ a p v, s.process? a = some p → p.pid = pid →
      Q v { s.put a (.process { p with state := .ready }) with
        blockCount := decr64 s.blockCount }) :
    Ends Q E (readyProcess pid) s := by
  rw [readyProcess, ends_bind]
  refine ends_findNode hE hnone fun x hx => ?_
  split_ifs
  · exact hnone
  · rw [← bind_assoc, ends_bind]
    refine ends_editFound hE hx fun a p hp hpid _ => ?_
    rw [ends_bind, ends_modify]
    exact ends_pidOf hE fun v _ => h a p v hp hpid

theorem ends_changePriority {Q : ℕ → Kernel H → Prop} {pid priority : ℕ} (hnone : Q failed s)
    (h : ∀ a p v, s.process? a = some p → p.pid = pid →
      Q v (s.put a (.process { p with priority := priority }))) :
    Ends Q E (changePriority pid priority) s := by
  rw [changePriority, ends_bind]
  refine ends_findNode hE hnone fun x hx => ?_
  split_ifs
  · exact hnone
  · rw [← bind_assoc, ends_bind]
    exact ends_editFound hE hx fun a p hp hpid _ => ends_pidOf hE fun v _ => h a p v hp hpid

theorem ends_blockProcess {Q : ℕ → Kernel H → Prop} {force : Op H Unit} {pid : ℕ}
    (hnone : Q failed s) (h : ∀ a p, s.process? a = some p → p.pid = pid →
      Ends (fun _ s' => ∀ v, Q v s') E force (s.put a (.process { p with state := .blocked }))) :
    Ends Q E (blockProcess force pid) s := by
  rw [blockProcess, ends_bind]
  refine ends_findNode hE hnone fun x hx => ?_
  split_ifs
  · exact hnone
  · rw [← bind_assoc, ends_bind]
    refine ends_editFound hE hx fun a p hp hpid _ => ?_
    rw [ends_bind]
    exact (h a p hp hpid).mono (fun _ s' hQ => ends_pidOf hE fun v _ => hQ v) fun _ _ h => h

end TronKernel.Sched
