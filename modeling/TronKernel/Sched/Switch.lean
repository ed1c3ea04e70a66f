import TronKernel.Sched.Blocks

/-!
# Assignments and switches

A call that only assigns to fields changes the memory by `Edits`: every node keeps its process, and
a relation tells what may become of each process. The rules for `dispatch` and for the way
`scheduler` takes with a process that has not been killed follow its five exits.
-/

namespace TronKernel.Sched

open Programs

variable {H : Type} {s s' s₁ : Kernel H} {a : ℕ} {E : Stop → Kernel H → Prop}
  {R R' : ℕ → Process → Process → Prop}

/-! ## Assignments -/

/-- Between two states there have been assignments to nodes that keep their process, and to
processes within `R`. -/
structure Edits (R : ℕ → Process → Process → Prop) (s s' : Kernel H) : Prop where
  heap : s'.heap = s.heap
  mem : ∀ a, (s'.mem a).isSome = (s.mem a).isSome
  node : ∀ a n', s'.node? a = some n' → ∃ n, s.node? a = some n ∧ n'.proc = n.proc
  node_back : ∀ a n, s.node? a = some n → ∃ n', s'.node? a = some n' ∧ n'.proc = n.proc
  process : ∀ a p', s'.process? a = some p' → ∃ p, s.process? a = some p ∧ R a p p'
  process_back : ∀ a p, s.process? a = some p → ∃ p', s'.process? a = some p' ∧ R a p p'

theorem Edits.refl (hR : ∀ a p, R a p p) (s : Kernel H) : Edits R s s :=
  ⟨rfl, fun _ => rfl, fun _ n h => ⟨n, h, rfl⟩, fun _ n h => ⟨n, h, rfl⟩,
    fun a p h => ⟨p, h, hR a p⟩, fun a p h => ⟨p, h, hR a p⟩⟩

/-- Other globals. -/
theorem Edits.globals (h : Edits R s s') (g : Globals) :
    Edits R s { s' with toGlobals := g } :=
  ⟨h.heap, h.mem, h.node, h.node_back, h.process, h.process_back⟩

theorem Edits.put_process (h : Edits R s s') {p' q : Process} (hp' : s'.process? a = some p')
    (hother : ∀ b p p₁, b ≠ a → R b p p₁ → R' b p p₁)
    (hq : ∀ p, s.process? a = some p → R a p p' → R' a p q) :
    Edits R' s (s'.put a (.process q)) where
  heap := h.heap
  mem b := by
    rw [put_mem, ← h.mem]
    split_ifs with hba
    · rw [hba, process?_eq_some.mp hp']
      rfl
    · rfl
  node b n' hn' := h.node b n' (by rwa [node?_put_process (node?_of_process hp')] at hn')
  node_back b n hn := by
    rw [node?_put_process (node?_of_process hp')]
    exact h.node_back b n hn
  process b p₁ hp₁ := by
    rw [process?_put_process] at hp₁
    split_ifs at hp₁ with hba
    · obtain rfl := Option.some.inj hp₁
      obtain rfl := hba
      obtain ⟨p, hp, hR⟩ := h.process b p' hp'
      exact ⟨p, hp, hq p hp hR⟩
    · obtain ⟨p, hp, hR⟩ := h.process b p₁ hp₁
      exact ⟨p, hp, hother b p p₁ hba hR⟩
  process_back b p hp := by
    rw [process?_put_process]
    obtain ⟨p₁, hp₁, hR⟩ := h.process_back b p hp
    split_ifs with hba
    · obtain rfl := hba
      obtain rfl := Option.some.inj (hp₁.symm.trans hp')
      exact ⟨q, rfl, hq p hp hR⟩
    · exact ⟨p₁, hp₁, hother b p p₁ hba hR⟩

theorem Edits.mono (h : Edits R s s')
    (hR : ∀ a p p', s.process? a = some p → R a p p' → R' a p p') : Edits R' s s' where
  heap := h.heap
  mem := h.mem
  node := h.node
  node_back := h.node_back
  process a p' hp' := (h.process a p' hp').imp fun p hp => ⟨hp.1, hR a p p' hp.1 hp.2⟩
  process_back a p hp := (h.process_back a p hp).imp fun p' hp' => ⟨hp'.1, hR a p p' hp hp'.2⟩

theorem Edits.put_node (h : Edits R s s') {n' m : Node} (hn' : s'.node? a = some n')
    (hm : m.proc = n'.proc) : Edits R s (s'.put a (.node m)) where
  heap := h.heap
  mem b := by
    rw [put_mem, ← h.mem]
    split_ifs with hba
    · rw [hba, node?_eq_some.mp hn']
      rfl
    · rfl
  node b n₁ hn₁ := by
    rw [node?_put_node] at hn₁
    split_ifs at hn₁ with hba
    · obtain rfl := Option.some.inj hn₁
      obtain rfl := hba
      obtain ⟨n, hn, hproc⟩ := h.node b n' hn'
      exact ⟨n, hn, hm.trans hproc⟩
    · exact h.node b n₁ hn₁
  node_back b n hn := by
    rw [node?_put_node]
    split_ifs with hba
    · obtain rfl := hba
      obtain ⟨n₁, hn₁, hproc⟩ := h.node_back b n hn
      obtain rfl := Option.some.inj (hn₁.symm.trans hn')
      exact ⟨m, rfl, hm.trans hproc⟩
    · exact h.node_back b n hn
  process b p' hp' := h.process b p' (by rwa [process?_put_node (process?_of_node hn')] at hp')
  process_back b p hp := by
    rw [process?_put_node (process?_of_node hn')]
    exact h.process_back b p hp

theorem Edits.within [Allocator H] (h : Edits R s s') (hs : Within s) : Within s' := by
  intro a o ha
  have hsome : (s.mem a).isSome := by rw [← h.mem, ha]; rfl
  obtain ⟨o', ho'⟩ := Option.isSome_iff_exists.mp hsome
  rw [h.heap]
  exact hs a o' ho'

/-! ## Switches -/

/-- What becomes of the process that is switched away from. -/
def Process.leave (sp : ℕ) (p : Process) : Process :=
  { p with sp := sp, state := if p.state = .blocked then .blocked else .ready }

/-- What becomes of the process that is switched to. -/
def Process.enter (p : Process) : Process := { p with state := .running }

/-- `scheduler` keeps the process at `cur`, and returns what it was given. -/
structure Stays (s s' : Kernel H) (cur sp v : ℕ) : Prop where
  value : v = sp
  globals : s'.toGlobals = s.toGlobals
  edits : Edits (fun a p p' => p' = p ∨ a = cur ∧ p' = { p with sp := sp }) s s'

/-- `scheduler` goes from the process at `cur` to the one at `next`. -/
structure Switches (s s' : Kernel H) (cur next sp v : ℕ) : Prop where
  enabled : s.disableCount = 0
  several : s.counter ≠ 1
  globals : s'.toGlobals =
    { s.toGlobals with currentNode := s'.currentNode, forceYield := s'.forceYield }
  node : ∃ n, s.node? s'.currentNode = some n ∧ n.proc = next
  ready : ∃ p, s.process? next = some p ∧
    (if next = cur then p.state ≠ .blocked ∧ v = sp else p.isReady ∧ v = p.sp)
  edits : Edits (fun a p p' =>
    p' = (if a = next then Process.enter else id) ((if a = cur then Process.leave sp else id) p)) s
    s'

theorem Kernel.current_eq {n : Node} (h : s.node? s.currentNode = some n) : s.current = n.proc := by
  rw [Kernel.current, h]
  rfl

theorem Edits.current_eq {n : Node} (h : Edits R s s') (hn : s.node? s'.currentNode = some n) :
    s'.current = n.proc := by
  obtain ⟨n', hn', hproc⟩ := h.node_back _ n hn
  rw [Kernel.current_eq hn', hproc]

/-- The result of `scheduler` while the current process, `cp` on `cn`, has not been killed. A
blocked process stays only if the scheduler is disabled or there is one process. -/
def Scheduled (s : Kernel H) (cn : Node) (cp : Process) (sp v : ℕ) (s' : Kernel H) : Prop :=
  (Stays s s' cn.proc sp v ∧ (s.disableCount = 0 → s.counter ≠ 1 → cp.state ≠ .blocked)) ∨
    ∃ next, Switches s s' cn.proc next sp v

/-- `sp` has been saved in the process at `cur`. -/
def Saves (cur sp : ℕ) : ℕ → Process → Process → Prop :=
  fun a p p' => p' = if a = cur then { p with sp := sp } else p

theorem Saves.stays {cur sp : ℕ} (hglob : s'.toGlobals = s.toGlobals)
    (hedits : Edits (Saves cur sp) s s') : Stays s s' cur sp sp := by
  refine ⟨rfl, hglob, hedits.mono fun a p p' _ h => ?_⟩
  rw [Saves] at h
  split_ifs at h with ha
  · exact Or.inr ⟨ha, h⟩
  · exact Or.inl h

variable (hE : Lenient E)

include hE

/-- What is switched to was READY or NEW, is RUNNING, and starts with its priority as quantums. -/
theorem ends_dispatch {Q : Unit → Kernel H → Prop} {start : ℕ}
    (h : ∀ x n p, s.node? x = some n → s.process? n.proc = some p → p.isReady →
      Q () ((Kernel.put { s with currentNode := x } n.proc
        (.process { p with state := .running })).put x (.node { n with quantums := p.priority }))) :
    Ends Q E (dispatch start) s := by
  rw [dispatch, ends_bind]
  refine ends_findNextReady hE _ fun x n p hn hp hready => ?_
  rw [ends_bind, ends_modify, ends_bind]
  refine ends_currentProc hE fun n' hn' => ?_
  obtain rfl : n = n' := Option.some.inj (hn.symm.trans hn')
  rw [ends_bind]
  refine ends_editProc hE fun p' hp' => ?_
  obtain rfl : p = p' := Option.some.inj (hp.symm.trans hp')
  rw [ends_bind]
  refine ends_procAt hE fun p' hp' => ?_
  rw [process?_put_process, if_pos rfl] at hp'
  obtain rfl := Option.some.inj hp'
  rw [ends_bind, ends_get]
  refine ends_editNode hE fun n' hn' => ?_
  have hsame : (Kernel.put { s with currentNode := x } n.proc
      (.process { p with state := .running })).node? = s.node? :=
    node?_put_process (node?_of_process hp) _
  obtain rfl : n = n' := Option.some.inj (hn.symm.trans ((congrFun hsame x).symm.trans hn'))
  exact h x n p hn hp hready

/-- `schedulerSwitch` leaves a blocked process, and a running one that has used up its quantums or
wants to yield. -/
theorem ends_schedulerSwitch {Q : Unit → Kernel H → Prop} {n : Node} {p : Process}
    (hn : s.node? s.currentNode = some n) (hp : s.process? n.proc = some p)
    (hstay : p.state ≠ .blocked → Q () s)
    (hblocked : p.state = .blocked → Ends Q E (dispatch n.next) s)
    (hyield : p.state ≠ .blocked → Ends Q E (dispatch n.next)
      (Kernel.put { s with forceYield := 0 } n.proc (.process { p with state := .ready }))) :
    Ends Q E schedulerSwitch s := by
  rw [schedulerSwitch, ends_bind, ends_get, ends_bind]
  refine ends_nodeAt hE fun n' hn' => ?_
  obtain rfl : n = n' := Option.some.inj (hn.symm.trans hn')
  rw [ends_bind]
  refine ends_procAt hE fun p' hp' => ?_
  obtain rfl : p = p' := Option.some.inj (hp.symm.trans hp')
  split_ifs with hb
  · exact hblocked hb
  · rw [ends_bind, ends_get]
    split_ifs
    · rw [ends_bind, ends_modify, ends_bind]
      refine ends_editProc hE fun p' hp' => ?_
      obtain rfl : p = p' := Option.some.inj (hp.symm.trans hp')
      exact hyield hb
    · exact hstay hb

/-! ## `scheduler` -/

/-- `return currentNode->proc->sp` after a switch. -/
theorem ends_switches {cur sp start : ℕ} (henabled : s.disableCount = 0) (hseveral : s.counter ≠ 1)
    (hglob : s₁.toGlobals = { s.toGlobals with forceYield := s₁.forceYield })
    (hedits : Edits (fun a p p' => p' = (if a = cur then Process.leave sp else id) p) s s₁) :
    Ends (fun _ s₂ => Ends (fun v s' => ∃ next, Switches s s' cur next sp v) E
      (do return (← procAt (← currentProc)).sp) s₂) E (dispatch start) s₁ := by
  refine ends_dispatch hE fun x n p hn hp hready => ?_
  obtain ⟨p₀, hp₀, rfl⟩ := hedits.process _ _ hp
  obtain ⟨n₀, hn₀, hproc⟩ := hedits.node _ _ hn
  have hentered : Edits (fun a p p' => p' = (if a = n.proc then Process.enter else id)
      ((if a = cur then Process.leave sp else id) p)) _ _ :=
    (hedits.globals { s₁.toGlobals with currentNode := x }).put_process
    (q := Process.enter ((if n.proc = cur then Process.leave sp else id) p₀)) hp
    (fun b p p₁ hb h => by rw [if_neg hb, h]; rfl)
    (fun p hp' h => by
      rw [if_pos rfl, Option.some.inj (hp'.symm.trans hp₀)])
  have hnode := (congrFun (node?_put_process (s := { s₁ with currentNode := x })
    (node?_of_process hp) (Process.enter ((if n.proc = cur then Process.leave sp else id) p₀)))
    x).trans
    hn
  have hedits' := hentered.put_node hnode (m := { n with
    quantums := ((if n.proc = cur then Process.leave sp else id) p₀).priority }) rfl
  rw [ends_bind]
  refine ends_currentProc hE fun m hm => ?_
  obtain rfl := Option.some.inj (((node?_put_node _ _ _ _).trans (if_pos rfl)).symm.trans hm)
  rw [ends_bind]
  refine ends_procAt hE fun p' hp' => ?_
  have hp₁ := (congrFun (process?_put_node (process?_of_node hnode) { n with
    quantums := ((if n.proc = cur then Process.leave sp else id) p₀).priority }) n.proc).trans
      ((process?_put_process _ _ _ _).trans (if_pos rfl))
  obtain rfl := Option.some.inj (hp₁.symm.trans hp')
  refine ⟨n.proc, henabled, hseveral, ?_, ⟨n₀, hn₀, hproc.symm⟩, ⟨p₀, hp₀, ?_⟩, hedits'⟩
  · show ({ s₁.toGlobals with currentNode := x } : Globals) = _
    rw [hglob]
    rfl
  · by_cases hcur : n.proc = cur
    · rw [if_pos hcur] at hready ⊢
      rw [if_pos hcur]
      refine ⟨fun hb => ?_, rfl⟩
      simp [Process.isReady, Process.leave, hb] at hready
    · rw [if_neg hcur] at hready ⊢
      rw [if_neg hcur]
      exact ⟨hready, rfl⟩

/-- `schedulerSwitch`, and the return behind it, where `sp` has been saved. -/
theorem ends_saved {cn n : Node} {cp : Process} {sp : ℕ} (henabled : s.disableCount = 0)
    (hseveral : s.counter ≠ 1) (hcp : s.process? cn.proc = some cp)
    (hn : s₁.node? s₁.currentNode = some n) (hproc : n.proc = cn.proc)
    (hglob : s₁.toGlobals = s.toGlobals) (hedits : Edits (Saves cn.proc sp) s s₁) :
    Ends (fun _ s₂ => Ends (Scheduled s cn cp sp) E (do return (← procAt (← currentProc)).sp) s₂) E
      schedulerSwitch s₁ := by
  have hcp₁ : s₁.process? n.proc = some { cp with sp := sp } := by
    obtain ⟨p', hp', h⟩ := hedits.process_back _ _ hcp
    rw [hproc, hp', h, if_pos rfl]
  -- a blocked process and one that yields are left in the same way
  have hleft : ∀ {s₂ : Kernel H}, s₂.toGlobals = { s.toGlobals with forceYield := s₂.forceYield } →
      Edits (fun a p p' => p' = (if a = cn.proc then Process.leave sp else id) p) s s₂ →
      Ends (fun _ s₃ => Ends (Scheduled s cn cp sp) E (do return (← procAt (← currentProc)).sp) s₃)
        E (dispatch n.next) s₂ := fun hglob₂ hedits₂ =>
    (ends_switches hE henabled hseveral hglob₂ hedits₂).mono
      (fun _ _ h => h.mono (fun _ _ => Or.inr) fun _ _ => id) fun _ _ => id
  refine ends_schedulerSwitch hE hn hcp₁ (fun hb => ?_) (fun hb => ?_) fun hb => ?_
  · rw [ends_bind]
    refine ends_currentProc hE fun m hm => ?_
    obtain rfl := Option.some.inj (hn.symm.trans hm)
    rw [ends_bind]
    refine ends_procAt hE fun p hp => ?_
    obtain rfl := Option.some.inj (hcp₁.symm.trans hp)
    exact Or.inl ⟨Saves.stays hglob hedits, fun _ _ => hb⟩
  · refine hleft (by rw [hglob]) (hedits.mono fun a p p' hp h => ?_)
    rw [h]
    split_ifs with ha
    · obtain rfl := ha
      obtain rfl := Option.some.inj (hp.symm.trans hcp)
      rw [Process.leave, if_pos hb, ← hb]
    · rfl
  · refine hleft (by show ({ s₁.toGlobals with forceYield := 0 } : Globals) = _; rw [hglob]; rfl) ?_
    refine (hedits.globals { s₁.toGlobals with forceYield := 0 }).put_process hcp₁
      (fun b p p₁ hbn h => ?_) fun p hp h => ?_
    · rw [Saves, if_neg (hproc ▸ hbn)] at h
      rw [h, if_neg (hproc ▸ hbn)]
      rfl
    · obtain rfl := Option.some.inj (hp.symm.trans (hproc ▸ hcp))
      rw [if_pos hproc, Process.leave, if_neg hb]

variable [Allocator H]

/-- All that `scheduler` can do while the current process has not been killed. -/
theorem ends_scheduler {force : Op H Unit} {cn : Node} {cp : Process} {sp : ℕ}
    (hcn : s.node? s.currentNode = some cn) (hcp : s.process? cn.proc = some cp)
    (halive : cp.state ≠ .killed) :
    Ends (Scheduled s cn cp sp) E (scheduler force sp) s := by
  have hsaved : Edits (Saves cn.proc sp) s (s.put cn.proc (.process { cp with sp := sp })) := by
    refine Edits.put_process (Edits.refl (R := fun _ p p' => p' = p) (fun _ _ => rfl) s) hcp
      (fun b p p₁ hb h => ?_) fun p _ h => ?_
    · rw [Saves, if_neg hb, h]
    · rw [Saves, if_pos rfl, h]
  rw [scheduler, ends_bind, ends_get]
  split_ifs with hdis
  · rw [ends_bind]
    refine ends_currentProc hE fun n hn => ?_
    obtain rfl : cn = n := Option.some.inj (hcn.symm.trans hn)
    rw [ends_bind]
    refine ends_editProc hE fun p hp => ?_
    obtain rfl : cp = p := Option.some.inj (hcp.symm.trans hp)
    exact Or.inl ⟨Saves.stays rfl hsaved, fun h => absurd h hdis⟩
  rw [ends_bind, ends_get]
  split_ifs with hone
  · exact Or.inl ⟨⟨rfl, rfl, Edits.refl (fun _ _ => Or.inl rfl) s⟩, fun _ h => absurd hone h⟩
  rw [ends_bind]
  refine ends_currentProc hE fun n hn => ?_
  obtain rfl : cn = n := Option.some.inj (hcn.symm.trans hn)
  rw [ends_bind]
  refine ends_editProc hE fun p hp => ?_
  obtain rfl : cp = p := Option.some.inj (hcp.symm.trans hp)
  have hcn₁ :=
    (congrFun (node?_put_process (node?_of_process hcp) { cp with sp := sp }) _).trans hcn
  have hcp₁ := (process?_put_process s cn.proc cn.proc { cp with sp := sp }).trans (if_pos rfl)
  have hglob₁ : (s.put cn.proc (.process { cp with sp := sp })).toGlobals = s.toGlobals := rfl
  generalize s.put cn.proc (.process { cp with sp := sp }) = s₁ at *
  have hcur₁ : s₁.currentNode = s.currentNode := by rw [hglob₁]
  rw [← hcur₁] at hcn₁
  rw [ends_bind, schedulerRun, ends_bind]
  refine ends_currentProc hE fun n hn => ?_
  obtain rfl := Option.some.inj (hcn₁.symm.trans hn)
  rw [ends_bind]
  refine ends_procAt hE fun p hp => ?_
  obtain rfl := Option.some.inj (hcp₁.symm.trans hp)
  have henabled : s.disableCount = 0 := not_not.mp hdis
  cases hstate : cp.state with
  | killed => exact absurd hstate halive
  | running =>
    rw [ends_bind, ends_get, ends_bind]
    refine ends_editNode hE fun n hn => ?_
    obtain rfl := Option.some.inj (hcn₁.symm.trans hn)
    exact ends_saved hE henabled hone hcp ((node?_put_node _ _ _ _).trans (if_pos rfl)) rfl hglob₁
      (hsaved.put_node hcn₁ rfl)
  | ready => exact ends_saved hE henabled hone hcp hcn₁ rfl hglob₁ hsaved
  | blocked => exact ends_saved hE henabled hone hcp hcn₁ rfl hglob₁ hsaved
  | new => exact ends_saved hE henabled hone hcp hcn₁ rfl hglob₁ hsaved

end TronKernel.Sched
