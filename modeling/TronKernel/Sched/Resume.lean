import TronKernel.Sched.Boot
import TronKernel.Sched.Switch

/-!
# Where a process goes on

Runs of `scheduler` with any stack pointers, and of the calls that only make processes or assign to
their fields. A call that forces the scheduler ends there: the interrupt is the next step of the
run, or another one, so that the runs here are more than those of the kernel. Beside the kernel a
run carries its history: the stack pointers that `scheduler` was given, each with the process that
was current, and the processes that have been current. A process is named by its address, since none
goes away.
-/

namespace TronKernel.Sched.Resume

open Programs Sem

variable {H : Type} {s s' s₁ : Kernel H}

/-! ## Runs -/

/-- A step of a run. -/
inductive Call where
  | schedule (sp : ℕ)
  | addProcess (name : ℕ) (argv : List (List UInt8)) (readFd writeFd priority isForeground : ℕ)
  | readyProcess (pid : ℕ)
  | blockProcess (pid : ℕ)
  | changePriority (pid priority : ℕ)
  | schedulerDisable
  | schedulerEnable
  | forceCurrentYield

/-- A kernel with its history, the latest first. -/
structure Traced (H : Type) where
  kernel : Kernel H
  calls : List (ℕ × ℕ)
  been : List ℕ

/-- The history after a step. -/
def Traced.after (t : Traced H) (c : Call) (s : Kernel H) : Traced H where
  kernel := s
  calls :=
    match c with
    | .schedule sp => (t.kernel.current, sp) :: t.calls
    | _ => t.calls
  been := s.current :: t.been

variable [Allocator H]

/-- The code of a step. -/
def Call.run : Call → Op H Unit
  | .schedule sp => do let _ ← scheduler interrupt sp
  | .addProcess name argv readFd writeFd priority isForeground => do
    let _ ← Sched.addProcess interrupt name argv readFd writeFd priority isForeground
  | .readyProcess pid => do let _ ← Sched.readyProcess pid
  | .blockProcess pid => do let _ ← Sched.blockProcess interrupt pid
  | .changePriority pid priority => do let _ ← Sched.changePriority pid priority
  | .schedulerDisable => Sched.schedulerDisable
  | .schedulerEnable => Sched.schedulerEnable
  | .forceCurrentYield => Sched.forceCurrentYield interrupt

/-- The states of the runs from `init_scheduler`, which has found memory for its node. -/
inductive Reachable : Traced H → Prop
  | start {s s' : Kernel H} {idle : ℕ} (hs : Booting s)
    (h : initScheduler interrupt idle s = .ok () s') (hfirst : s'.first ≠ 0) :
    Reachable ⟨s', [], [s'.current]⟩
  | step {t : Traced H} {c : Call} {s' : Kernel H} (ht : Reachable t)
    (h : Leads c.run t.kernel s') : Reachable (t.after c s')

/-! ## The invariant -/

/-- A process that is not current has its latest stack pointer saved, or its first one if it has
never been current. -/
structure Saved (t : Traced H) : Prop where
  within : Within t.kernel
  current : ∃ n p, t.kernel.node? t.kernel.currentNode = some n ∧ t.kernel.process? n.proc = some p
  alive : ∀ a p, t.kernel.process? a = some p → p.state ≠ .killed
  pidc : MutexFree t.kernel.semaphores PIDC_MUTEX.bytes
  proc : MutexFree t.kernel.semaphores PROC_MUTEX.bytes
  saved : ∀ a p, t.kernel.process? a = some p → a ≠ t.kernel.current →
    p.sp = (t.calls.lookup a).getD p.initialSp
  been : ∀ a ∈ t.been, (t.kernel.process? a).isSome
  called : ∀ a ∈ t.been, a ≠ t.kernel.current → (t.calls.lookup a).isSome
  logged : ∀ a, (t.calls.lookup a).isSome → a ∈ t.been
  been_current : t.kernel.current ∈ t.been

/-- What every step but `scheduler` leaves alone. -/
structure Quiet (s s' : Kernel H) : Prop where
  within : Within s'
  currentNode : s'.currentNode = s.currentNode
  semaphores : s'.semaphores = s.semaphores
  node : ∀ a n, s.node? a = some n → ∃ n', s'.node? a = some n' ∧ n'.proc = n.proc
  process : ∀ a p, s.process? a = some p → ∃ p', s'.process? a = some p' ∧
    p'.sp = p.sp ∧ p'.stack = p.stack ∧ (p.state ≠ .killed → p'.state ≠ .killed)
  new : ∀ a p', s'.process? a = some p' → s.process? a = none →
    p'.sp = p'.initialSp ∧ p'.state ≠ .killed

theorem Quiet.current_eq (h : Quiet s s') {n : Node} (hn : s.node? s.currentNode = some n) :
    s'.current = s.current := by
  obtain ⟨n', hn', hproc⟩ := h.node _ n hn
  rw [Kernel.current, Kernel.current, h.currentNode, hn', hn]
  exact hproc

/-- Such a step keeps the invariant. -/
theorem Saved.quiet {t : Traced H} (h : Saved t) (hq : Quiet t.kernel s') :
    Saved ⟨s', t.calls, s'.current :: t.been⟩ := by
  obtain ⟨n, p, hn, hp⟩ := h.current
  have hcur := hq.current_eq hn
  have hkept : ∀ a, (t.kernel.process? a).isSome → (s'.process? a).isSome := by
    intro a ha
    obtain ⟨p, hp⟩ := Option.isSome_iff_exists.mp ha
    obtain ⟨p', hp', -⟩ := hq.process a p hp
    exact Option.isSome_iff_exists.mpr ⟨p', hp'⟩
  have hbeen : ∀ a ∈ s'.current :: t.been, a ∈ t.been := by
    intro a ha
    rcases List.mem_cons.mp ha with rfl | ha
    · exact hcur ▸ h.been_current
    · exact ha
  constructor
  · exact hq.within
  · obtain ⟨n', hn', hproc⟩ := hq.node _ n hn
    obtain ⟨p', hp', -⟩ := hq.process _ p hp
    exact ⟨n', p', hq.currentNode ▸ hn', hproc ▸ hp'⟩
  · intro a p' hp'
    cases hold : t.kernel.process? a with
    | none => exact (hq.new a p' hp' hold).2
    | some p =>
      obtain ⟨q, hq', -, -, halive⟩ := hq.process a p hold
      obtain rfl := Option.some.inj (hp'.symm.trans hq')
      exact halive (h.alive a p hold)
  · exact hq.semaphores ▸ h.pidc
  · exact hq.semaphores ▸ h.proc
  · intro a p' hp' hne
    cases hold : t.kernel.process? a with
    | none =>
      -- a new process has never been current
      have hnone : t.calls.lookup a = none := by
        cases hlog : t.calls.lookup a with
        | none => rfl
        | some v =>
          have := h.been a (h.logged a (by rw [hlog]; rfl))
          rw [hold] at this
          exact absurd this (by simp)
      show p'.sp = (t.calls.lookup a).getD p'.initialSp
      rw [hnone, (hq.new a p' hp' hold).1]
      rfl
    | some p =>
      obtain ⟨q, hq', hsp, hstack, -⟩ := hq.process a p hold
      obtain rfl := Option.some.inj (hp'.symm.trans hq')
      have hinit := initialSp_congr hstack
      show p'.sp = (t.calls.lookup a).getD p'.initialSp
      rw [hinit, hsp]
      exact h.saved a p hold (hcur ▸ hne)
  · exact fun a ha => hkept a (h.been a (hbeen a ha))
  · exact fun a ha hne => h.called a (hbeen a ha) (hcur ▸ hne)
  · exact fun a ha => List.mem_cons_of_mem _ (h.logged a ha)
  · exact List.mem_cons_self

/-! ## The steps -/

theorem quiet_of_edits {R : ℕ → Process → Process → Prop} (hs : Within s) (h : Edits R s s')
    (hcur : s'.currentNode = s.currentNode) (hsem : s'.semaphores = s.semaphores)
    (hR : ∀ a p p', R a p p' →
      p'.sp = p.sp ∧ p'.stack = p.stack ∧ (p.state ≠ .killed → p'.state ≠ .killed)) :
    Quiet s s' where
  within := h.within hs
  currentNode := hcur
  semaphores := hsem
  node := h.node_back
  process a p hp := (h.process_back a p hp).imp fun p' hp' => ⟨hp'.1, hR a p p' hp'.2⟩
  new a p' hp' hnone := by
    obtain ⟨p, hp, -⟩ := h.process a p' hp'
    rw [hnone] at hp
    exact absurd hp (by simp)

/-- Other globals are not looked at. -/
theorem Quiet.refl (hs : Within s) (hcur : s'.currentNode = s.currentNode)
    (hsem : s'.semaphores = s.semaphores) (hheap : s'.heap = s.heap) (hmem : s'.mem = s.mem) :
    Quiet s s' := by
  obtain ⟨g, heap, mem⟩ := s'
  obtain rfl : heap = s.heap := hheap
  obtain rfl : mem = s.mem := hmem
  exact quiet_of_edits hs ((Edits.refl (R := fun _ p p' => p' = p) (fun _ _ => rfl) s).globals g)
    hcur hsem fun _ _ _ h => by subst h; exact ⟨rfl, rfl, id⟩

/-- An assignment to a process's other fields. -/
theorem Quiet.put {a : ℕ} {p q : Process} {g : Globals} (hs : Within s)
    (hp : s.process? a = some p) (hsp : q.sp = p.sp) (hstack : q.stack = p.stack)
    (halive : q.state ≠ .killed) (hcur : g.currentNode = s.currentNode)
    (hsem : g.semaphores = s.semaphores) :
    Quiet s { s.put a (.process q) with toGlobals := g } := by
  have hedits : Edits (fun _ p p' => p' = p ∨
      p'.sp = p.sp ∧ p'.stack = p.stack ∧ p'.state ≠ .killed) s (s.put a (.process q)) := by
    refine (Edits.refl (fun _ _ => Or.inl rfl) s).put_process hp (fun _ _ _ _ h => h)
      fun p' hp' _ => ?_
    obtain rfl := Option.some.inj (hp.symm.trans hp')
    exact Or.inr ⟨hsp, hstack, halive⟩
  refine quiet_of_edits hs (hedits.globals g) hcur hsem fun _ p p' h => ?_
  rcases h with rfl | ⟨h₁, h₂, h₃⟩
  · exact ⟨rfl, rfl, id⟩
  · exact ⟨h₁, h₂, fun _ => h₃⟩

theorem quiet_of_added {cn : Node} {cp p : Process} {proc newNode : ℕ} {args own : List ℕ}
    (h : Added s s' cn cp p proc newNode args own) (hs : Within s)
    (hcn : s.node? s.currentNode = some cn) (hcp : s.process? cn.proc = some cp)
    (hsp : p.sp = p.initialSp) (hstate : p.state ≠ .killed)
    (hcur : s'.currentNode = s.currentNode) (hsem : s'.semaphores = s.semaphores) : Quiet s s' where
  within := h.within
  currentNode := hcur
  semaphores := hsem
  node a n hn := by
    have hlive := hs.node_live hn
    rw [h.node?]
    split_ifs with h0 hnew hac
    · exact ⟨n, hn, rfl⟩
    · refine absurd (hnew ▸ hlive) (h.fresh.not_live newNode (by simp [h0]))
    · rw [hac, hcn] at hn
      obtain rfl := Option.some.inj hn
      exact ⟨_, rfl, rfl⟩
    · exact ⟨n, hn, rfl⟩
  process a q hq := by
    have hlive := hs.process_live hq
    rw [h.process?]
    split_ifs with hnew hac
    · exact absurd (hnew ▸ hlive) (h.fresh.not_live proc (by simp))
    · rw [hac, hcp] at hq
      obtain rfl := Option.some.inj hq
      exact ⟨_, rfl, rfl, rfl, id⟩
    · exact ⟨q, hq, rfl, rfl, id⟩
  new a p' hp' hnone := by
    rw [h.process?] at hp'
    split_ifs at hp' with hnew hac
    · obtain rfl := Option.some.inj hp'
      exact ⟨hsp, hstate⟩
    · rw [hac, hcp] at hnone
      exact absurd hnone (by simp)
    · rw [hnone] at hp'
      exact absurd hp' (by simp)

/-- Every step but `scheduler` is quiet. -/
theorem Saved.ends_quiet {t : Traced H} (h : Saved t) {c : Call} (hc : ∀ sp, c ≠ .schedule sp) :
    Ends (fun _ => Quiet t.kernel) (WhenSwitched (Quiet t.kernel)) c.run t.kernel := by
  have hE : Lenient (WhenSwitched (Quiet t.kernel)) := lenient_whenSwitched _
  have hrefl : ∀ g : Globals, g.currentNode = t.kernel.currentNode →
      g.semaphores = t.kernel.semaphores → Quiet t.kernel { t.kernel with toGlobals := g } :=
    fun g hcur hsem => Quiet.refl h.within hcur hsem rfl rfl
  obtain ⟨cn, cp, hcn, hcp⟩ := h.current
  cases c with
  | schedule sp => exact absurd rfl (hc sp)
  | addProcess name argv readFd writeFd priority isForeground =>
    rw [Call.run, ends_bind]
    refine ends_addProcess hE h.within h.pidc h.proc hcn hcp
      fun s' proc newNode args own saved stack d hadd _ hglob _ => ?_
    refine quiet_of_added hadd h.within hcn hcp (newProc_sp ..) (by simp [newProc]) ?_ ?_
    · rw [hglob, Globals.promote]
      split_ifs <;> rfl
    · rw [hglob, Globals.promote]
      split_ifs <;> rfl
  | readyProcess pid =>
    rw [Call.run, ends_bind]
    exact ends_readyProcess hE (hrefl _ rfl rfl) fun a p _ hp _ =>
      Quiet.put h.within hp rfl rfl (by simp) rfl rfl
  | blockProcess pid =>
    rw [Call.run, ends_bind]
    refine ends_blockProcess hE (hrefl _ rfl rfl) fun a p hp _ => ?_
    exact fun _ => Quiet.put (g := t.kernel.toGlobals) h.within hp rfl rfl (by simp) rfl rfl
  | changePriority pid priority =>
    rw [Call.run, ends_bind]
    exact ends_changePriority hE (hrefl _ rfl rfl) fun a p _ hp _ =>
      Quiet.put (g := t.kernel.toGlobals) h.within hp rfl rfl (h.alive a p hp) rfl rfl
  | schedulerDisable => exact ends_schedulerDisable hE fun d _ => hrefl _ rfl rfl
  | schedulerEnable => exact ends_of_ok schedulerEnable_ok (hrefl _ rfl rfl)
  | forceCurrentYield =>
    rw [Call.run, Sched.forceCurrentYield, ends_bind, ends_modify]
    exact fun _ => hrefl _ rfl rfl

/-- A call of `scheduler` that saves `sp` if it leaves the current process. -/
theorem Saved.edited {t : Traced H} (h : Saved t) {sp : ℕ} {R : ℕ → Process → Process → Prop}
    (hedits : Edits R t.kernel s') (hsem : s'.semaphores = t.kernel.semaphores) {n : Node}
    {p : Process}
    (hn : t.kernel.node? s'.currentNode = some n) (hp : t.kernel.process? n.proc = some p)
    (hR : ∀ a p p', R a p p' → p'.stack = p.stack ∧ (p.state ≠ .killed → p'.state ≠ .killed) ∧
      (a ≠ t.kernel.current → p'.sp = p.sp) ∧
      (a = t.kernel.current → a ≠ s'.current → p'.sp = sp)) :
    Saved (t.after (.schedule sp) s') := by
  have hcur : s'.current = n.proc := hedits.current_eq hn
  have hlookup : ∀ a, ((t.kernel.current, sp) :: t.calls).lookup a =
      if a = t.kernel.current then some sp else t.calls.lookup a := by
    intro a
    rw [List.lookup_cons]
    by_cases ha : a = t.kernel.current
    · simp [ha]
    · rw [if_neg ha, beq_eq_false_iff_ne.mpr ha]
  constructor
  · exact hedits.within h.within
  · obtain ⟨n', hn', hproc⟩ := hedits.node_back _ n hn
    obtain ⟨p', hp', -⟩ := hedits.process_back _ p hp
    exact ⟨n', p', hn', hproc ▸ hp'⟩
  · intro a p' hp'
    obtain ⟨p, hp, hrel⟩ := hedits.process a p' hp'
    exact (hR a p p' hrel).2.1 (h.alive a p hp)
  · exact hsem ▸ h.pidc
  · exact hsem ▸ h.proc
  · intro a p' hp' hne
    obtain ⟨p, hp, hrel⟩ := hedits.process a p' hp'
    obtain ⟨hstack, -, hother, hself⟩ := hR a p p' hrel
    show p'.sp = (((t.kernel.current, sp) :: t.calls).lookup a).getD p'.initialSp
    rw [hlookup, initialSp_congr hstack]
    split_ifs with ha
    · exact hself ha hne
    · rw [hother ha]
      exact h.saved a p hp ha
  · intro a ha
    rcases List.mem_cons.mp ha with rfl | ha
    · obtain ⟨p', hp', -⟩ := hedits.process_back _ p hp
      exact Option.isSome_iff_exists.mpr ⟨p', hcur ▸ hp'⟩
    · obtain ⟨p, hp⟩ := Option.isSome_iff_exists.mp (h.been a ha)
      obtain ⟨p', hp', -⟩ := hedits.process_back _ p hp
      exact Option.isSome_iff_exists.mpr ⟨p', hp'⟩
  · intro a ha hne
    show (((t.kernel.current, sp) :: t.calls).lookup a).isSome
    rw [hlookup]
    split_ifs with hac
    · rfl
    · rcases List.mem_cons.mp ha with rfl | ha
      · exact absurd rfl hne
      · exact h.called a ha hac
  · intro a ha
    replace ha : (((t.kernel.current, sp) :: t.calls).lookup a).isSome := ha
    rw [hlookup] at ha
    refine List.mem_cons_of_mem _ ?_
    split_ifs at ha with hac
    · exact hac ▸ h.been_current
    · exact h.logged a ha
  · exact List.mem_cons_self

/-- `scheduler` keeps the invariant, and returns the stack pointer of the process it leaves
current. -/
theorem Saved.scheduled {t : Traced H} (h : Saved t) {cn : Node} {cp : Process} {sp v : ℕ}
    (hcn : t.kernel.node? t.kernel.currentNode = some cn)
    (hcp : t.kernel.process? cn.proc = some cp) (hs : Scheduled t.kernel cn cp sp v s') :
    Saved (t.after (.schedule sp) s') ∧ (s'.current = t.kernel.current → v = sp) ∧
      (s'.current ≠ t.kernel.current → ∃ p, s'.process? s'.current = some p ∧
        v = (t.calls.lookup s'.current).getD p.initialSp) := by
  have hcur := Kernel.current_eq hcn
  rcases hs with ⟨⟨hv, hglob, hedits⟩, -⟩ | ⟨next, hsw⟩
  · have hcurn : s'.currentNode = t.kernel.currentNode := by rw [hglob]
    have hcur' : s'.current = t.kernel.current := by
      rw [hedits.current_eq (hcurn ▸ hcn), hcur]
    refine ⟨h.edited hedits (by rw [hglob]) (hcurn ▸ hcn) hcp fun a p p' hrel => ?_, fun _ => hv,
      fun hne => absurd hcur' hne⟩
    rcases hrel with rfl | ⟨ha, rfl⟩
    · exact ⟨rfl, id, fun _ => rfl, fun ha hne => absurd (ha.trans hcur'.symm) hne⟩
    · exact ⟨rfl, id, fun hne => absurd (ha.trans hcur.symm) hne, fun _ _ => rfl⟩
  · obtain ⟨n, hn, rfl⟩ := hsw.node
    have hcur' : s'.current = n.proc := hsw.edits.current_eq hn
    obtain ⟨p, hp, hready⟩ := hsw.ready
    refine ⟨h.edited hsw.edits (by rw [hsw.globals]) hn hp fun a q q' hrel => ?_, fun heq => ?_,
      fun hne => ?_⟩
    · rw [hcur, hcur']
      subst hrel
      refine ⟨?_, ?_, fun hne => ?_, fun heq hne => ?_⟩
      · split_ifs <;> rfl
      · split_ifs <;> simp [Process.enter, Process.leave]
        split_ifs <;> simp
      · rw [if_neg hne]
        split_ifs <;> rfl
      · rw [if_neg hne, if_pos heq]
        rfl
    · rw [hcur', hcur] at heq
      rw [if_pos heq] at hready
      exact hready.2
    · rw [hcur', hcur] at hne
      rw [if_neg hne] at hready
      obtain ⟨p', hp', hrel⟩ := hsw.edits.process_back _ p hp
      rw [if_pos rfl, if_neg hne] at hrel
      refine ⟨p', hcur' ▸ hp', ?_⟩
      rw [hready.2, h.saved _ p hp (hcur ▸ hne), hcur',
        initialSp_congr (hrel ▸ rfl : p'.stack = p.stack)]

theorem saved_start {idle : ℕ} (hs : Booting s) (h : initScheduler interrupt idle s = .ok () s')
    (hfirst : s'.first ≠ 0) : Saved ⟨s', [], [s'.current]⟩ := by
  have hend : Ends (fun _ s' => s'.first ≠ 0 → Saved ⟨s', [], [s'.current]⟩) (fun _ _ => True)
      (initScheduler interrupt idle) s := by
    refine ends_initScheduler lenient_true hs (fun s' hglob h0 => ?_)
      fun s' node proc argv stack args own hb _ => ?_
    · exact absurd (by rw [hglob, hs.first]) h0
    · have hglob := hb.globals
      have hnode : s'.node? s'.currentNode = some ⟨MAX_QUANTUM, proc, node⟩ := by
        rw [hglob, hb.node?, if_pos rfl]
      have hprocess := (hb.process? proc).trans (if_pos rfl)
      have hcur : s'.current = proc := Kernel.current_eq hnode
      have honly : ∀ a p, s'.process? a = some p → a = proc ∧ p = idleProc idle argv stack := by
        intro a p hp
        rw [hb.process?] at hp
        split_ifs at hp with ha
        exact ⟨ha, (Option.some.inj hp).symm⟩
      constructor
      · exact hb.within
      · exact ⟨_, _, hnode, hprocess⟩
      · intro a p hp
        rw [(honly a p hp).2]
        simp [idleProc]
      · show MutexFree s'.semaphores _
        rw [hglob]
        exact bootTable_pidc
      · show MutexFree s'.semaphores _
        rw [hglob]
        exact bootTable_proc
      · exact fun a p hp hne => absurd ((honly a p hp).1.trans hcur.symm) hne
      · intro a ha
        rw [List.mem_singleton.mp ha, hcur]
        show (s'.process? proc).isSome
        rw [hprocess]
        rfl
      · exact fun a ha hne => absurd (List.mem_singleton.mp ha) hne
      · exact fun a ha => by simp at ha
      · exact List.mem_singleton_self _
  exact hend.of_ok h hfirst

/-- The invariant holds in every run. -/
theorem Reachable.saved {t : Traced H} (ht : Reachable t) : Saved t := by
  induction ht with
  | start hs h hfirst => exact saved_start hs h hfirst
  | @step t c s' _ h ih =>
    cases c with
    | schedule sp =>
      obtain ⟨cn, cp, hcn, hcp⟩ := ih.current
      refine h.holds (I := fun s' => Saved (t.after (.schedule sp) s')) ?_
      rw [Call.run, ends_bind]
      have hsched : Ends (Scheduled t.kernel cn cp sp)
          (WhenSwitched fun s' => Saved (t.after (.schedule sp) s')) (scheduler interrupt sp)
          t.kernel :=
        ends_scheduler (lenient_whenSwitched _) hcn hcp (ih.alive _ cp hcp)
      exact hsched.mono (fun v s' hs => (ih.scheduled hcn hcp hs).1) fun _ _ => id
    | _ =>
      refine ih.quiet (h.holds (ih.ends_quiet ?_))
      simp

/-- In every run, whenever `scheduler` makes another process current, it returns the stack pointer
that the last call of `scheduler` during that process's time was given, or the process's first one
if it has never been current. Whenever it keeps the current process, it returns what it was
given. -/
theorem resumes_where_it_stopped {t : Traced H} (ht : Reachable t) {sp v : ℕ} {s' : Kernel H}
    (h : scheduler interrupt sp t.kernel = .ok v s') :
    (s'.current = t.kernel.current → v = sp) ∧
      (s'.current ≠ t.kernel.current →
        (s'.current ∈ t.been → t.calls.lookup s'.current = some v) ∧
        (s'.current ∉ t.been → ∃ p, s'.process? s'.current = some p ∧ v = p.initialSp)) := by
  have hsaved := ht.saved
  obtain ⟨cn, cp, hcn, hcp⟩ := hsaved.current
  have hsched : Ends (Scheduled t.kernel cn cp sp) (fun _ _ => True) (scheduler interrupt sp)
      t.kernel :=
    ends_scheduler lenient_true hcn hcp (hsaved.alive _ cp hcp)
  obtain ⟨-, hsame, hother⟩ := hsaved.scheduled hcn hcp (hsched.of_ok h)
  refine ⟨hsame, fun hne => ?_⟩
  obtain ⟨p, hp, hv⟩ := hother hne
  refine ⟨fun hbeen => ?_, fun hbeen => ⟨p, hp, ?_⟩⟩
  · obtain ⟨w, hw⟩ := Option.isSome_iff_exists.mp (hsaved.called _ hbeen hne)
    rw [hv, hw]
    rfl
  · have hnone : t.calls.lookup s'.current = none := by
      by_contra hsome
      exact hbeen (hsaved.logged _ (Option.isSome_iff_ne_none.mpr hsome))
    rw [hv, hnone]
    rfl

/-! ## A run -/

/-- The run of some calls. No call changes the semaphores in the end. -/
def Traced.replay : List Call → Traced H → Option (Traced H)
  | [], t => some t
  | c :: cs, t => (outcome c.run t.kernel).bind fun s =>
    (t.after c { s with semaphores := t.kernel.semaphores }).replay cs

theorem Reachable.semaphores {t : Traced H} (ht : Reachable t) {c : Call}
    (h : Leads c.run t.kernel s') : s'.semaphores = t.kernel.semaphores := by
  have hsaved := ht.saved
  cases c with
  | schedule sp =>
    obtain ⟨cn, cp, hcn, hcp⟩ := hsaved.current
    refine h.holds (I := fun s' => s'.semaphores = t.kernel.semaphores) ?_
    rw [Call.run, ends_bind]
    refine (ends_scheduler (lenient_whenSwitched _) hcn hcp (hsaved.alive _ cp hcp)).mono
      (fun v s' hs => ?_) fun _ _ => id
    rcases hs with ⟨hstay, -⟩ | ⟨next, hswitch⟩
    · show s'.semaphores = _
      rw [hstay.globals]
    · show s'.semaphores = _
      rw [hswitch.globals]
  | _ => exact (h.holds (hsaved.ends_quiet (by simp))).semaphores

theorem Reachable.replay {cs : List Call} {t t' : Traced H} (ht : Reachable t)
    (h : t.replay cs = some t') : Reachable t' := by
  induction cs generalizing t with
  | nil => exact Option.some.inj h ▸ ht
  | cons c cs ih =>
    rw [Traced.replay, Option.bind_eq_some_iff] at h
    obtain ⟨s, hs, h⟩ := h
    have hl := leads_outcome hs
    have hsem : ({ s with semaphores := t.kernel.semaphores } : Kernel H) = s := by
      rw [← ht.semaphores hl]
    rw [hsem] at h
    exact ih (ht.step hl) h

/-- The idle process makes another one and is switched away from. Then it is woken, the other one is
blocked, and the idle process goes on where it was. -/
def handOver : Option (Traced FirstFitHeap) :=
  booted.bind fun s => Traced.replay
    [.addProcess 0 [] 0 1 3 0, .blockProcess 0, .schedule 111, .readyProcess 0, .blockProcess 1]
    ⟨s, [], [s.current]⟩

theorem resumes_where_it_stopped_twice : ∃ (t : Traced FirstFitHeap) (s' : Kernel FirstFitHeap),
    Reachable t ∧ scheduler interrupt 222 t.kernel = .ok 111 s' ∧ s'.current ≠ t.kernel.current ∧
      t.calls.lookup s'.current = some 111 := by
  have hrun : (handOver.map fun t => match scheduler interrupt 222 t.kernel with
      | .ok v s' => (v, decide (s'.current ≠ t.kernel.current ∧ s'.current ∈ t.been))
      | .error _ _ => (0, false)) = some (111, true) := by decide +kernel
  obtain ⟨t, ht, hcheck⟩ := Option.map_eq_some_iff.mp hrun
  obtain ⟨s, hs, hreplay⟩ := Option.bind_eq_some_iff.mp ht
  have hfirst : s.first ≠ 0 := by simpa [hs] using booted_first
  have hinit := initScheduler_of_outcome booting_loaded hs hfirst
  have hreach := (Reachable.start booting_loaded hinit hfirst).replay hreplay
  cases hend : scheduler interrupt 222 t.kernel with
  | error e s' =>
    rw [hend] at hcheck
    simp at hcheck
  | ok v s' =>
    rw [hend] at hcheck
    obtain ⟨rfl, hnext⟩ := Prod.mk.inj hcheck
    obtain ⟨hne, hbeen⟩ := of_decide_eq_true hnext
    exact ⟨t, s', hreach, hend, hne, ((resumes_where_it_stopped hreach hend).2 hne).1 hbeen⟩

end TronKernel.Sched.Resume
