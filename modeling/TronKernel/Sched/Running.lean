import TronKernel.Sched.Create
import TronKernel.Sched.Switch

/-!
# The process that runs

The state RUNNING belongs to the current process alone while the calls go on: `scheduler` hands it
over, and nobody makes the current process READY but a `ready_process` with its own pid. Semaphores
and pipes call `ready_process` for the pids in their lists. `_force_scheduler` is the real one here:
a call goes on if `scheduler` keeps the process.
-/

namespace TronKernel.Sched

open Programs Sem

variable {H : Type} [Allocator H] {s s' s₁ t u : Kernel H} {a c q idx depth : ℕ} {st : States}
  {name : List UInt8}

/-! ## The current process -/

/-- The current process is the one at `c`, with pid `q` and in state `st`, and no other is
RUNNING. -/
structure Current (st : States) (c q : ℕ) (s : Kernel H) : Prop where
  within : Within s
  node : ∃ n, s.node? s.currentNode = some n ∧ n.proc = c
  process : ∃ p, s.process? c = some p ∧ p.pid = q ∧ p.state = st
  alone : ∀ a p, s.process? a = some p → p.state = .running → a = c
  alive : ∀ a p, s.process? a = some p → p.state ≠ .killed

/-- The current process is RUNNING, and it is the only one. -/
def OneRuns (s : Kernel H) : Prop := s.disableCount = 0 ∧ ∃ c q, Current .running c q s

theorem Current.globals (h : Current st c q s) {g : Globals}
    (hcur : g.currentNode = s.currentNode) : Current st c q { s with toGlobals := g } where
  within := h.within
  node := by
    obtain ⟨n, hn, hproc⟩ := h.node
    refine ⟨n, ?_, hproc⟩
    show s.node? g.currentNode = some n
    rw [hcur, hn]
  process := h.process
  alone := h.alone
  alive := h.alive

/-- Assignments that do not touch the state of the current process and stop no other. -/
theorem Current.edits {R : ℕ → Process → Process → Prop} (h : Current st c q s) (he : Edits R s s')
    (hcur : s'.currentNode = s.currentNode)
    (hself : ∀ p p', s.process? c = some p → R c p p' → p'.pid = p.pid ∧ p'.state = p.state)
    (hother : ∀ a p p', a ≠ c → s.process? a = some p → R a p p' →
      p'.state = p.state ∨ p'.state = .ready ∨ p'.state = .blocked) : Current st c q s' where
  within := he.within h.within
  node := by
    obtain ⟨n, hn, hproc⟩ := h.node
    obtain ⟨n', hn', hproc'⟩ := he.node_back _ n hn
    exact ⟨n', hcur ▸ hn', hproc'.trans hproc⟩
  process := by
    obtain ⟨p, hp, hpid, hstate⟩ := h.process
    obtain ⟨p', hp', hR⟩ := he.process_back _ p hp
    obtain ⟨hpid', hstate'⟩ := hself p p' hp hR
    exact ⟨p', hp', hpid'.trans hpid, hstate'.trans hstate⟩
  alone a p' hp' hrunning := by
    by_contra hne
    obtain ⟨p, hp, hR⟩ := he.process a p' hp'
    rcases hother a p p' hne hp hR with hsame | hready | hblocked
    · exact hne (h.alone a p hp (hsame ▸ hrunning))
    · simp [hready] at hrunning
    · simp [hblocked] at hrunning
  alive a p' hp' := by
    obtain ⟨p, hp, hR⟩ := he.process a p' hp'
    by_cases ha : a = c
    · subst ha
      rw [(hself p p' hp hR).2]
      exact h.alive a p hp
    · rcases hother a p p' ha hp hR with hsame | hready | hblocked
      · rw [hsame]
        exact h.alive a p hp
      · simp [hready]
      · simp [hblocked]

/-- The assignments that a call makes to other processes. -/
def Assigns (c : ℕ) (a : ℕ) (p p' : Process) : Prop :=
  p' = p ∨ a ≠ c ∧ (p' = { p with state := .ready } ∨ p' = { p with state := .blocked })

omit [Allocator H] in
theorem Edits.of_globals {R : ℕ → Process → Process → Prop} {g : Globals}
    (h : Edits R { s with toGlobals := g } s') : Edits R s s' :=
  ⟨h.heap, h.mem, h.node, h.node_back, h.process, h.process_back⟩

omit [Allocator H] in
theorem edits_refl (c : ℕ) (s : Kernel H) : Edits (Assigns c) s s :=
  Edits.refl (fun _ _ => Or.inl rfl) s

omit [Allocator H] in
/-- READY or BLOCKED is assigned to a process that is not the current one. -/
theorem edits_put {p p' : Process} (hp : s.process? a = some p) (hne : a ≠ c)
    (hp' : p' = { p with state := .ready } ∨ p' = { p with state := .blocked }) :
    Edits (Assigns c) s (s.put a (.process p')) := by
  refine (Edits.refl (R := fun _ p p' => p' = p) (fun _ _ => rfl) s).put_process hp
    (fun b p₀ p₁ _ h => Or.inl h) fun p₀ hp₀ _ => Or.inr ⟨hne, ?_⟩
  obtain rfl := Option.some.inj (hp.symm.trans hp₀)
  exact hp'

theorem Current.assigns (h : Current st c q s) (he : Edits (Assigns c) s s')
    (hcur : s'.currentNode = s.currentNode) : Current st c q s' := by
  refine h.edits he hcur (fun p p' _ hR => ?_) fun a p p' hne _ hR => ?_
  · rcases hR with rfl | ⟨hne, -⟩
    · exact ⟨rfl, rfl⟩
    · exact absurd rfl hne
  · rcases hR with rfl | ⟨-, rfl | rfl⟩
    · exact Or.inl rfl
    · exact Or.inr (Or.inl rfl)
    · exact Or.inr (Or.inr rfl)

/-- An assignment to fields of a process that are neither its pid nor its state. -/
theorem Current.put_fields (h : Current st c q s) {p : Process} (p' : Process)
    (hp : s.process? a = some p) (hpid : p'.pid = p.pid) (hstate : p'.state = p.state) :
    Current st c q (s.put a (.process p')) := by
  have he : Edits (fun _ p p' => p'.pid = p.pid ∧ p'.state = p.state) s
      (s.put a (.process p')) := by
    refine (Edits.refl (R := fun _ p p' => p' = p) (fun _ _ => rfl) s).put_process hp
      (fun b p₀ p₁ _ heq => heq ▸ ⟨rfl, rfl⟩) fun p₀ hp₀ _ => ?_
    obtain rfl := Option.some.inj (hp.symm.trans hp₀)
    exact ⟨hpid, hstate⟩
  exact h.edits he rfl (fun _ _ _ hR => hR) fun _ _ _ _ _ hR => Or.inl hR.2

theorem Current.put_node (h : Current st c q s) {n m : Node} (hn : s.node? a = some n)
    (hm : m.proc = n.proc) : Current st c q (s.put a (.node m)) :=
  h.assigns ((edits_refl c s).put_node hn hm) rfl

theorem Current.grown (h : Current st c q s) (hg : Grown s s') : Current st c q s' where
  within := hg.within
  node := by
    rw [hg.node? h.within, hg.globals]
    exact h.node
  process := by
    rw [hg.process? h.within]
    exact h.process
  alone := by
    rw [hg.process? h.within]
    exact h.alone
  alive := by
    rw [hg.process? h.within]
    exact h.alive

/-- A block that held neither a node nor a process is filled in, maybe with a NEW process. -/
theorem Current.put_new (h : Current st c q s) (hlive : Allocator.Live s.heap a)
    (hnode : s.node? a = none) (hprocess : s.process? a = none) {o : Object}
    (ho : ∀ p, o = .process p → p.state = .new) : Current st c q (s.put a o) := by
  have hother : ∀ b, b ≠ a → (s.put a o).mem b = s.mem b := fun b hb => by rw [put_mem, if_neg hb]
  have hnew : ∀ b p, (s.put a o).process? b = some p → b = a ∧ p.state = .new ∨
      s.process? b = some p := fun b p hp => by
    rw [process?_eq_some, put_mem] at hp
    split_ifs at hp with hb
    · exact Or.inl ⟨hb, ho p (Option.some.inj hp)⟩
    · exact Or.inr (process?_eq_some.mpr hp)
  constructor
  · exact h.within.put hlive
  · obtain ⟨n, hn, hproc⟩ := h.node
    refine ⟨n, ?_, hproc⟩
    rw [node?_eq_some]
    refine (hother _ fun heq => ?_).trans (node?_eq_some.mp hn)
    exact absurd ((heq ▸ hn).symm.trans hnode) (by simp)
  · obtain ⟨p, hp, hrest⟩ := h.process
    refine ⟨p, ?_, hrest⟩
    rw [process?_eq_some, hother c fun heq => ?_]
    · exact process?_eq_some.mp hp
    · exact absurd ((heq ▸ hp).symm.trans hprocess) (by simp)
  · intro b p hp hrunning
    rcases hnew b p hp with ⟨-, hstate⟩ | hold
    · simp [hstate] at hrunning
    · exact h.alone b p hold hrunning
  · intro b p hp
    rcases hnew b p hp with ⟨-, hstate⟩ | hold
    · simp [hstate]
    · exact h.alive b p hold

/-- A process with another pid is another process. -/
theorem Current.ne_of_pid (h : Current st c q s) {p : Process} (hp : s.process? a = some p)
    (hne : p.pid ≠ q) : a ≠ c := by
  rintro rfl
  obtain ⟨p', hp', hpid, -⟩ := h.process
  obtain rfl := Option.some.inj (hp.symm.trans hp')
  exact hne hpid

/-- What a call reads as the pid of the current process. -/
theorem Current.runs (h : Current st c q s) {pid : ℕ} (hruns : s.Runs pid) : pid = q := by
  obtain ⟨n, hn, rfl⟩ := h.node
  obtain ⟨p, hp, rfl, -⟩ := h.process
  exact hruns.eq (h.within.node_live hn) hn hp

/-! ## `scheduler` -/

/-- The scheduler has left everything but the current process alone. -/
def Ticked (s s' : Kernel H) : Prop :=
  s'.toGlobals = { s.toGlobals with currentNode := s'.currentNode, forceYield := s'.forceYield }

/-- Another process is RUNNING now, or the same one. A BLOCKED one stays only if it has to. -/
theorem Current.scheduled (h : Current st c q s) (hst : st = .running ∨ st = .blocked) {cn : Node}
    {cp : Process} {sp v : ℕ} (hcn : s.node? s.currentNode = some cn)
    (hcp : s.process? cn.proc = some cp) (hs : Scheduled s cn cp sp v s') :
    Ticked s s' ∧ (Current st c q s' ∧ (st = .blocked → s.disableCount = 0 → s.counter = 1) ∨
      s.disableCount = 0 ∧ ∃ c' q', Current .running c' q' s' ∧
        (c' = c → q' = q ∧ st = .running)) := by
  obtain rfl : cn.proc = c := by
    obtain ⟨n, hn, rfl⟩ := h.node
    rw [Option.some.inj (hcn.symm.trans hn)]
  obtain ⟨hpid, hstate⟩ : cp.pid = q ∧ cp.state = st := by
    obtain ⟨p, hp, hrest⟩ := h.process
    exact Option.some.inj (hcp.symm.trans hp) ▸ hrest
  rcases hs with ⟨hstays, hblocked⟩ | ⟨next, hsw⟩
  · refine ⟨by rw [Ticked, hstays.globals], Or.inl ⟨?_, fun hb hdis => ?_⟩⟩
    · refine h.edits hstays.edits (by rw [hstays.globals]) (fun p p' _ hR => ?_)
        fun a p p' hne _ hR => ?_
      · rcases hR with rfl | ⟨-, rfl⟩ <;> exact ⟨rfl, rfl⟩
      · rcases hR with rfl | ⟨heq, -⟩
        · exact Or.inl rfl
        · exact absurd heq hne
    · by_contra hne
      exact hblocked hdis hne (hstate.trans hb)
  · refine ⟨hsw.globals, Or.inr ⟨hsw.enabled, next, ?_⟩⟩
    obtain ⟨p, hp, hready⟩ := hsw.ready
    obtain ⟨p', hp', hedit⟩ := hsw.edits.process_back _ p hp
    rw [if_pos rfl] at hedit
    obtain ⟨n, hn, hnext⟩ := hsw.node
    obtain ⟨n', hn', hproc⟩ := hsw.edits.node_back _ n hn
    have hleave : ∀ {p : Process}, (Process.leave sp p).state = .ready ∨
        (Process.leave sp p).state = .blocked := fun {p} => by
      unfold Process.leave
      dsimp only
      split_ifs <;> simp
    have hstate' : p'.state = .running := by rw [hedit]; rfl
    refine ⟨p'.pid, ⟨hsw.edits.within h.within, ⟨n', hn', hproc.trans hnext⟩,
      ⟨p', hp', rfl, hstate'⟩, fun a r' hr' hrunning => ?_, fun a r' hr' => ?_⟩, fun heq => ?_⟩
    · by_contra hne
      obtain ⟨r, hr, hR⟩ := hsw.edits.process a r' hr'
      rw [if_neg hne] at hR
      split_ifs at hR with hac
      · replace hR : r' = Process.leave sp r := hR
        rcases hleave (p := r) with hl | hl <;> simp [hR, hl] at hrunning
      · replace hR : r' = r := hR
        exact hac (h.alone a r hr (hR ▸ hrunning))
    · obtain ⟨r, hr, hR⟩ := hsw.edits.process a r' hr'
      by_cases hne : a = next
      · rw [if_pos hne] at hR
        simp [hR, Process.enter]
      rw [if_neg hne] at hR
      split_ifs at hR
      · replace hR : r' = Process.leave sp r := hR
        rcases hleave (p := r) with hl | hl <;> simp [hR, hl]
      · replace hR : r' = r := hR
        exact hR ▸ h.alive a r hr
    · rw [if_pos heq] at hready hedit
      obtain rfl := Option.some.inj (hp.symm.trans (heq ▸ hcp))
      refine ⟨?_, ?_⟩
      · rw [hedit, ← hpid]
        rfl
      · exact hst.resolve_right fun hb => hready.1 (hstate.trans hb)

/-- `_force_scheduler` returns if the scheduler keeps the process. -/
theorem Current.ends_force (h : Current st c q s) (hst : st = .running ∨ st = .blocked)
    (depth : ℕ) : Ends (fun _ s' => Ticked s s' ∧ Current st c q s' ∧
        (st = .blocked → s.disableCount = 0 → s.counter = 1))
      (WhenSwitched OneRuns) (forceScheduler depth) s := by
  have hE : Lenient (WhenSwitched (OneRuns (H := H))) := lenient_whenSwitched _
  obtain ⟨n, hn, hproc⟩ := h.node
  obtain ⟨p, hp, -⟩ := h.process
  cases depth with
  | zero => exact hE _ _ (by simp)
  | succ depth =>
    rw [forceScheduler, ends_bind]
    refine ends_currentProc hE fun m hm => ?_
    obtain rfl := Option.some.inj (hn.symm.trans hm)
    rw [ends_bind, ends_get, ends_bind]
    refine (ends_scheduler hE hn (hproc ▸ hp) (h.alive c p hp)).mono (fun v s' hs => ?_)
      fun _ _ h => h
    obtain ⟨hticked, hcase⟩ := h.scheduled hst hn (hproc ▸ hp) hs
    rw [ends_bind]
    refine ends_currentProc hE fun m hm => ?_
    rcases hcase with ⟨hcur, hblocked⟩ | ⟨henabled, c', q', hcur, hsame⟩
    · obtain ⟨m', hm', hmproc⟩ := hcur.node
      obtain rfl := Option.some.inj (hm.symm.trans hm')
      rw [if_neg (not_not.mpr (hmproc.trans hproc.symm))]
      exact ⟨hticked, hcur, hblocked⟩
    · obtain ⟨m', hm', hmproc⟩ := hcur.node
      obtain rfl := Option.some.inj (hm.symm.trans hm')
      split_ifs with hne
      · refine fun _ => ⟨?_, c', q', hcur⟩
        rw [hticked]
        exact henabled
      · obtain rfl : c' = c := hmproc.symm.trans ((not_not.mp hne).trans hproc)
        obtain ⟨rfl, rfl⟩ := hsame rfl
        exact ⟨hticked, hcur, fun hb => absurd hb (by simp)⟩

theorem Current.ends_scheduler (h : Current .running c q s) (hd : s.disableCount = 0)
    (force : Op H Unit) (sp : ℕ) :
    Ends (fun _ => OneRuns) (WhenSwitched OneRuns) (scheduler force sp) s := by
  have hE : Lenient (WhenSwitched (OneRuns (H := H))) := lenient_whenSwitched _
  obtain ⟨n, hn, hproc⟩ := h.node
  obtain ⟨p, hp, -⟩ := h.process
  refine (Sched.ends_scheduler hE hn (hproc ▸ hp) (h.alive c p hp)).mono (fun v s' hs => ?_)
    fun _ _ h => h
  obtain ⟨hticked, hcase⟩ := h.scheduled (Or.inl rfl) hn (hproc ▸ hp) hs
  have hd' : s'.disableCount = 0 := by
    rw [hticked]
    exact hd
  rcases hcase with ⟨hcur, -⟩ | ⟨-, c', q', hcur, -⟩
  · exact ⟨hd', c, q, hcur⟩
  · exact ⟨hd', c', q', hcur⟩

/-! ## Semaphores -/

/-- `cond` of `sem_wait` holds. -/
def Takes (t : Sem.Table) (idx : ℕ) : Prop := (t idx).lock = 0 ∧ 0 < (t idx).value

instance (t : Sem.Table) (idx : ℕ) : Decidable (Takes t idx) := inferInstanceAs (Decidable (_ ∧ _))

/-- The pid that `sem_post` gives to `ready_process`. -/
def woken (t : Sem.Table) (name : List UInt8) : Option ℕ :=
  let sem := t (semIndex t name).toNat
  if semIndex t name ≠ OUT_OF_BOUNDS ∧ sem.blockedLast ≠ sem.blockedFirst then
    some (toUInt64 (toInt (sem.blockedProcesses (sem.blockedFirst % MAX_PROC))))
  else none

/-- `sem_wait` would take the semaphore of this name, or there is none. -/
def Passes (t : Sem.Table) (name : List UInt8) : Prop :=
  semIndex t name ≠ OUT_OF_BOUNDS → Takes t (semIndex t name).toNat

instance (t : Sem.Table) (name : List UInt8) : Decidable (Passes t name) :=
  inferInstanceAs (Decidable (_ → _))

theorem semIndex_nonneg {t : Sem.Table} (h : semIndex t name ≠ OUT_OF_BOUNDS) :
    0 ≤ semIndex t name := by
  rw [semIndex] at h ⊢
  rcases searchFrom_cases _ MAX_SEMS 0 with ⟨hnone, -⟩ | ⟨i, hi, -⟩
  · exact absurd hnone h
  · rw [hi]
    exact Int.natCast_nonneg i

/-- Only this semaphore has been changed, and it keeps its name and its queue. -/
structure SameQueue (idx : ℕ) (t t' : Sem.Table) : Prop where
  others : ∀ j, j ≠ idx → t' j = t j
  name : (t' idx).name = (t idx).name
  semId : (t' idx).semId = (t idx).semId
  blockedProcesses : (t' idx).blockedProcesses = (t idx).blockedProcesses
  blockedFirst : (t' idx).blockedFirst = (t idx).blockedFirst
  blockedLast : (t' idx).blockedLast = (t idx).blockedLast

theorem SameQueue.refl (idx : ℕ) (t : Sem.Table) : SameQueue idx t t :=
  ⟨fun _ _ => rfl, rfl, rfl, rfl, rfl, rfl⟩

theorem SameQueue.trans {t₁ t₂ t₃ : Sem.Table} (h : SameQueue idx t₁ t₂)
    (h' : SameQueue idx t₂ t₃) : SameQueue idx t₁ t₃ where
  others j hj := (h'.others j hj).trans (h.others j hj)
  name := h'.name.trans h.name
  semId := h'.semId.trans h.semId
  blockedProcesses := h'.blockedProcesses.trans h.blockedProcesses
  blockedFirst := h'.blockedFirst.trans h.blockedFirst
  blockedLast := h'.blockedLast.trans h.blockedLast

theorem SameQueue.update {t : Sem.Table} (lock value : ℕ) :
    SameQueue idx t (Function.update t idx { t idx with lock := lock, value := value }) := by
  refine ⟨fun j hj => Function.update_of_ne hj _ _, ?_, ?_, ?_, ?_, ?_⟩ <;>
    rw [Function.update_self]

/-- Only the semaphore of that name has been changed, if there is one, and it keeps its name. -/
structure TouchesOnly (name : List UInt8) (t t' : Sem.Table) : Prop where
  others : ∀ j : ℕ, (j : ℤ) ≠ semIndex t name → t' j = t j
  named : ∀ j, (t' j).name = (t j).name ∧ (t' j).semId = (t j).semId

theorem TouchesOnly.refl (name : List UInt8) (t : Sem.Table) : TouchesOnly name t t :=
  ⟨fun _ _ => rfl, fun _ => ⟨rfl, rfl⟩⟩

theorem TouchesOnly.index_eq {t t' : Sem.Table} (h : TouchesOnly name t t') (other : List UInt8) :
    semIndex t' other = semIndex t other :=
  semIndex_congr h.named

theorem TouchesOnly.trans {t₁ t₂ t₃ : Sem.Table} (h : TouchesOnly name t₁ t₂)
    (h' : TouchesOnly name t₂ t₃) : TouchesOnly name t₁ t₃ where
  others j hj := (h'.others j (h.index_eq name ▸ hj)).trans (h.others j hj)
  named j := ⟨(h'.named j).1.trans (h.named j).1, (h'.named j).2.trans (h.named j).2⟩

theorem TouchesOnly.update {t t' : Sem.Table} (h : TouchesOnly name t t')
    (hidx : semIndex t name = idx) (sem : SemT) (hname : sem.name = (t' idx).name)
    (hid : sem.semId = (t' idx).semId) : TouchesOnly name t (Function.update t' idx sem) where
  others j hj := by
    have hne : j ≠ idx := fun heq => hj (by rw [hidx, heq])
    rw [Function.update_of_ne hne]
    exact h.others j hj
  named j := by
    rw [Function.update_apply]
    split_ifs with hj
    · rw [hname, hid, ← hj]
      exact h.named j
    · exact h.named j

/-- What is read of other names. -/
theorem TouchesOnly.other {t t' : Sem.Table} (h : TouchesOnly name t t') {other : List UInt8}
    (hne : semIndex t other ≠ OUT_OF_BOUNDS → semIndex t other ≠ semIndex t name) :
    woken t' other = woken t other ∧ (Passes t' other ↔ Passes t other) := by
  unfold woken Passes Takes
  rw [h.index_eq]
  by_cases hout : semIndex t other = OUT_OF_BOUNDS
  · simp [hout]
  · have hnonneg := semIndex_nonneg hout
    have hsame :=
      h.others (semIndex t other).toNat (by rw [Int.toNat_of_nonneg hnonneg]; exact hne hout)
    rw [hsame]
    exact ⟨rfl, Iff.rfl⟩

theorem SameQueue.named {t t' : Sem.Table} (h : SameQueue idx t t') (j : ℕ) :
    (t' j).name = (t j).name ∧ (t' j).semId = (t j).semId := by
  by_cases hj : j = idx
  · rw [hj]
    exact ⟨h.name, h.semId⟩
  · rw [h.others j hj]
    exact ⟨rfl, rfl⟩

theorem SameQueue.touches {t t' : Sem.Table} (h : SameQueue idx t t')
    (hidx : semIndex t name = idx) : TouchesOnly name t t' where
  others j hj := h.others j fun heq => hj (by rw [hidx, heq])
  named := h.named

theorem SameQueue.woken {t t' : Sem.Table} (h : SameQueue idx t t') (name : List UInt8) :
    woken t' name = woken t name := by
  unfold Sched.woken
  rw [semIndex_congr h.named]
  by_cases hidx : (semIndex t name).toNat = idx
  · rw [hidx]
    simp only [h.blockedProcesses, h.blockedFirst, h.blockedLast]
  · rw [h.others _ hidx]

omit [Allocator H] in
theorem takeLock_cases (idx : ℕ) (s : Kernel H) :
    ∃ t, takeLock idx s = .ok (decide (Takes s.semaphores idx)) { s with semaphores := t } ∧
      SameQueue idx s.semaphores t ∧ (¬ Takes s.semaphores idx → ¬ Takes t idx) := by
  have hlocked : SameQueue idx s.semaphores
      (Function.update s.semaphores idx { s.semaphores idx with lock := 1 }) :=
    .update 1 _
  rw [takeLock, bind_of_ok (semAt_ok idx), bind_of_ok (editSem_ok idx _)]
  by_cases hlock : (s.semaphores idx).lock = 0
  · rw [if_neg (not_not.mpr hlock)]
    by_cases hvalue : 0 < (s.semaphores idx).value
    · rw [if_pos hvalue, decide_eq_true ⟨hlock, hvalue⟩]
      exact ⟨_, rfl, hlocked, fun hno => absurd ⟨hlock, hvalue⟩ hno⟩
    · rw [if_neg hvalue, bind_of_ok (editSem_ok idx _), decide_eq_false fun h => hvalue h.2]
      refine ⟨_, rfl, hlocked.trans (.update 0 _), fun _ h => hvalue ?_⟩
      simpa using h.2
  · rw [if_pos hlock, decide_eq_false fun h => hlock h.1]
    refine ⟨_, rfl, hlocked, fun _ h => ?_⟩
    have hone := h.1
    simp at hone

/-- The body of the sleeping loop never takes the semaphore. -/
theorem Current.ends_semSleep (h : Current .running c q s) (hd : s.disableCount < 2 ^ 31 - 1)
    (hno : ¬ Takes s.semaphores idx) :
    Ends (fun broke s' => broke = false ∧ Current .running c q s' ∧
        s'.disableCount = s.disableCount ∧ ¬ Takes s'.semaphores idx)
      (WhenSwitched OneRuns) (semSleep (forceScheduler depth) idx) s := by
  have hE : Lenient (WhenSwitched (OneRuns (H := H))) := lenient_whenSwitched _
  rw [semSleep, ends_bind]
  refine ends_getRunningPid hE fun pid _ => ?_
  rw [ends_bind]
  refine ends_schedulerDisable hE fun d hdis => ?_
  obtain rfl := hdis hd
  rw [ends_bind]
  refine ends_of_ok (editSem_ok idx _) ?_
  set s₁ : Kernel H := { s with
    disableCount := s.disableCount + 1
    semaphores := Function.update s.semaphores idx
      { s.semaphores idx with
        blockedProcesses := Function.update (s.semaphores idx).blockedProcesses
          ((s.semaphores idx).blockedLast % MAX_PROC) (toUInt64 (toInt pid))
        blockedLast := incr64 (s.semaphores idx).blockedLast } } with hs₁
  have hno₁ : ¬ Takes s₁.semaphores idx := by
    rw [Takes, hs₁]
    simpa [Takes] using hno
  obtain ⟨t, htake, -, hnever⟩ := takeLock_cases idx s₁
  rw [decide_eq_false hno₁] at htake
  rw [ends_bind]
  refine ends_of_ok htake ?_
  rw [if_neg (by simp), ends_bind]
  refine ends_of_ok schedulerEnable_ok ?_
  have hcur : Current .running c q
      { s₁ with semaphores := t, disableCount := s₁.disableCount - 1 } := h.globals rfl
  rw [ends_bind]
  refine (hcur.ends_force (Or.inl rfl) depth).mono (fun _ s' hs' => ?_) fun _ _ h => h
  obtain ⟨hticked, hcur', -⟩ := hs'
  refine ⟨rfl, hcur', ?_, ?_⟩
  · rw [hticked]
    rfl
  · rw [hticked]
    exact hnever hno₁

/-- The sleeping loop ends at once or in another process. -/
theorem Current.ends_semWaitLoop (h : Current .running c q s) (hd : s.disableCount < 2 ^ 31 - 1)
    (rounds : ℕ) :
    Ends (fun _ s' => Takes s.semaphores idx ∧
        ∃ t, SameQueue idx s.semaphores t ∧ s' = { s with semaphores := t })
      (WhenSwitched OneRuns) (semWaitLoop (forceScheduler depth) idx rounds) s := by
  have hE : Lenient (WhenSwitched (OneRuns (H := H))) := lenient_whenSwitched _
  -- once it sleeps, the semaphore stays as it is
  have hsleeps : ∀ rounds {s : Kernel H}, Current .running c q s → s.disableCount < 2 ^ 31 - 1 →
      ¬ Takes s.semaphores idx → Ends (fun _ _ => False) (WhenSwitched OneRuns)
        (semWaitLoop (forceScheduler depth) idx rounds) s := by
    intro rounds
    induction rounds with
    | zero => exact fun _ _ _ => hE _ _ (by simp)
    | succ rounds ih =>
      intro s h hd hno
      obtain ⟨t, htake, -, hnever⟩ := takeLock_cases idx s
      rw [decide_eq_false hno] at htake
      rw [semWaitLoop, ends_bind]
      refine ends_of_ok htake ?_
      rw [if_neg (by simp), ends_bind]
      have hcur : Current .running c q { s with semaphores := t } := h.globals rfl
      refine (hcur.ends_semSleep hd (hnever hno)).mono (fun broke s' hs' => ?_) fun _ _ h => h
      obtain ⟨rfl, hcur', hd', hno'⟩ := hs'
      rw [if_neg (by simp)]
      exact ih hcur' (hd'.trans_lt hd) hno'
  by_cases htakes : Takes s.semaphores idx
  · cases rounds with
    | zero => exact hE _ _ (by simp)
    | succ rounds =>
      obtain ⟨t, htake, hsame, -⟩ := takeLock_cases idx s
      rw [decide_eq_true htakes] at htake
      rw [semWaitLoop, ends_bind]
      refine ends_of_ok htake ?_
      rw [if_pos rfl]
      exact ⟨htakes, t, hsame, rfl⟩
  · exact (hsleeps rounds h hd htakes).mono (fun _ _ hf => hf.elim) fun _ _ h => h

/-- `sem_wait` behind the search, and what is left of it in another turn. -/
def semWaitAt (force : Op H Unit) (idx rounds : ℕ) : Op H Unit := do
  semWaitLoop force idx rounds
  semTake idx

theorem Current.ends_semWaitAt (h : Current .running c q s) (hd : s.disableCount < 2 ^ 31 - 1)
    (idx rounds : ℕ) :
    Ends (fun _ s' => Takes s.semaphores idx ∧
        ∃ t, SameQueue idx s.semaphores t ∧ s' = { s with semaphores := t })
      (WhenSwitched OneRuns) (semWaitAt (forceScheduler depth) idx rounds) s := by
  rw [semWaitAt, ends_bind]
  refine (h.ends_semWaitLoop hd _).mono (fun _ s₁ hs₁ => ?_) fun _ _ h => h
  obtain ⟨htakes, t, hsame, rfl⟩ := hs₁
  refine ends_of_ok (editSem_ok idx _) ⟨htakes, _, ?_, rfl⟩
  exact hsame.trans (.update 0 _)

theorem Current.ends_semWait (h : Current .running c q s) (hd : s.disableCount < 2 ^ 31 - 1)
    (name : List UInt8) :
    Ends (fun _ s' => Passes s.semaphores name ∧
        ∃ t, TouchesOnly name s.semaphores t ∧ woken t name = woken s.semaphores name ∧
          s' = { s with semaphores := t })
      (WhenSwitched OneRuns) (semWait (forceScheduler depth) name) s := by
  rw [semWait, ends_bind, ends_get]
  dsimp only
  split_ifs with hidx
  · exact ⟨fun hne => absurd hidx hne, _, .refl name _, rfl, rfl⟩
  · rw [← bind_assoc, ends_bind]
    refine (h.ends_semWaitAt hd _ _).mono (fun _ s' hs' => ?_) fun _ _ h => h
    obtain ⟨htakes, t, hsame, rfl⟩ := hs'
    have hslot := (Int.toNat_of_nonneg (semIndex_nonneg hidx)).symm
    exact ⟨fun _ => htakes, t, hsame.touches hslot, hsame.woken name, rfl⟩

/-- `ready_process` for another process. -/
theorem Current.ends_readyProcess (h : Current .running c q s) {pid : ℕ} (hne : pid ≠ q)
    {E : Stop → Kernel H → Prop} (hE : Lenient E) :
    Ends (fun _ s' => ∃ b, Edits (Assigns c) s s' ∧
      s'.toGlobals = { s.toGlobals with blockCount := b }) E (readyProcess pid) s := by
  refine Sched.ends_readyProcess hE ⟨_, edits_refl c s, rfl⟩ fun a p v hp hpid => ?_
  have he : Edits (Assigns c) s (s.put a (.process { p with state := .ready })) :=
    edits_put hp (h.ne_of_pid hp (hpid ▸ hne)) (Or.inl rfl)
  exact ⟨_, he.globals _, rfl⟩

theorem Current.ends_updateSemProcesses (h : Current .running c q s) {t : Sem.Table}
    (ht : TouchesOnly name t s.semaphores) (hidx : semIndex t name = idx)
    (hne : (s.semaphores idx).blockedLast ≠ (s.semaphores idx).blockedFirst →
      toUInt64 (toInt ((s.semaphores idx).blockedProcesses
        ((s.semaphores idx).blockedFirst % MAX_PROC))) ≠ q)
    {E : Stop → Kernel H → Prop} (hE : Lenient E) :
    Ends (fun _ s' => Edits (Assigns c) s s' ∧ ∃ t' b, TouchesOnly name t t' ∧
      s'.toGlobals = { s.toGlobals with semaphores := t', blockCount := b })
      E (updateSemProcesses idx) s := by
  rw [updateSemProcesses, ends_bind]
  refine ends_of_ok (semAt_ok _) ?_
  split_ifs with hqueue
  · rw [ends_bind]
    refine ends_of_ok (editSem_ok _ _) ?_
    have htouch := ht.update hidx
      { s.semaphores idx with blockedFirst := incr64 (s.semaphores idx).blockedFirst } rfl rfl
    generalize Function.update s.semaphores idx _ = t' at htouch ⊢
    have hcur : Current .running c q { s with semaphores := t' } := h.globals rfl
    rw [ends_bind]
    refine (hcur.ends_readyProcess (hne hqueue) hE).mono (fun _ s' hs' => ?_) fun _ _ h => h
    obtain ⟨b, he, hglob⟩ := hs'
    exact ⟨he.of_globals, t', b, htouch, hglob⟩
  · exact ⟨edits_refl c s, _, _, ht, rfl⟩

/-- `sem_post` that does not wake the caller. -/
theorem Current.ends_semPost (h : Current .running c q s) (hd : s.disableCount < 2 ^ 31 - 1)
    (hwoken : woken s.semaphores name ≠ some q) {E : Stop → Kernel H → Prop} (hE : Lenient E) :
    Ends (fun _ s' => Edits (Assigns c) s s' ∧ ∃ t b, TouchesOnly name s.semaphores t ∧
        s'.toGlobals = { s.toGlobals with semaphores := t, blockCount := b })
      E (semPost name) s := by
  rw [semPost, ends_bind, ends_get]
  dsimp only
  split_ifs with hidx
  · exact ⟨edits_refl c s, _, _, .refl name _, rfl⟩
  rw [ends_bind]
  refine ends_schedulerDisable hE fun d hdis => ?_
  obtain rfl := hdis hd
  have hself : (s.semaphores (semIndex s.semaphores name).toNat).blockedLast ≠
      (s.semaphores (semIndex s.semaphores name).toNat).blockedFirst →
        toUInt64 (toInt ((s.semaphores (semIndex s.semaphores name).toNat).blockedProcesses
          ((s.semaphores (semIndex s.semaphores name).toNat).blockedFirst % MAX_PROC))) ≠ q := by
    intro hne heq
    exact hwoken ((if_pos ⟨hidx, hne⟩).trans (congrArg some heq))
  have hslot := (Int.toNat_of_nonneg (semIndex_nonneg hidx)).symm
  generalize (semIndex s.semaphores name).toNat = idx at hself hslot ⊢
  rw [ends_bind]
  refine ends_of_ok (editSem_ok _ _) ?_
  have htouch := (TouchesOnly.refl name s.semaphores).update hslot
    { s.semaphores idx with value := incr64 (s.semaphores idx).value } rfl rfl
  have hcur : Current .running c q { s with
      disableCount := s.disableCount + 1
      semaphores := Function.update s.semaphores idx
        { s.semaphores idx with value := incr64 (s.semaphores idx).value } } := h.globals rfl
  rw [ends_bind]
  refine (hcur.ends_updateSemProcesses htouch hslot ?_ hE).mono (fun _ s' hs' => ?_) fun _ _ h => h
  · simpa only [Function.update_self] using hself
  · obtain ⟨he, t, b, htouch', hglob⟩ := hs'
    rw [ends_bind]
    refine ends_of_ok schedulerEnable_ok ?_
    refine ⟨he.of_globals.globals _, t, b, htouch', ?_⟩
    show ({ s'.toGlobals with disableCount := s'.disableCount - 1 } : Globals) = _
    rw [hglob]
    rfl

/-! ## Blocking -/

omit [Allocator H] in
theorem Unseen.symm (h : Unseen s s') : Unseen s' s :=
  ⟨h.first.symm, h.currentNode.symm, h.node?.symm, h.process?.symm⟩

/-- The process that `find_node` finds. -/
def found (s : Kernel H) (pid : ℕ) : Option ℕ :=
  match findNode pid s with
  | .ok x _ => (s.node? x).map Node.proc
  | .error _ _ => none

omit [Allocator H] in
theorem found_eq_some {pid : ℕ} :
    found s pid = some a ↔ ∃ x n, findNode pid s = .ok x s ∧ s.node? x = some n ∧ n.proc = a := by
  have hend : Ends (fun _ t => t = s) (fun _ _ => True) (findNode pid) s :=
    ends_findNode lenient_true rfl fun _ _ => rfl
  unfold found
  cases hfind : findNode pid s with
  | ok x t =>
    obtain rfl := hend.of_ok hfind
    simp
  | error e t => simp

omit [Allocator H] in
theorem Unseen.found (h : Unseen s s') {pid : ℕ} (hf : found s pid = some a) :
    found s' pid = some a := by
  obtain ⟨x, n, hfind, hn, hproc⟩ := found_eq_some.mp hf
  exact found_eq_some.mpr ⟨x, n, h.findNode hfind, h.node? ▸ hn, hproc⟩

theorem Current.pid_of_found (h : Current st c q s) {pid : ℕ} (hf : found s pid = some c) :
    pid = q := by
  obtain ⟨x, n, hfind, hn, rfl⟩ := found_eq_some.mp hf
  have hheld : x = 0 ∨ Holds s x pid :=
    (ends_findNode (Q := fun x _ => x = 0 ∨ Holds s x pid) lenient_true (Or.inl rfl)
      fun _ => Or.inr).of_ok hfind
  rcases hheld with rfl | ⟨m, p, hm, hp, rfl⟩
  · exact absurd rfl (live_ne_zero (h.within.node_live hn))
  · obtain rfl := Option.some.inj (hn.symm.trans hm)
    obtain ⟨p', hp', hpid, -⟩ := h.process
    rw [Option.some.inj (hp.symm.trans hp'), hpid]

/-- The current process becomes BLOCKED. -/
theorem Current.put_blocked (h : Current .running c q s) {p : Process}
    (hp : s.process? c = some p) : Current .blocked c q
      (s.put c (.process { p with state := .blocked })) := by
  have hprocess : ∀ a p', (s.put c (.process { p with state := .blocked })).process? a = some p' →
      a = c ∧ p'.state = .blocked ∨ a ≠ c ∧ s.process? a = some p' := by
    intro a p' hp'
    rw [process?_put_process] at hp'
    split_ifs at hp' with ha
    · exact Or.inl ⟨ha, by rw [← Option.some.inj hp']⟩
    · exact Or.inr ⟨ha, hp'⟩
  constructor
  · exact h.within.put (h.within.process_live hp)
  · obtain ⟨n, hn, hproc⟩ := h.node
    exact ⟨n, (congrFun (node?_put_process (node?_of_process hp) _) _).trans hn, hproc⟩
  · obtain ⟨p', hp', hpid, -⟩ := h.process
    refine ⟨_, (process?_put_process _ _ _ _).trans (if_pos rfl), ?_, rfl⟩
    rw [← hpid, Option.some.inj (hp.symm.trans hp')]
  · intro a p' hp' hrunning
    rcases hprocess a p' hp' with ⟨ha, -⟩ | ⟨-, hold⟩
    · exact ha
    · exact h.alone a p' hold hrunning
  · intro a p' hp'
    rcases hprocess a p' hp' with ⟨-, hstate⟩ | ⟨-, hold⟩
    · simp [hstate]
    · exact h.alive a p' hold

/-- `block_process` for the current process goes on in another one. -/
theorem Current.ends_blockSelf (h : Current .running c q s) (hd : s.disableCount = 0)
    (hcount : s.counter ≠ 1) {pid : ℕ} (hf : found s pid = some c) :
    Ends (fun _ _ => False) (WhenSwitched OneRuns) (blockProcess (forceScheduler depth) pid) s := by
  have hE : Lenient (WhenSwitched (OneRuns (H := H))) := lenient_whenSwitched _
  obtain ⟨x, n, hfind, hn, rfl⟩ := found_eq_some.mp hf
  rw [blockProcess, ends_bind]
  refine ends_of_ok hfind ?_
  rw [if_neg (live_ne_zero (h.within.node_live hn)), ends_bind]
  refine ends_nodeAt hE fun m hm => ?_
  obtain rfl := Option.some.inj (hn.symm.trans hm)
  rw [ends_bind]
  refine ends_editProc hE fun p hp => ?_
  rw [ends_bind]
  refine ((h.put_blocked hp).ends_force (Or.inr rfl) depth).mono (fun _ s' hs' => ?_) fun _ _ h => h
  exact absurd (hs'.2.2 rfl hd) hcount

/-- `block_process` for another process. -/
theorem Current.ends_blockProcess (h : Current .running c q s) {pid : ℕ}
    (hno : found s pid ≠ some c) :
    Ends (fun _ s' => Ticked s s' ∧ Current .running c q s') (WhenSwitched OneRuns)
      (blockProcess (forceScheduler depth) pid) s := by
  have hE : Lenient (WhenSwitched (OneRuns (H := H))) := lenient_whenSwitched _
  rw [blockProcess]
  refine ends_bind_of_ok (ends_findNode hE (fun _ => ?_) fun x _ hfind => ?_)
  · rw [if_pos rfl]
    exact ⟨rfl, h⟩
  split_ifs
  · exact ⟨rfl, h⟩
  rw [ends_bind]
  refine ends_nodeAt hE fun n hn => ?_
  rw [ends_bind]
  refine ends_editProc hE fun p hp => ?_
  have hne : n.proc ≠ c := fun heq => hno (found_eq_some.mpr ⟨x, n, hfind, hn, heq⟩)
  have hcur : Current .running c q (s.put n.proc (.process { p with state := .blocked })) :=
    h.assigns (edits_put hp hne (Or.inr rfl)) rfl
  rw [ends_bind]
  refine (hcur.ends_force (Or.inl rfl) depth).mono (fun _ s' hs' => ?_) fun _ _ h => h
  exact ends_pidOf hE fun _ _ => ⟨hs'.1, hs'.2.1⟩

end TronKernel.Sched
