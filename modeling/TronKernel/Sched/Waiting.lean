import TronKernel.Sched.EndOfFile
import TronKernel.Sched.Search

/-!
# What keeps a call waiting

In a kernel in which every search ends (`Orderly`), `sem_post` returns whoever waits for the
semaphore, and `sem_wait` returns to a process that is not switched away if and only if the
semaphore is not locked. `pipe_write` waits for that and for another writer of the pipe
(`pipeWrite_iff`). `free_proc` writes its end of file to the pipe of the current process, and so it
returns if and only if that pipe accepts it (`freeProc_iff`).
-/

namespace TronKernel.Sched

open Programs Sem

variable {H : Type} {s s' : Kernel H} {t t' : Sem.Table} {name : List UInt8} {c c' p : Process}
  {n index : ℤ} {addr : ℕ → UInt8} {proc : ℕ}

/-! ## Searches that end -/

/-- `find_node` ends, whatever it looks for. -/
def Searches (s : Kernel H) : Prop := ∀ pid, ∃ r, findNode pid s = .ok r s

theorem Searches.keep (h : Searches s) (hs : SamePids s s') : Searches s' :=
  fun pid => (h pid).imp fun _ hr => hs.findNode hr

/-- With the same pids the same node is found. -/
theorem Searches.findNode_iff (h : Searches s) (hs : SamePids s s') {pid r : ℕ} :
    findNode pid s' = .ok r s' ↔ findNode pid s = .ok r s := by
  obtain ⟨x, hx⟩ := h pid
  rw [hs.findNode hx, hx]
  constructor
  · intro heq
    injection heq with hr
    rw [hr]
  · intro heq
    injection heq with hr
    rw [hr]

/-- `c` is on the processor, every search ends, and the scheduler can be disabled once more. -/
structure Orderly (s : Kernel H) (c : Process) : Prop where
  running : s.currentNode ≠ 0
  current_at : ∃ n, s.node? s.currentNode = some n ∧ s.process? n.proc = some c
  searches : Searches s
  enabled : s.disableCount < 2 ^ 31 - 1

theorem Orderly.getRunningPid (h : Orderly s c) : Sched.getRunningPid s = .ok c.pid s := by
  obtain ⟨n, hn, hc⟩ := h.current_at
  exact getRunningPid_ok h.running hn hc

theorem Orderly.extends (h : Orderly s c) (hs : Extends s s')
    (hcur : s'.currentNode = s.currentNode) (hd : s'.disableCount = s.disableCount) :
    Orderly s' c where
  running := hcur.symm ▸ h.running
  current_at := by
    obtain ⟨n, hn, hc⟩ := h.current_at
    exact ⟨n, hcur.symm ▸ hs.node? _ _ hn, hs.process? _ _ hc⟩
  searches := h.searches.keep hs.samePids
  enabled := hd.symm ▸ h.enabled

theorem Orderly.unseen (h : Orderly s c) (hs : Unseen s s')
    (hd : s'.disableCount = s.disableCount) : Orderly s' c :=
  h.extends hs.extends hs.currentNode hd

/-- The same semaphores are locked in both tables. -/
def SameLocks (t t' : Sem.Table) : Prop :=
  ∀ i, ((t' i).name = (t i).name ∧ (t' i).semId = (t i).semId) ∧
    (t' i).lock = (t i).lock ∧ (t' i).value = (t i).value

theorem SameLocks.refl (t : Sem.Table) : SameLocks t t := fun _ => ⟨⟨rfl, rfl⟩, rfl, rfl⟩

theorem SameLocks.unlocked (h : SameLocks t t') : Unlocked t' name ↔ Unlocked t name := by
  have hindex : semIndex t' name = semIndex t name := semIndex_congr fun i => (h i).1
  rw [Unlocked, Unlocked, hindex, (h _).2.1, (h _).2.2]

theorem SameLocks.update {idx : ℕ} {sem : SemT}
    (h : (sem.name = (t idx).name ∧ sem.semId = (t idx).semId) ∧ sem.lock = (t idx).lock ∧
      sem.value = (t idx).value) : SameLocks t (Function.update t idx sem) := by
  intro i
  by_cases hi : i = idx
  · rw [hi, Function.update_self]
    exact h
  · rw [Function.update_of_ne hi]
    exact ⟨⟨rfl, rfl⟩, rfl, rfl⟩

/-- `update_sem_processes` returns, and it is no more than the queue that changes. -/
theorem updateSemProcesses_returns (h : Searches s) (idx : ℕ) :
    ∃ s', updateSemProcesses idx s = .ok () s' ∧ s'.pipes = s.pipes ∧
      s'.disableCount = s.disableCount ∧ SameLocks s.semaphores s'.semaphores := by
  by_cases hqueue : (s.semaphores idx).blockedLast = (s.semaphores idx).blockedFirst
  · refine ⟨s, ?_, rfl, rfl, SameLocks.refl _⟩
    rw [updateSemProcesses, bind_of_ok (semAt_ok idx), if_neg (not_not.mpr hqueue)]
    rfl
  · set u : Kernel H := { s with
      semaphores := Function.update s.semaphores idx
        { s.semaphores idx with blockedFirst := incr64 (s.semaphores idx).blockedFirst } }
    have hunseen : Unseen s u := ⟨rfl, rfl, rfl, rfl⟩
    obtain ⟨r, hfind⟩ := h.keep hunseen.extends.samePids (toUInt64 (toInt
      ((s.semaphores idx).blockedProcesses ((s.semaphores idx).blockedFirst % MAX_PROC))))
    obtain ⟨v, s', hready, hsem, hcount, hpipes⟩ := readyProcess_returns hfind
    refine ⟨s', ?_, hpipes, hcount, ?_⟩
    · rw [updateSemProcesses, bind_of_ok (semAt_ok idx), if_pos hqueue,
        bind_of_ok (editSem_ok _ _)]
      exact bind_of_ok hready
    · rw [hsem]
      exact SameLocks.update ⟨⟨rfl, rfl⟩, rfl, rfl⟩

/-- The table that `sem_post` leaves, but for the queue. -/
def raised (t : Sem.Table) (name : List UInt8) : Sem.Table :=
  if semIndex t name = OUT_OF_BOUNDS then t
  else Function.update t (semIndex t name).toNat
    { t (semIndex t name).toNat with value := incr64 (t (semIndex t name).toNat).value }

theorem raised_held (h : Takeable t name) : raised (held t name) name = t := by
  rw [raised, semIndex_held]
  split_ifs with hidx
  · exact if_pos hidx
  · exact update_held h hidx

/-- `sem_post` returns, whoever waits for the semaphore. -/
theorem semPost_returns (h : Searches s) (hd : s.disableCount < 2 ^ 31 - 1) (name : List UInt8) :
    ∃ r s', semPost name s = .ok r s' ∧ s'.pipes = s.pipes ∧ s'.disableCount = s.disableCount ∧
      SameLocks (raised s.semaphores name) s'.semaphores := by
  by_cases hidx : semIndex s.semaphores name = OUT_OF_BOUNDS
  · refine ⟨ERROR, s, ?_, rfl, rfl, ?_⟩
    · rw [semPost, get_bind, if_pos hidx]
      rfl
    · rw [raised, if_pos hidx]
      exact SameLocks.refl _
  · let u : Kernel H := { s with
      disableCount := s.disableCount + 1
      semaphores := raised s.semaphores name }
    have hunseen : Unseen s u := ⟨rfl, rfl, rfl, rfl⟩
    obtain ⟨s', hupdate, hpipes, hcount, hlocks⟩ := updateSemProcesses_returns
      (h.keep hunseen.extends.samePids) (semIndex s.semaphores name).toNat
    refine ⟨SUCCESS_SIGNAL, { s' with disableCount := s'.disableCount - 1 }, ?_, hpipes, ?_, hlocks⟩
    · have hedit : editSem (semIndex s.semaphores name).toNat
          (fun sem => { sem with value := incr64 sem.value })
          { s with disableCount := s.disableCount + 1 } = .ok () u := by
        rw [editSem_ok]
        show EStateM.Result.ok () _ = EStateM.Result.ok () { s with
          disableCount := s.disableCount + 1
          semaphores := raised s.semaphores name }
        rw [raised, if_neg hidx]
      rw [semPost, get_bind, if_neg hidx, bind_of_ok (schedulerDisable_ok hd), bind_of_ok hedit,
        bind_of_ok hupdate, bind_of_ok schedulerEnable_ok]
      rfl
    · show s'.disableCount - 1 = _
      rw [hcount]
      exact Nat.add_sub_cancel _ _

/-- `cond` fails for a locked semaphore, and goes on failing. -/
theorem takeLock_locked (idx : ℕ)
    (h : ¬ ((s.semaphores idx).lock = 0 ∧ 0 < (s.semaphores idx).value)) :
    ∃ t : Sem.Table, takeLock idx s = .ok false { s with semaphores := t } ∧
      ¬ ((t idx).lock = 0 ∧ 0 < (t idx).value) := by
  set t := Function.update s.semaphores idx { s.semaphores idx with lock := 1 } with ht
  by_cases hlock : (s.semaphores idx).lock = 0
  · have hvalue : ¬ 0 < (s.semaphores idx).value := fun hpos => h ⟨hlock, hpos⟩
    refine ⟨Function.update t idx { t idx with lock := 0 }, ?_, ?_⟩
    · rw [takeLock, bind_of_ok (semAt_ok idx), bind_of_ok (editSem_ok idx _),
        if_neg (not_not.mpr hlock), if_neg hvalue, bind_of_ok (editSem_ok idx _)]
      rfl
    · rw [Function.update_self, ht, Function.update_self]
      exact fun hfree => hvalue hfree.2
  · refine ⟨t, ?_, ?_⟩
    · rw [takeLock, bind_of_ok (semAt_ok idx), bind_of_ok (editSem_ok idx _), if_pos hlock]
      rfl
    · rw [ht, Function.update_self]
      exact fun hfree => one_ne_zero hfree.1

/-- `sem_wait` for a locked semaphore leaves the processor. -/
theorem ends_semWait_locked (h : ¬ Unlocked s.semaphores name) :
    Ends (fun _ _ => False) (fun _ _ => True) (semWait interrupt name) s := by
  obtain ⟨hidx, hlocked⟩ := Classical.not_imp.mp h
  rw [semWait, ends_bind, ends_get, if_neg hidx, ends_bind]
  generalize (semIndex s.semaphores name).toNat = idx at hlocked ⊢
  rw [show 2 ^ 64 = 2 ^ 64 - 1 + 1 from rfl, semWaitLoop, ends_bind]
  obtain ⟨t, htake, hlocked⟩ := takeLock_locked idx hlocked
  refine ends_of_ok htake ?_
  rw [if_neg (by simp), ends_bind, semSleep, ends_bind]
  refine ends_getRunningPid lenient_true fun pid _ => ?_
  rw [ends_bind]
  refine ends_schedulerDisable lenient_true fun d _ => ?_
  rw [ends_bind]
  refine ends_of_ok (editSem_ok idx _) ?_
  rw [ends_bind]
  obtain ⟨t', htake', -⟩ := takeLock_locked idx (s := { s with
    disableCount := d
    semaphores := Function.update t idx { t idx with
      blockedProcesses := Function.update (t idx).blockedProcesses ((t idx).blockedLast % MAX_PROC)
        (toUInt64 (toInt pid))
      blockedLast := incr64 (t idx).blockedLast } }) (by
    simp only [Function.update_self]
    exact hlocked)
  refine ends_of_ok htake' ?_
  rw [if_neg (by simp), ends_bind]
  exact ends_of_ok schedulerEnable_ok trivial

/-! ## Pipes -/

/-- The process `c` writes to the pipe without having to wait: the pipe is not open, or `c` is not
blocked among its writers and its semaphore is not locked. -/
def Accepts (s : Kernel H) (c : Process) (index : ℤ) : Prop :=
  (0 ≤ index ∧ index < MAX_PIPES) ∧ ((s.pipes index.toNat).created ≠ 0 →
    (∀ pid, (Pipe.blockProcessPipe (s.pipes index.toNat).wProcesses (toInt c.pid)).2 = some pid →
      findNode (toUInt64 pid) s = .ok 0 s) ∧
    Unlocked s.semaphores (s.pipes index.toNat).name)

theorem accepts_iff (hfind : ∀ pid, findNode pid s' = .ok 0 s' ↔ findNode pid s = .ok 0 s)
    (hpipes : s'.pipes = s.pipes) (hlocks : SameLocks s.semaphores s'.semaphores)
    (hpid : c'.pid = c.pid) : Accepts s' c' index ↔ Accepts s c index := by
  unfold Accepts
  simp only [hpipes, hpid, hlocks.unlocked, hfind]

/-- Another writer of the pipe makes the process leave the processor. -/
theorem ends_pipeWriteEnter_blocked (h : Orderly s c) (hi : 0 ≤ index ∧ index < MAX_PIPES) {x : ℤ}
    (hx : (Pipe.blockProcessPipe (s.pipes index.toNat).wProcesses (toInt c.pid)).2 = some x)
    (hfound : findNode (toUInt64 x) s ≠ .ok 0 s) :
    Ends (fun _ _ => False) (fun _ _ => True) (pipeWriteEnter interrupt index) s := by
  rw [pipeWriteEnter, ends_bind]
  refine ends_of_ok h.getRunningPid ?_
  rw [ends_bind]
  refine ends_of_ok (pipeAt_ok hi.1 hi.2) ?_
  generalize Pipe.blockProcessPipe (s.pipes index.toNat).wProcesses (toInt c.pid) = entry at hx ⊢
  obtain ⟨list, blocked⟩ := entry
  obtain rfl : blocked = some x := hx
  dsimp only
  rw [ends_bind, editPipe, ends_modify, ends_bind, blockProcess, ends_bind]
  obtain ⟨r, hr⟩ := h.searches (toUInt64 x)
  have hne : r ≠ 0 := fun h0 => hfound (h0 ▸ hr)
  refine ends_of_ok ((unseen_withWriters s index list).findNode hr) ?_
  rw [if_neg hne, ends_bind]
  refine ends_nodeAt lenient_true fun _ _ => ?_
  rw [ends_bind]
  refine ends_editProc lenient_true fun _ _ => ?_
  rw [ends_bind]
  trivial

/-- A write returns if and only if the pipe accepts it at once. -/
theorem pipeWrite_iff (h : Orderly s c) (hn : n ≠ 0) :
    Returns (pipeWrite interrupt index addr n) s ↔ Accepts s c index := by
  by_cases hi : 0 ≤ index ∧ index < MAX_PIPES
  swap
  · refine iff_of_false (Ends.not_returns (E := fun _ _ => True) ?_) fun hacc => hi hacc.1
    rw [pipeWrite, writeLength, if_neg hn, pure_bind, ends_bind, pipeAt, if_neg hi]
    trivial
  have hat := pipeAt_ok (s := s) hi.1 hi.2
  by_cases hcreated : (s.pipes index.toNat).created = 0
  · have hclosed : pipeWrite interrupt index addr n s = .ok ERROR s := by
      rw [pipeWrite, writeLength, if_neg hn, pure_bind, bind_of_ok hat, if_pos hcreated]
      rfl
    exact iff_of_true (returns_of_ok hclosed) ⟨hi, fun h => absurd hcreated h⟩
  by_cases hblocked : ∀ pid, (Pipe.blockProcessPipe (s.pipes index.toNat).wProcesses
      (toInt c.pid)).2 = some pid → findNode (toUInt64 pid) s = .ok 0 s
  swap
  · refine iff_of_false (Ends.not_returns (E := fun _ _ => True) ?_)
      fun hacc => hblocked (hacc.2 hcreated).1
    obtain ⟨x, hx⟩ := not_forall.mp hblocked
    obtain ⟨hx, hfound⟩ := Classical.not_imp.mp hx
    rw [pipeWrite, writeLength, if_neg hn, pure_bind, ends_bind]
    refine ends_of_ok hat ?_
    rw [if_neg hcreated, ends_bind]
    exact (ends_pipeWriteEnter_blocked h hi hx hfound).mono (fun _ _ h => h.elim) fun _ _ h => h
  obtain ⟨list, henter⟩ := pipeWriteEnter_returns interrupt hi h.getRunningPid hblocked
  by_cases hlock : Unlocked s.semaphores (s.pipes index.toNat).name
  · refine iff_of_true ?_ ⟨hi, fun _ => ⟨hblocked, hlock⟩⟩
    rw [Returns, pipeWrite_of_entered interrupt hi hn hcreated henter hlock]
    set u : Kernel H := { s.withWriters index list with
      semaphores := taken s.semaphores (s.pipes index.toNat).name }
    have hu : Orderly u c := h.unseen ⟨rfl, rfl, rfl, rfl⟩ rfl
    obtain ⟨r, hfind⟩ := hu.searches (toUInt64 (toInt c.pid))
    refine pipeWriteBody_returns hi hu.getRunningPid hfind (fun s' hs _ hd => ?_) n
    obtain ⟨r, s'', hpost, -⟩ := semPost_returns (hu.searches.keep hs.samePids)
      (hd.symm ▸ hu.enabled) (u.pipes index.toNat).name
    exact returns_of_ok hpost
  · refine iff_of_false (Ends.not_returns (E := fun _ _ => True) ?_)
      fun hacc => hlock (hacc.2 hcreated).2
    rw [pipeWrite, writeLength, if_neg hn, pure_bind, ends_bind]
    refine ends_of_ok hat ?_
    rw [if_neg hcreated, ends_bind]
    refine ends_of_ok henter ?_
    rw [ends_bind]
    refine ends_of_ok (pipeAt_ok hi.1 hi.2) ?_
    rw [ends_bind, withWriters_name]
    exact (ends_semWait_locked (s := s.withWriters index list) hlock).mono (fun _ _ h => h.elim)
      fun _ _ h => h

/-! ## The end of file -/

/-- Where the write of `c` to a descriptor goes, it does not have to wait. -/
def Unawaited (s : Kernel H) (fd : ℕ) (c : Process) : Prop :=
  ∀ i, writeTarget fd 1 c.writeFd = .pipe i → Accepts s c i

theorem unawaited_iff (hfind : ∀ pid, findNode pid s' = .ok 0 s' ↔ findNode pid s = .ok 0 s)
    (hpipes : s'.pipes = s.pipes) (hlocks : SameLocks s.semaphores s'.semaphores)
    (hpid : c'.pid = c.pid) (hfd : c'.writeFd = c.writeFd) {fd : ℕ} :
    Unawaited s' fd c' ↔ Unawaited s fd c := by
  unfold Unawaited
  simp only [hfd, accepts_iff hfind hpipes hlocks hpid]

theorem sysWrite_iff (h : Orderly s c) {fd : ℕ} :
    Returns (sysWrite interrupt fd addr 1) s ↔ Unawaited s fd c := by
  obtain ⟨n, hn, hc⟩ := h.current_at
  have hfd : getCurrentWrite s = .ok c.writeFd s := by
    have hcurrent : currentProc s = .ok n.proc s := by
      rw [currentProc, get_bind, bind_of_ok ((Unseen.refl s).nodeAt hn)]
      rfl
    rw [getCurrentWrite, bind_of_ok hcurrent, bind_of_ok ((Unseen.refl s).procAt hc)]
    rfl
  rw [sysWrite_eq, returns_bind_of_ok hfd, Unawaited]
  have hone : toInt ((1 : ℕ) : ℤ) ≠ 0 := by decide
  cases writeTarget fd 1 c.writeFd with
  | pipe i =>
    rw [Target.write]
    have hwrite : Returns (pipeWrite interrupt i addr (toInt (1 : ℕ))) s ↔ Accepts s c i :=
      pipeWrite_iff h hone
    refine ⟨fun hret j hj => ?_, fun hacc => ?_⟩
    · injection hj with hj
      exact hj ▸ hwrite.mp hret.of_bind
    · obtain ⟨r, s', hrun⟩ := hwrite.mpr (hacc i rfl)
      exact returns_of_ok (bind_of_ok hrun)
  | nothing => exact iff_of_true (returns_of_ok rfl) fun i hi => by cases hi
  | screen => exact iff_of_true (returns_of_ok rfl) fun i hi => by cases hi
  | keyboard => exact iff_of_true (returns_of_ok rfl) fun i hi => by cases hi

variable [Allocator H]

/-- For a process whose blocks are its own, `free_proc` returns if and only if its end of file does
not have to wait. -/
theorem freeProc_iff (h : Orderly s c) (hp : s.process? proc = some p) {args : List ℕ}
    (hargs : s.argv? p.argv = some args) (hne : p.argv ≠ p.stack)
    (hplain : ∀ a ∈ p.stack :: p.argv :: args, s.node? a = none ∧ s.process? a = none) :
    Returns (freeProc interrupt proc) s ↔ Unawaited s p.writeFd c := by
  obtain ⟨s₁, hs, hglob, -, hwrite⟩ := freeProc_write interrupt ⟨hp, h.current_at⟩ hargs hne hplain
  have hlocks : SameLocks s.semaphores s₁.semaphores := by
    rw [hglob]
    exact SameLocks.refl _
  have hfind : ∀ pid, findNode pid s₁ = .ok 0 s₁ ↔ findNode pid s = .ok 0 s :=
    fun _ => h.searches.findNode_iff hs.extends.samePids
  have hsame : Unawaited s₁ p.writeFd c ↔ Unawaited s p.writeFd c :=
    unawaited_iff hfind (congrArg Globals.pipes hglob) hlocks rfl rfl
  have h₁ : Orderly s₁ c := h.unseen hs (congrArg Globals.disableCount hglob)
  rw [← hsame, ← sysWrite_iff h₁, Returns, hwrite]
  refine ⟨Returns.of_bind, fun hret => ?_⟩
  obtain ⟨r, s₂, hrun⟩ := hret
  exact ⟨_, _, bind_of_ok hrun⟩

/-- Without an argument list `free_argv` reads through NULL. -/
theorem ends_freeProc_null (hp : s.process? proc = some p) (hargv : p.argv = 0)
    (hnull : s.mem 0 = none) (force : Op H Unit) :
    Ends (fun _ _ => False) (fun _ _ => True) (freeProc force proc) s := by
  rw [freeProc, ends_bind]
  refine ends_procAt lenient_true fun p₀ _ => ?_
  rw [ends_bind]
  refine (ends_free _ s).mono (fun _ s₁ h₁ => ?_) fun _ _ h => h
  rw [ends_bind]
  refine ends_procAt lenient_true fun p₁ hp₁ => ?_
  obtain rfl := Option.some.inj (hp.symm.trans (h₁.1.process? hp₁))
  rw [ends_bind]
  refine (ends_freeArgv _ s₁).mono (fun _ s₂ h₂ => ?_) fun _ _ h => h
  obtain ⟨args, hargs, -⟩ := h₂.2
  have hmem := h₁.1.mem _ _ (argv?_eq_some.mp hargs)
  rw [hargv, hnull] at hmem
  cases hmem

/-! ## On a ring -/

variable {ring : List Entry} {e : Entry}

/-- On a ring every search ends. -/
theorem Shows.searches (h : Shows s ring) (hfirst : s.first ∈ ring.map Entry.node) :
    Searches s := by
  intro pid
  rcases findNode_cases h hfirst pid with ⟨x, -, -, hfind⟩ | ⟨-, hfind⟩
  · exact ⟨_, hfind⟩
  · exact ⟨_, hfind⟩

theorem Shows.findNode_zero_iff (h : Shows s ring) (hfirst : s.first ∈ ring.map Entry.node)
    {pid : ℕ} : findNode pid s = .ok 0 s ↔ ∀ x ∈ ring, x.proc.pid ≠ pid := by
  rcases findNode_cases h hfirst pid with ⟨x, hx, hpid, hfind⟩ | ⟨hnone, hfind⟩
  · rw [hfind]
    refine iff_of_false (fun heq => ?_) fun hall => hall x hx hpid
    injection heq with hnode
    exact h.node_ne_zero hx hnode
  · exact iff_of_true hfind hnone

theorem Shows.orderly (h : Shows s ring) (hfirst : s.first ∈ ring.map Entry.node) (he : e ∈ ring)
    (hcur : e.node = s.currentNode) (hd : s.disableCount < 2 ^ 31 - 1) : Orderly s e.proc where
  running := hcur ▸ h.node_ne_zero he
  current_at := ⟨_, hcur ▸ h.node_at e he, h.process_at e he⟩
  searches := h.searches hfirst
  enabled := hd

end TronKernel.Sched
