import TronKernel.Lib.Runs
import TronKernel.Sched.Outcomes

/-!
# Where pids come from

`newProcess` is the only code that makes a process, with the pid that `pidc` has, one at a time. All
the rest assigns to processes without their pids, and frees them: it is `Barren`, whether it returns
or another process is switched to. So a pid that no process has any more, and that has been given
out, is never seen again until `pidc` comes round (`buried_run`).
-/

namespace TronKernel.Sched

open Programs Sem
open Pipe (PipeT blockProcessPipe releaseProcessPipe)

variable {H α β : Type} {s s' s₁ s₂ : Kernel H} {a q : ℕ}

/-- No process has appeared, and none has got another pid. -/
structure Fewer (s s' : Kernel H) : Prop where
  pidc : s'.pidc = s.pidc
  pids : ∀ a p', s'.process? a = some p' → ∃ p, s.process? a = some p ∧ p.pid = p'.pid

theorem Fewer.refl (s : Kernel H) : Fewer s s := ⟨rfl, fun _ p' hp' => ⟨p', hp', rfl⟩⟩

theorem Fewer.trans (h : Fewer s s₁) (h' : Fewer s₁ s₂) : Fewer s s₂ := by
  refine ⟨h'.pidc.trans h.pidc, fun a p₂ hp₂ => ?_⟩
  obtain ⟨p₁, hp₁, heq₁⟩ := h'.pids a p₂ hp₂
  obtain ⟨p, hp, heq⟩ := h.pids a p₁ hp₁
  exact ⟨p, hp, heq.trans heq₁⟩

/-- An assignment to the other globals, or to the heap. -/
theorem Fewer.of_mem (hpidc : s'.pidc = s.pidc) (hmem : s'.mem = s.mem) : Fewer s s' := by
  refine ⟨hpidc, fun a p' hp' => ⟨p', ?_, rfl⟩⟩
  rw [process?_eq_some] at hp' ⊢
  rwa [hmem] at hp'

theorem Fewer.put {o : Object} (ho : ∀ p, o ≠ .process p) : Fewer s (s.put a o) := by
  refine ⟨rfl, fun b p' hp' => ?_⟩
  rw [process?_eq_some, put_mem] at hp'
  split_ifs at hp'
  · exact absurd (Option.some.inj hp') (ho p')
  · exact ⟨p', process?_eq_some.mpr hp', rfl⟩

theorem Fewer.put_process {p p' : Process} (hp : s.process? a = some p) (hpid : p'.pid = p.pid) :
    Fewer s (s.put a (.process p')) := by
  refine ⟨rfl, fun b p₂ hp₂ => ?_⟩
  rw [process?_put_process] at hp₂
  split_ifs at hp₂ with hb
  · rw [hb, ← Option.some.inj hp₂]
    exact ⟨p, hp, hpid.symm⟩
  · exact ⟨p₂, hp₂, rfl⟩

/-! ## Code that makes no process -/

/-- Where the program returns, or another process has been switched to, no process has appeared. -/
def Barren (m : Op H α) : Prop := KeepsAt (· = Stop.switched) Fewer m

theorem barren_pure (v : α) : Barren (pure v : Op H α) := keepsAt_pure Fewer.refl v

theorem barren_throw (e : Stop) : Barren (throw e : Op H α) := keepsAt_throw Fewer.refl e

theorem Barren.bind {m : Op H α} {f : α → Op H β} (hm : Barren m) (hf : ∀ v, Barren (f v)) :
    Barren (m >>= f) :=
  KeepsAt.bind Fewer.trans hm hf

theorem barren_get_bind {f : Kernel H → Op H β} (hf : ∀ s, Barren (f s)) : Barren (get >>= f) :=
  keepsAt_get_bind hf

theorem barren_modify {g : Kernel H → Kernel H} (hpidc : ∀ s, (g s).pidc = s.pidc)
    (hmem : ∀ s, (g s).mem = s.mem) : Barren (modify g : Op H Unit) :=
  keepsAt_modify fun s => .of_mem (hpidc s) (hmem s)

theorem lenient_fewer (s : Kernel H) : Lenient fun e s' => e = Stop.switched → Fewer s s' :=
  lenient_whenSwitched _

theorem barren_nodeAt (a : ℕ) : Barren (nodeAt a : Op H Node) :=
  fun s => ends_nodeAt (lenient_fewer s) fun _ _ => .refl s

theorem barren_procAt (a : ℕ) : Barren (procAt a : Op H Process) :=
  fun s => ends_procAt (lenient_fewer s) fun _ _ => .refl s

theorem barren_argvAt (a : ℕ) : Barren (argvAt a : Op H (List ℕ)) := by
  intro s
  rw [Ends, argvAt]
  split
  · next hargs =>
    split at hargs <;> cases hargs
    exact .refl s
  · next hargs =>
    split at hargs <;> cases hargs
    exact fun _ => .refl s

theorem barren_editNode (a : ℕ) (f : Node → Node) : Barren (editNode a f : Op H Unit) :=
  fun s => ends_editNode (lenient_fewer s) fun _ _ => .put fun _ => by simp

theorem barren_editProc (a : ℕ) {f : Process → Process} (hf : ∀ p, (f p).pid = p.pid) :
    Barren (editProc a f : Op H Unit) :=
  fun s => ends_editProc (lenient_fewer s) fun p hp => .put_process hp (hf p)

theorem barren_put (a : ℕ) {o : Object} (ho : ∀ p, o ≠ .process p) : Barren (put a o : Op H Unit) :=
  keepsAt_modify fun _ => .put ho

theorem barren_currentProc : Barren (currentProc : Op H ℕ) :=
  fun s => ends_currentProc (lenient_fewer s) fun _ _ => .refl s

theorem barren_foregroundProc : Barren (foregroundProc : Op H ℕ) := by
  refine barren_get_bind fun s => ?_
  split_ifs
  · exact barren_pure 0
  · refine barren_get_bind fun s => ?_
    exact (barren_nodeAt _).bind fun n => barren_pure n.proc

theorem barren_getRunningPid : Barren (getRunningPid : Op H ℕ) :=
  fun s => ends_getRunningPid (lenient_fewer s) fun _ _ => .refl s

theorem barren_schedulerEnable : Barren (schedulerEnable : Op H Unit) := by
  refine barren_modify (fun s => ?_) fun s => ?_ <;>
  · split_ifs <;> rfl

theorem barren_schedulerDisable : Barren (schedulerDisable : Op H Unit) :=
  fun s => ends_schedulerDisable (lenient_fewer s) fun _ _ => .of_mem rfl rfl

theorem barren_findNode (pid : ℕ) : Barren (findNode pid : Op H ℕ) :=
  fun s => ends_findNode (lenient_fewer s) (.refl s) fun _ _ => .refl s

theorem barren_findNextReady (start : ℕ) : Barren (findNextReady start : Op H ℕ) :=
  fun s => ends_findNextReady (lenient_fewer s) start fun _ _ _ _ _ _ => .refl s

theorem barren_readyProcess (pid : ℕ) : Barren (readyProcess pid : Op H ℕ) := by
  intro s
  refine ends_readyProcess (lenient_fewer s) (.refl s) fun a p v hp _ => ?_
  have hready : Fewer s (s.put a (.process { p with state := .ready })) := .put_process hp rfl
  exact hready.trans (.of_mem rfl rfl)

theorem barren_changePriority (pid priority : ℕ) :
    Barren (changePriority pid priority : Op H ℕ) := by
  intro s
  exact ends_changePriority (lenient_fewer s) (.refl s) fun a p v hp _ => .put_process hp rfl

variable {force : Op H Unit}

theorem barren_blockProcess (hforce : Barren force) (pid : ℕ) :
    Barren (blockProcess force pid) := by
  intro s
  refine ends_blockProcess (lenient_fewer s) (.refl s) fun a p hp _ => ?_
  have hblocked : Fewer s (s.put a (.process { p with state := .blocked })) := .put_process hp rfl
  exact (hforce _).mono (fun _ _ hend _ => hblocked.trans hend)
    fun _ _ hend heq => hblocked.trans (hend heq)

/-! ### Semaphores -/

theorem barren_semAt (idx : ℕ) : Barren (semAt idx : Op H SemT) := fun s => .refl s

theorem barren_editSem (idx : ℕ) (f : SemT → SemT) : Barren (editSem idx f : Op H Unit) :=
  barren_modify (fun _ => rfl) fun _ => rfl

theorem barren_takeLock (idx : ℕ) : Barren (takeLock idx : Op H Bool) := by
  refine (barren_semAt idx).bind fun sem => ?_
  refine (barren_editSem idx _).bind fun _ => ?_
  split_ifs
  · exact barren_pure _
  · exact barren_pure _
  · exact (barren_editSem idx _).bind fun _ => barren_pure _

theorem barren_semSleep (hforce : Barren force) (idx : ℕ) : Barren (semSleep force idx) := by
  refine barren_getRunningPid.bind fun pid => ?_
  refine barren_schedulerDisable.bind fun _ => ?_
  refine (barren_editSem idx _).bind fun _ => ?_
  refine (barren_takeLock idx).bind fun taken => ?_
  split_ifs
  · refine (barren_editSem idx _).bind fun _ => ?_
    refine (barren_readyProcess _).bind fun _ => ?_
    exact barren_schedulerEnable.bind fun _ => barren_pure _
  · refine barren_schedulerEnable.bind fun _ => ?_
    exact hforce.bind fun _ => barren_pure _

theorem barren_semWait (hforce : Barren force) (name : List UInt8) :
    Barren (semWait force name) := by
  have hloop : ∀ idx rounds, Barren (semWaitLoop force idx rounds) := by
    intro idx rounds
    induction rounds with
    | zero => exact barren_throw _
    | succ rounds ih =>
      refine (barren_takeLock idx).bind fun taken => ?_
      split_ifs
      · exact barren_pure _
      · refine (barren_semSleep hforce idx).bind fun broke => ?_
        split_ifs
        · exact barren_pure _
        · exact ih
  refine barren_get_bind fun s => ?_
  dsimp only
  split_ifs
  · exact barren_pure _
  · refine (hloop _ _).bind fun _ => ?_
    exact (barren_editSem _ _).bind fun _ => barren_pure _

theorem barren_semPost (name : List UInt8) : Barren (semPost name : Op H ℤ) := by
  refine barren_get_bind fun s => ?_
  dsimp only
  split_ifs
  · exact barren_pure _
  · refine barren_schedulerDisable.bind fun _ => ?_
    refine (barren_editSem _ _).bind fun _ => ?_
    refine Barren.bind ?_ fun _ => barren_schedulerEnable.bind fun _ => barren_pure _
    refine (barren_semAt _).bind fun sem => ?_
    split_ifs
    · refine (barren_editSem _ _).bind fun _ => ?_
      exact (barren_readyProcess _).bind fun _ => barren_pure _
    · exact barren_pure _

/-! ### Pipes -/

theorem barren_pipeAt (index : ℤ) : Barren (pipeAt index : Op H PipeT) := by
  unfold pipeAt
  split_ifs
  · exact barren_get_bind fun s => barren_pure _
  · exact barren_throw _

theorem barren_editPipe (index : ℤ) (f : PipeT → PipeT) : Barren (editPipe index f : Op H Unit) :=
  barren_modify (fun _ => rfl) fun _ => rfl

theorem barren_pipeWriteEnter (hforce : Barren force) (index : ℤ) :
    Barren (pipeWriteEnter force index) := by
  refine barren_getRunningPid.bind fun pid => ?_
  refine (barren_pipeAt index).bind fun p => ?_
  rcases blockProcessPipe p.wProcesses (toInt pid) with ⟨list, blocked⟩
  dsimp only
  refine (barren_editPipe index _).bind fun _ => ?_
  cases blocked with
  | none => exact barren_pure _
  | some pid => exact (barren_blockProcess hforce _).bind fun _ => barren_pure _

theorem barren_pipeReadEnter (hforce : Barren force) (index : ℤ) :
    Barren (pipeReadEnter force index) := by
  refine barren_getRunningPid.bind fun pid => ?_
  refine (barren_pipeAt index).bind fun p => ?_
  rcases blockProcessPipe p.rProcesses (toInt pid) with ⟨list, blocked⟩
  dsimp only
  refine (barren_editPipe index _).bind fun _ => ?_
  cases blocked with
  | none => exact barren_pure _
  | some pid => exact (barren_blockProcess hforce _).bind fun _ => barren_pure _

theorem barren_pipeRelease (index : ℤ) : Barren (pipeRelease index : Op H Unit) := by
  refine barren_getRunningPid.bind fun pid => ?_
  refine (barren_pipeAt index).bind fun p => ?_
  rcases releaseProcessPipe p.wProcesses (toInt pid) with ⟨list, released⟩
  dsimp only
  refine Barren.bind ?_ fun _ => barren_editPipe index _
  cases released with
  | none => exact barren_pure _
  | some pid => exact (barren_readyProcess _).bind fun _ => barren_pure _

theorem barren_pipeWrite (hforce : Barren force) (index : ℤ) (addr : ℕ → UInt8) (n : ℤ) :
    Barren (pipeWrite force index addr n) := by
  refine Barren.bind ?_ fun n => ?_
  · unfold writeLength
    split_ifs
    · split
      · exact barren_pure _
      · exact barren_throw _
    · exact barren_pure _
  refine (barren_pipeAt index).bind fun p => ?_
  split_ifs
  · exact barren_pure _
  refine (barren_pipeWriteEnter hforce index).bind fun _ => ?_
  refine (barren_pipeAt index).bind fun p => ?_
  refine (barren_semWait hforce _).bind fun _ => ?_
  refine (barren_pipeRelease index).bind fun _ => ?_
  refine (barren_pipeAt index).bind fun p => ?_
  rcases Pipe.writeData p addr n with ⟨p', i⟩
  refine (barren_editPipe index _).bind fun _ => ?_
  exact (barren_semPost _).bind fun _ => barren_pure _

theorem barren_pipeRead (hforce : Barren force) (index n : ℤ) :
    Barren (pipeRead force index n) := by
  refine (barren_pipeAt index).bind fun p => ?_
  split_ifs
  · exact barren_pure _
  refine (barren_pipeReadEnter hforce index).bind fun _ => ?_
  refine (barren_pipeAt index).bind fun p => ?_
  refine (barren_semWait hforce _).bind fun _ => ?_
  refine (barren_pipeRelease index).bind fun _ => ?_
  refine (barren_pipeAt index).bind fun p => ?_
  rcases Pipe.readData p n with ⟨p', bytes, i⟩
  refine (barren_editPipe index _).bind fun _ => ?_
  exact (barren_semPost _).bind fun _ => barren_pure _

theorem barren_sysWrite (hforce : Barren force) (fd : ℕ) (addr : ℕ → UInt8) (n : ℕ) :
    Barren (sysWrite force fd addr n) := by
  refine barren_currentProc.bind fun proc => ?_
  refine (barren_procAt proc).bind fun p => ?_
  generalize (if fd % 256 = 2 then 1 else fd % 256) = fd
  dsimp only
  generalize toInt (toUInt64 _) = index
  generalize toInt (n : ℤ) = m
  split_ifs
  · exact barren_pure _
  · exact barren_pure _
  · exact barren_pure _
  · exact (barren_pipeWrite hforce index addr m).bind fun _ => barren_pure _

/-! ### The scheduler -/

theorem barren_dispatch (start : ℕ) : Barren (dispatch start : Op H Unit) := by
  refine (barren_findNextReady start).bind fun next => ?_
  refine Barren.bind (barren_modify (fun _ => rfl) fun _ => rfl) fun _ => ?_
  refine barren_currentProc.bind fun proc => ?_
  refine Barren.bind (barren_editProc proc fun _ => rfl) fun _ => ?_
  refine (barren_procAt proc).bind fun p => ?_
  exact barren_get_bind fun s => barren_editNode _ _

theorem barren_schedulerSwitch : Barren (schedulerSwitch : Op H Unit) := by
  refine barren_get_bind fun s => ?_
  refine (barren_nodeAt s.currentNode).bind fun n => ?_
  refine (barren_procAt n.proc).bind fun p => ?_
  split_ifs
  · exact barren_dispatch n.next
  refine barren_get_bind fun s => ?_
  split_ifs
  · refine Barren.bind (barren_modify (fun _ => rfl) fun _ => rfl) fun _ => ?_
    exact Barren.bind (barren_editProc n.proc fun _ => rfl) fun _ => barren_dispatch n.next
  · exact barren_pure _

theorem barren_readyForegroundProc : Barren (readyForegroundProc : Op H Unit) := by
  refine barren_foregroundProc.bind fun proc => ?_
  exact barren_editProc proc fun _ => rfl

theorem barren_killCurrentProcess (hforce : Barren force) : Barren (killCurrentProcess force) := by
  refine barren_currentProc.bind fun proc => ?_
  exact Barren.bind (barren_editProc proc fun _ => rfl) fun _ => hforce

theorem barren_waitPid (hforce : Barren force) : Barren (waitPid force) := by
  refine barren_currentProc.bind fun proc => ?_
  refine (barren_procAt proc).bind fun p => ?_
  split_ifs
  · refine Barren.bind (barren_editProc proc fun _ => rfl) fun _ => ?_
    refine Barren.bind (barren_modify (fun _ => rfl) fun _ => rfl) fun _ => ?_
    refine barren_currentProc.bind fun proc => ?_
    exact Barren.bind (barren_editProc proc fun _ => rfl) fun _ => hforce
  · exact barren_pure _

theorem barren_forceCurrentYield (hforce : Barren force) : Barren (forceCurrentYield force) :=
  Barren.bind (barren_modify (fun _ => rfl) fun _ => rfl) fun _ => hforce

theorem barren_loseChild (parent : ℕ) : Barren (loseChild parent : Op H Unit) := by
  refine (barren_nodeAt parent).bind fun n => ?_
  refine Barren.bind (barren_editProc n.proc fun _ => rfl) fun _ => ?_
  refine (barren_nodeAt parent).bind fun n => ?_
  refine (barren_procAt n.proc).bind fun p => ?_
  split_ifs
  · refine (barren_nodeAt parent).bind fun n => ?_
    refine Barren.bind (barren_editProc n.proc fun _ => rfl) fun _ => ?_
    refine (barren_nodeAt parent).bind fun n => ?_
    refine (barren_procAt n.proc).bind fun p => ?_
    exact (barren_readyProcess p.pid).bind fun _ => barren_pure _
  · exact barren_pure _

theorem barren_countRemoval (node : ℕ) : Barren (countRemoval node : Op H Unit) := by
  refine Barren.bind (barren_modify (fun _ => rfl) fun _ => rfl) fun _ => ?_
  refine (barren_nodeAt node).bind fun n => ?_
  refine (barren_procAt n.proc).bind fun p => ?_
  split_ifs
  · exact barren_modify (fun _ => rfl) fun _ => rfl
  · exact barren_pure _

theorem barren_absorbNext (node : ℕ) : Barren (absorbNext node : Op H Unit) := by
  refine (barren_nodeAt node).bind fun n => ?_
  refine (barren_nodeAt n.next).bind fun w => ?_
  refine (barren_editNode node _).bind fun _ => ?_
  refine (barren_nodeAt node).bind fun n => ?_
  refine (barren_nodeAt n.next).bind fun w => ?_
  refine (barren_editNode node _).bind fun _ => ?_
  refine (barren_nodeAt node).bind fun n => ?_
  refine (barren_procAt n.proc).bind fun p => ?_
  split_ifs
  · exact barren_modify (fun _ => rfl) fun _ => rfl
  · exact barren_pure _

variable [Allocator H]

/-! ### Blocks -/

theorem barren_malloc (n : ℕ) : Barren (malloc n : Op H ℕ) := fun _ => .of_mem rfl rfl

theorem barren_free (a : ℕ) : Barren (free a : Op H Unit) := by
  refine fun s => ⟨rfl, fun b p' hp' => ⟨p', ?_, rfl⟩⟩
  replace hp' : Function.update s.mem a none b = some (.process p') := process?_eq_some.mp hp'
  rw [process?_eq_some]
  by_cases hb : b = a
  · simp [hb] at hp'
  · rwa [Function.update_of_ne hb] at hp'

theorem barren_freeAll (as : List ℕ) : Barren (freeAll as : Op H Unit) := by
  induction as with
  | nil => exact barren_pure _
  | cons a as ih => exact (barren_free a).bind fun _ => ih

theorem barren_freeArgv (argv : ℕ) : Barren (freeArgv argv : Op H Unit) := by
  refine (barren_argvAt argv).bind fun args => ?_
  exact (barren_freeAll args).bind fun _ => barren_free argv

theorem barren_saveArgv (argc : ℤ) (argv : List (List UInt8)) :
    Barren (saveArgv argc argv : Op H ℕ) := by
  have hcopy : ∀ ret args copies, Barren (copyArgs ret copies args : Op H ℕ) := by
    intro ret args
    induction args with
    | nil => exact fun copies => (barren_put ret fun _ => by simp).bind fun _ => barren_pure _
    | cons arg args ih =>
      intro copies
      refine (barren_malloc _).bind fun copy => ?_
      split_ifs
      · refine (barren_freeAll copies).bind fun _ => ?_
        exact (barren_free ret).bind fun _ => barren_pure _
      · exact (barren_put copy fun _ => by simp).bind fun _ => ih _
  refine (barren_malloc _).bind fun ret => ?_
  split_ifs
  · exact barren_pure _
  · exact barren_throw _
  · exact hcopy ret _ []

theorem barren_freeProc (hforce : Barren force) (proc : ℕ) : Barren (freeProc force proc) := by
  refine (barren_procAt proc).bind fun p => ?_
  refine (barren_free p.stack).bind fun _ => ?_
  refine (barren_procAt proc).bind fun p => ?_
  refine (barren_freeArgv p.argv).bind fun _ => ?_
  refine barren_get_bind fun s => ?_
  refine (barren_procAt proc).bind fun p => ?_
  exact (barren_sysWrite hforce _ _ _).bind fun _ => barren_free proc

theorem barren_addNode (proc : ℕ) : Barren (addNode proc : Op H ℕ) := by
  refine (barren_malloc _).bind fun newNode => ?_
  split_ifs
  · exact barren_pure _
  refine barren_get_bind fun s => ?_
  refine (barren_procAt proc).bind fun p => ?_
  refine (barren_nodeAt s.currentNode).bind fun n => ?_
  refine (barren_put newNode fun _ => by simp).bind fun _ => ?_
  exact (barren_editNode s.currentNode _).bind fun _ => barren_pure _

/-! ### Killing -/

theorem barren_destroyNode (hforce : Barren force) (node : ℕ) :
    Barren (destroyNode force node) := by
  refine barren_currentProc.bind fun proc => ?_
  refine (barren_procAt proc).bind fun p => ?_
  refine (barren_findNode p.ppid).bind fun parent => ?_
  split_ifs
  · exact barren_pure _
  refine (barren_semWait hforce _).bind fun _ => ?_
  refine (barren_loseChild parent).bind fun _ => ?_
  refine (barren_semPost _).bind fun _ => ?_
  refine (barren_countRemoval node).bind fun _ => ?_
  refine (barren_nodeAt node).bind fun n => ?_
  refine (barren_nodeAt node).bind fun m => ?_
  refine (barren_freeProc hforce m.proc).bind fun _ => ?_
  exact (barren_absorbNext node).bind fun _ => barren_free n.next

theorem barren_killOther (hforce : Barren force) (pid : ℕ) : Barren (killOther force pid) := by
  refine (barren_findNode pid).bind fun node => ?_
  split_ifs
  · exact barren_pure _
  refine (barren_nodeAt node).bind fun n => ?_
  refine Barren.bind (barren_editProc n.proc fun _ => rfl) fun _ => ?_
  refine (barren_nodeAt node).bind fun n => ?_
  refine (barren_procAt n.proc).bind fun p => ?_
  exact (barren_destroyNode hforce node).bind fun _ => barren_pure _

theorem barren_killProcess (hforce : Barren force) (pid : ℕ) : Barren (killProcess force pid) := by
  refine Barren.bind ?_ fun _ => barren_killOther hforce pid
  refine barren_currentProc.bind fun proc => ?_
  refine (barren_procAt proc).bind fun p => ?_
  split_ifs
  · exact barren_killCurrentProcess hforce
  · exact barren_pure _

theorem barren_killForegroundProc (hforce : Barren force) : Barren (killForegroundProc force) := by
  refine barren_get_bind fun s => ?_
  split_ifs
  · refine barren_get_bind fun s => ?_
    refine Barren.bind (barren_modify (fun _ => rfl) fun _ => rfl) fun _ => ?_
    refine barren_readyForegroundProc.bind fun _ => ?_
    refine barren_foregroundProc.bind fun proc => ?_
    refine Barren.bind (barren_editProc proc fun _ => rfl) fun _ => ?_
    refine Barren.bind (barren_modify (fun _ => rfl) fun _ => rfl) fun _ => ?_
    refine (barren_nodeAt s.foreground).bind fun n => ?_
    refine (barren_procAt n.proc).bind fun p => ?_
    exact (barren_killProcess hforce p.pid).bind fun _ => barren_pure _
  · exact barren_pure _

theorem barren_scheduler (hforce : Barren force) (sp : ℕ) : Barren (scheduler force sp) := by
  refine barren_get_bind fun s => ?_
  split_ifs
  · refine barren_currentProc.bind fun proc => ?_
    exact Barren.bind (barren_editProc proc fun _ => rfl) fun _ => barren_pure _
  refine barren_get_bind fun s => ?_
  split_ifs
  · exact barren_pure _
  refine barren_currentProc.bind fun proc => ?_
  refine Barren.bind (barren_editProc proc fun _ => rfl) fun _ => ?_
  refine Barren.bind ?_ fun _ => barren_currentProc.bind fun proc =>
    (barren_procAt proc).bind fun p => barren_pure p.sp
  refine barren_currentProc.bind fun proc => ?_
  refine (barren_procAt proc).bind fun p => ?_
  cases p.state with
  | running =>
    refine barren_get_bind fun s => ?_
    exact (barren_editNode s.currentNode _).bind fun _ => barren_schedulerSwitch
  | killed =>
    refine Barren.bind ?_ fun _ => barren_get_bind fun s => barren_dispatch _
    refine barren_currentProc.bind fun proc => ?_
    refine barren_foregroundProc.bind fun foreground => ?_
    split_ifs
    · exact barren_killForegroundProc hforce
    · exact barren_get_bind fun s => barren_destroyNode hforce s.currentNode
  | _ => exact barren_schedulerSwitch

/-! ## Code that makes a process -/

/-- At most one process has appeared, and its pid is the one that `pidc` had. -/
structure Bears (s s' : Kernel H) : Prop where
  pidc : s'.pidc = s.pidc ∨ s'.pidc = incr64 s.pidc
  pids : ∃ new, ∀ a p', s'.process? a = some p' →
    (∃ p, s.process? a = some p ∧ p.pid = p'.pid) ∨
      a = new ∧ p'.pid = s.pidc ∧ s'.pidc = incr64 s.pidc

omit [Allocator H] in
theorem Fewer.bears (h : Fewer s s') : Bears s s' :=
  ⟨Or.inl h.pidc, 0, fun a p' hp' => Or.inl (h.pids a p' hp')⟩

omit [Allocator H] in
theorem Bears.fewer (h : Bears s s₁) (h' : Fewer s₁ s₂) : Bears s s₂ := by
  obtain ⟨hpidc, new, hpids⟩ := h
  refine ⟨h'.pidc ▸ hpidc, new, fun a p₂ hp₂ => ?_⟩
  obtain ⟨p₁, hp₁, heq₁⟩ := h'.pids a p₂ hp₂
  rw [h'.pidc, ← heq₁]
  exact hpids a p₁ hp₁

omit [Allocator H] in
theorem Fewer.trans_bears (h : Fewer s s₁) (h' : Bears s₁ s₂) : Bears s s₂ := by
  obtain ⟨hpidc, new, hpids⟩ := h'
  rw [h.pidc] at hpidc hpids
  refine ⟨hpidc, new, fun a p₂ hp₂ => (hpids a p₂ hp₂).imp_left ?_⟩
  rintro ⟨p₁, hp₁, heq₁⟩
  obtain ⟨p, hp, heq⟩ := h.pids a p₁ hp₁
  exact ⟨p, hp, heq.trans heq₁⟩

/-- The code makes at most one process. -/
def Fertile (m : Op H α) : Prop :=
  ∀ s, Ends (fun _ => Bears s) (WhenSwitched (Bears s)) m s

omit [Allocator H] in
theorem Barren.fertile {m : Op H α} (hm : Barren m) : Fertile m := fun s =>
  (hm s).mono (fun _ _ h => h.bears) fun _ _ h heq => (h heq).bears

omit [Allocator H] in
theorem Barren.bind_fertile {m : Op H α} {f : α → Op H β} (hm : Barren m)
    (hf : ∀ v, Fertile (f v)) : Fertile (m >>= f) := by
  intro s
  rw [ends_bind]
  refine (hm s).mono (fun v s₁ h => ?_) fun _ _ h heq => (h heq).bears
  exact (hf v s₁).mono (fun _ _ h' => h.trans_bears h') fun _ _ h' heq => h.trans_bears (h' heq)

omit [Allocator H] in
theorem Fertile.bind {m : Op H α} {f : α → Op H β} (hm : Fertile m) (hf : ∀ v, Barren (f v)) :
    Fertile (m >>= f) := by
  intro s
  rw [ends_bind]
  refine (hm s).mono (fun v s₁ h => ?_) fun _ _ h => h
  exact (hf v s₁).mono (fun _ _ h' => h.fewer h') fun _ _ h' heq => h.fewer (h' heq)

omit [Allocator H] in
/-- The process that is made gets the pid that has just been taken from `pidc`. -/
theorem Fewer.bears_put (h : Fewer { s with pidc := incr64 s.pidc } s') {p : Process}
    (hpid : p.pid = s.pidc) : Bears s (s'.put a (.process p)) := by
  refine ⟨Or.inr h.pidc, a, fun b p' hp' => ?_⟩
  rw [process?_put_process] at hp'
  split_ifs at hp' with hb
  · exact Or.inr ⟨hb, Option.some.inj hp' ▸ hpid, h.pidc⟩
  · exact Or.inl (h.pids b p' hp')

theorem fertile_newProcess (hforce : Barren force) (name readFd writeFd priority : ℕ)
    (argv : List (List UInt8)) : Fertile (newProcess force name argv readFd writeFd priority) := by
  refine (barren_malloc _).bind_fertile fun proc => ?_
  split_ifs
  · exact (barren_pure _).fertile
  refine (barren_saveArgv _ argv).bind_fertile fun saved => ?_
  refine (barren_malloc _).bind_fertile fun stack => ?_
  split_ifs
  · exact ((barren_free proc).bind fun _ => barren_pure _).fertile
  refine (barren_put stack fun _ => by simp).bind_fertile fun _ => ?_
  refine (barren_semWait hforce _).bind_fertile fun _ => ?_
  -- from here on the pid is known
  intro s
  rw [ends_bind, ends_get, ends_bind, ends_modify, ends_bind]
  have hnext : ∀ {s'}, Fewer { s with pidc := incr64 s.pidc } s' → Bears s s' := fun h =>
    ⟨Or.inr h.pidc, 0, fun a p' hp' => Or.inl (h.pids a p' hp')⟩
  refine (barren_semPost _ _).mono (fun _ s₁ h₁ => ?_) fun _ _ h heq => hnext (h heq)
  rw [ends_bind]
  refine (barren_getRunningPid s₁).mono (fun ppid s₂ h₂ => ?_)
    fun _ _ h heq => hnext (h₁.trans (h heq))
  exact (h₁.trans h₂).bears_put rfl

theorem fertile_addProcess (hforce : Barren force) (name readFd writeFd priority isForeground : ℕ)
    (argv : List (List UInt8)) :
    Fertile (addProcess force name argv readFd writeFd priority isForeground) := by
  refine barren_schedulerDisable.bind_fertile fun _ => ?_
  refine (fertile_newProcess hforce name readFd writeFd _ argv).bind fun proc => ?_
  refine (barren_semWait hforce _).bind fun _ => ?_
  refine barren_currentProc.bind fun current => ?_
  refine Barren.bind (barren_editProc current fun _ => rfl) fun _ => ?_
  refine (barren_semPost _).bind fun _ => ?_
  refine (barren_addNode proc).bind fun newNode => ?_
  refine Barren.bind (barren_modify (fun s => ?_) fun s => ?_) fun _ => ?_
  · split_ifs <;> rfl
  · split_ifs <;> rfl
  refine Barren.bind (barren_modify (fun _ => rfl) fun _ => rfl) fun _ => ?_
  refine barren_schedulerEnable.bind fun _ => ?_
  exact (barren_procAt proc).bind fun p => barren_pure p.pid

/-! ## Pids that are in use, and pids that are not -/

/-- The processes in memory have different pids, all of them given out. -/
structure Issued (s : Kernel H) : Prop where
  lt : ∀ a p, s.process? a = some p → p.pid < s.pidc
  inj : ∀ a b p p', s.process? a = some p → s.process? b = some p' → p.pid = p'.pid → a = b

/-- The pid has been given out, and no process has it. -/
structure Buried (q : ℕ) (s : Kernel H) : Prop where
  lt : q < s.pidc
  absent : ∀ a p, s.process? a = some p → p.pid ≠ q

/-- There is a next pid. -/
def Unspent (s : Kernel H) : Prop := s.pidc + 1 < 2 ^ 64

instance (s : Kernel H) : Decidable (Unspent s) := inferInstanceAs (Decidable (_ < _))

omit [Allocator H] in
theorem Bears.pidc_le (h : Bears s s') (hs : Unspent s) :
    s.pidc ≤ s'.pidc ∧ s'.pidc ≤ s.pidc + 1 := by
  rcases h.pidc with hpidc | hpidc
  · omega
  · rw [hpidc, incr64_of_lt hs]
    omega

omit [Allocator H] in
theorem Issued.bears (h : Issued s) (hs : Unspent s) (hb : Bears s s') : Issued s' := by
  have hle := hb.pidc_le hs
  obtain ⟨-, new, hpids⟩ := hb
  refine ⟨fun a p' hp' => ?_, fun a b p₁ p₂ hp₁ hp₂ heq => ?_⟩
  · rcases hpids a p' hp' with ⟨p, hp, hpid⟩ | ⟨-, hpid, hpidc⟩
    · exact hpid ▸ (h.lt a p hp).trans_le hle.1
    · rw [hpid, hpidc, incr64_of_lt hs]
      exact Nat.lt_succ_self _
  · rcases hpids a p₁ hp₁ with ⟨p, hp, hpid⟩ | ⟨rfl, hpid, -⟩ <;>
      rcases hpids b p₂ hp₂ with ⟨p', hp', hpid'⟩ | ⟨rfl, hpid', -⟩
    · exact h.inj a b p p' hp hp' (hpid.trans (heq.trans hpid'.symm))
    · exact absurd (hpid.trans (heq.trans hpid')) (h.lt a p hp).ne
    · exact absurd (hpid'.trans (heq.symm.trans hpid)) (h.lt b p' hp').ne
    · rfl

omit [Allocator H] in
theorem Buried.bears (h : Buried q s) (hs : Unspent s) (hb : Bears s s') : Buried q s' := by
  refine ⟨h.lt.trans_le (hb.pidc_le hs).1, fun a p' hp' => ?_⟩
  obtain ⟨-, new, hpids⟩ := hb
  rcases hpids a p' hp' with ⟨p, hp, hpid⟩ | ⟨-, hpid, -⟩
  · exact hpid ▸ h.absent a p hp
  · exact fun heq => h.lt.ne (heq.symm.trans hpid)

namespace Lives

open Runs

/-! ## All that a kernel does -/

/-- A step of the kernel: a call of the scheduler, of a semaphore or of a pipe. -/
inductive Act where
  | call (c : Call)
  | changePriority (pid priority : ℕ)
  | semWait (name : List UInt8)
  | semPost (name : List UInt8)
  | pipeRead (index n : ℤ)
  | pipeWrite (index : ℤ) (addr : ℕ → UInt8) (n : ℤ)

/-- The code of a step. -/
def Act.run : Act → Op H Unit
  | .call c => c.run
  | .changePriority pid priority => do let _ ← Sched.changePriority pid priority
  | .semWait name => do let _ ← Sched.semWait interrupt name
  | .semPost name => do let _ ← Sched.semPost name
  | .pipeRead index n => do let _ ← Sched.pipeRead interrupt index n
  | .pipeWrite index addr n => do let _ ← Sched.pipeWrite interrupt index addr n

/-- The state after a step, if the step comes to an end or to the scheduler. -/
def act (s : Kernel H) (d : Act) : Option (Kernel H) := outcome d.run s

theorem fertile_run (c : Call) : Fertile (H := H) c.run := by
  have hforce : Barren (H := H) interrupt := barren_throw _
  cases c with
  | schedule sp => exact ((barren_scheduler hforce sp).bind fun _ => barren_pure _).fertile
  | finishScheduler =>
    refine Barren.fertile (Barren.bind ?_ barren_dispatch)
    refine barren_currentProc.bind fun proc => ?_
    refine (barren_procAt proc).bind fun p => ?_
    refine (barren_killOther hforce p.pid).bind fun _ => ?_
    exact barren_get_bind fun s => barren_pure s.currentNode
  | addProcess name argv readFd writeFd priority isForeground =>
    exact (fertile_addProcess hforce _ _ _ _ _ argv).bind fun _ => barren_pure _
  | killProcess pid => exact ((barren_killProcess hforce pid).bind fun _ => barren_pure _).fertile
  | killOther pid => exact ((barren_killOther hforce pid).bind fun _ => barren_pure _).fertile
  | killCurrentProcess => exact (barren_killCurrentProcess hforce).fertile
  | killForegroundProc => exact (barren_killForegroundProc hforce).fertile
  | blockProcess pid => exact ((barren_blockProcess hforce pid).bind fun _ => barren_pure _).fertile
  | readyProcess pid => exact ((barren_readyProcess pid).bind fun _ => barren_pure _).fertile
  | waitPid => exact (barren_waitPid hforce).fertile
  | forceCurrentYield => exact (barren_forceCurrentYield hforce).fertile

theorem bears_act {d : Act} (h : act s d = some s') : Bears s s' := by
  have hforce : Barren (H := H) interrupt := barren_throw _
  have hfertile : Fertile (H := H) d.run := by
    cases d with
    | call c => exact fertile_run c
    | changePriority pid priority =>
      exact ((barren_changePriority pid priority).bind fun _ => barren_pure _).fertile
    | semWait name => exact ((barren_semWait hforce name).bind fun _ => barren_pure _).fertile
    | semPost name => exact ((barren_semPost name).bind fun _ => barren_pure _).fertile
    | pipeRead index n =>
      exact ((barren_pipeRead hforce index n).bind fun _ => barren_pure _).fertile
    | pipeWrite index addr n =>
      exact ((barren_pipeWrite hforce index addr n).bind fun _ => barren_pure _).fertile
  exact (leads_outcome h).holds (hfertile s)

/-- Whatever is done while there are new pids, no process gets a pid that is buried. -/
theorem buried_run {ds : List Act} (h : Buried q s)
    (hnew : Throughout act (fun s _ => Unspent s) s ds) (hrun : run act s ds = some s') :
    Buried q s' :=
  run_preserves h hnew (fun _ _ _ h hs hstep => h.bears hs (bears_act hstep)) hrun

end Lives

end TronKernel.Sched
