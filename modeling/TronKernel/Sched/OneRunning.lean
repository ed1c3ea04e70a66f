import TronKernel.Sched.Boot
import TronKernel.Sched.Running
import TronKernel.Pipe.WaitLists

/-!
# One process is RUNNING

The other calls that keep the current process RUNNING, and the runs of all of them. A process
becomes READY while it runs if it is given to `ready_process`: by a call with its own pid, as the
first in the queue of a semaphore that it posts, or as a writer of the pipe, where
`release_process_pipe` looks for the caller itself. In runs that avoid the three there is always
exactly one RUNNING process (`one_running`).
-/

namespace TronKernel.Sched

open Programs Sem
open Pipe (PipeT Transfer blockProcessPipe releaseProcessPipe)

variable {H α : Type} [Allocator H] {s s' : Kernel H} {c q depth : ℕ} {name : List UInt8}
  {index : ℤ}

/-! ## Making a process -/

/-- Strings that compare equal are the same up to the first NUL. -/
theorem takeWhile_of_strcmp {x y : List UInt8} (h : strcmp x y = 0) :
    x.takeWhile (· ≠ 0) = y.takeWhile (· ≠ 0) := by
  fun_induction strcmp x y with
  | case1 => rfl
  | case2 b y =>
    obtain rfl : b = 0 := UInt8.toNat_inj.mp (by simp only [UInt8.toNat_zero]; omega)
    simp
  | case3 a x =>
    obtain rfl : a = 0 := UInt8.toNat_inj.mp (by simp only [UInt8.toNat_zero]; omega)
    simp
  | case4 x b y ih =>
    rw [List.takeWhile_cons, List.takeWhile_cons, ih h]
  | case5 a x b y hne => exact absurd (UInt8.toNat_inj.mp (by omega)) hne

/-- Different names have different slots. -/
theorem semIndex_ne {t : Sem.Table} (name other : Name) (hne : name.bytes ≠ other.bytes)
    (h : semIndex t other.bytes ≠ OUT_OF_BOUNDS) :
    semIndex t other.bytes ≠ semIndex t name.bytes := by
  intro heq
  have hcmp : ∀ n : List UInt8, semIndex t n ≠ OUT_OF_BOUNDS →
      strcmp (t (semIndex t n).toNat).name n = 0 := by
    intro n hn
    rw [semIndex] at hn ⊢
    rcases searchFrom_cases _ MAX_SEMS 0 with ⟨hnone, -⟩ | ⟨i, hi, -, -, htest, -⟩
    · exact absurd hnone hn
    · rw [hi]
      exact (of_decide_eq_true htest).1
  have hself : ∀ n : Name, n.bytes.takeWhile (· ≠ 0) = n.bytes := by
    intro n
    rw [List.takeWhile_eq_self_iff]
    intro b hb
    have hne : b ≠ 0 := fun h0 => n.no_nul (h0 ▸ hb)
    simpa using hne
  have hleft := takeWhile_of_strcmp (hcmp name.bytes (heq ▸ h))
  have hright := takeWhile_of_strcmp (hcmp other.bytes h)
  rw [heq, hleft, hself, hself] at hright
  exact hne hright

/-- The end of `newProcess`. -/
theorem Current.ends_startProcess (h : Current .running c q s) (hd : s.disableCount < 2 ^ 31 - 1)
    (hpidc : Passes s.semaphores PIDC_MUTEX.bytes → woken s.semaphores PIDC_MUTEX.bytes ≠ some q)
    {proc stack : ℕ} (hlive : Allocator.Live s.heap proc) (hnode : s.node? proc = none)
    (hprocess : s.process? proc = none) (name saved readFd writeFd priority : ℕ) :
    Ends (fun _ s' => Current .running c q s' ∧
        ∃ t b n, TouchesOnly PIDC_MUTEX.bytes s.semaphores t ∧
        s'.toGlobals = { s.toGlobals with semaphores := t, blockCount := b, pidc := n })
      (WhenSwitched OneRuns)
      (startProcess (forceScheduler depth) name proc saved stack readFd writeFd priority) s := by
  have hE : Lenient (WhenSwitched (OneRuns (H := H))) := lenient_whenSwitched _
  rw [startProcess, ends_bind]
  refine (h.ends_semWait hd _).mono (fun _ s₁ hs₁ => ?_) fun _ _ h => h
  obtain ⟨hpasses, t, htouch, hsame, rfl⟩ := hs₁
  rw [ends_bind, ends_get, ends_bind, ends_modify, ends_bind]
  have hcur : Current .running c q { s with semaphores := t, pidc := incr64 s.pidc } :=
    h.globals rfl
  have hwoken : woken t PIDC_MUTEX.bytes ≠ some q := by
    rw [hsame]
    exact hpidc hpasses
  refine (hcur.ends_semPost hd hwoken hE).mono (fun _ s₂ hs₂ => ?_) fun _ _ h => h
  obtain ⟨he, t', b, htouch', hglob⟩ := hs₂
  replace he := he.of_globals
  have hplain : s₂.node? proc = none ∧ s₂.process? proc = none := by
    constructor
    · rw [Option.eq_none_iff_forall_ne_some]
      intro n hn
      obtain ⟨m, hm, -⟩ := he.node _ _ hn
      simp [hnode] at hm
    · rw [Option.eq_none_iff_forall_ne_some]
      intro p hp
      obtain ⟨p', hp', -⟩ := he.process _ _ hp
      simp [hprocess] at hp'
  have hcur₂ : Current .running c q s₂ := h.assigns he (by rw [hglob])
  rw [ends_bind]
  refine ends_getRunningPid hE fun ppid _ => ?_
  rw [ends_bind, Sched.put, ends_modify, ends_pure]
  refine ⟨hcur₂.put_new (he.heap ▸ hlive) hplain.1 hplain.2 fun p hp => ?_, t', b, _,
    htouch.trans htouch', hglob⟩
  rw [← Object.process.inj hp, newProc]

theorem Current.ends_newProcess (h : Current .running c q s) (hd : s.disableCount < 2 ^ 31 - 1)
    (hpidc : Passes s.semaphores PIDC_MUTEX.bytes → woken s.semaphores PIDC_MUTEX.bytes ≠ some q)
    (name readFd writeFd priority : ℕ) (argv : List (List UInt8)) :
    Ends (fun _ s' => Current .running c q s' ∧
        ∃ t b n, TouchesOnly PIDC_MUTEX.bytes s.semaphores t ∧
        s'.toGlobals = { s.toGlobals with semaphores := t, blockCount := b, pidc := n })
      (WhenSwitched OneRuns)
      (newProcess (forceScheduler depth) name argv readFd writeFd priority) s := by
  rcases newProcess_cases (forceScheduler depth) h.within name readFd writeFd priority argv with
    ⟨s', hend, hg⟩ | ⟨-, s', hfault⟩ | ⟨proc, saved, stack, args, own, s', heq, hg, hf, -, -⟩
  · exact ends_of_ok hend ⟨h.grown hg, _, _, _, .refl _ _, hg.globals⟩
  · exact ends_of_error hfault (lenient_whenSwitched _ _ _ (by simp))
  rw [Ends, heq]
  have hcur := h.grown hg
  obtain ⟨g, heap, mem⟩ := s'
  obtain rfl : g = s.toGlobals := hg.globals
  obtain ⟨hnode, hprocess⟩ := hg.plain proc (hf.not_live proc (by simp))
  exact hcur.ends_startProcess hd hpidc (hf.live proc (by simp)) hnode hprocess name saved readFd
    writeFd priority

/-- A new node behind the current one. -/
theorem Current.ends_addNode (h : Current .running c q s) (proc : ℕ) {E : Stop → Kernel H → Prop}
    (hE : Lenient E) :
    Ends (fun _ s' => Current .running c q s' ∧ s'.toGlobals = s.toGlobals) E (addNode proc) s := by
  obtain ⟨cn, hcn, -⟩ := h.node
  have hlive := h.within.node_live hcn
  have hg := (Grown.refl h.within).malloc sizeofNode
  have hcur := h.grown hg
  refine Sched.ends_addNode hE hcn hlive (fun _ => ⟨hcur, rfl⟩) fun p newNode hnew h0 _ => ?_
  have hfresh := Allocator.malloc_fresh s.heap sizeofNode
  have hnewlive : Allocator.Live (s.afterMalloc sizeofNode).heap newNode :=
    (Allocator.live_malloc s.heap sizeofNode newNode).mpr (Or.inr ⟨h0, hnew⟩)
  rw [← hnew] at hfresh
  obtain ⟨hnode, hprocess⟩ := hg.plain newNode hfresh
  have hput := hcur.put_new (o := .node ⟨p.priority, proc, cn.next⟩) hnewlive hnode hprocess
    (by simp)
  refine ⟨hput.put_node (n := cn) ?_ rfl, rfl⟩
  have hne : s.currentNode ≠ newNode := fun heq => hfresh (heq ▸ hlive)
  exact (node?_put_node _ _ _ _).trans ((if_neg hne).trans hcn)

theorem Current.ends_registerProcess (h : Current .running c q s) (hd : s.disableCount < 2 ^ 31 - 1)
    (hproc : Passes s.semaphores PROC_MUTEX.bytes → woken s.semaphores PROC_MUTEX.bytes ≠ some q)
    (proc isForeground : ℕ) :
    Ends (fun _ s' => s'.disableCount = s.disableCount - 1 ∧ Current .running c q s')
      (WhenSwitched OneRuns) (registerProcess (forceScheduler depth) proc isForeground) s := by
  have hE : Lenient (WhenSwitched (OneRuns (H := H))) := lenient_whenSwitched _
  rw [registerProcess, ends_bind]
  refine (h.ends_semWait hd _).mono (fun _ s₁ hs₁ => ?_) fun _ _ h => h
  obtain ⟨hpasses, t, -, hsame, rfl⟩ := hs₁
  have hcur : Current .running c q { s with semaphores := t } := h.globals rfl
  rw [ends_bind]
  refine ends_currentProc hE fun n _ => ?_
  rw [ends_bind]
  refine ends_editProc hE fun p hp => ?_
  have hchild := hcur.put_fields { p with children := incr64 p.children } hp rfl rfl
  have hwoken : woken t PROC_MUTEX.bytes ≠ some q := by
    rw [hsame]
    exact hproc hpasses
  rw [ends_bind]
  refine (hchild.ends_semPost hd hwoken hE).mono (fun _ s₂ hs₂ => ?_) fun _ _ h => h
  obtain ⟨he, t', b, -, hglob⟩ := hs₂
  have hcur₂ := hchild.assigns he (by rw [hglob])
  rw [ends_bind]
  refine (hcur₂.ends_addNode proc hE).mono (fun newNode s₃ hs₃ => ?_) fun _ _ h => h
  obtain ⟨hcur₃, hglob₃⟩ := hs₃
  have hcount : s₃.disableCount - 1 = s.disableCount - 1 := by
    rw [hglob₃, hglob]
    rfl
  refine ends_announce hE fun p _ => ?_
  unfold Globals.promote
  by_cases hfg : isForeground = 1
  · rw [if_pos hfg]
    exact ⟨hcount, hcur₃.globals rfl⟩
  · rw [if_neg hfg]
    exact ⟨hcount, hcur₃.globals rfl⟩

/-- `add_process` keeps the current process, if the semaphores do not wake it. -/
theorem Current.ends_addProcess (h : Current .running c q s) (hd : s.disableCount = 0)
    (hpidc : Passes s.semaphores PIDC_MUTEX.bytes → woken s.semaphores PIDC_MUTEX.bytes ≠ some q)
    (hproc : Passes s.semaphores PROC_MUTEX.bytes → woken s.semaphores PROC_MUTEX.bytes ≠ some q)
    (name readFd writeFd priority isForeground : ℕ) (argv : List (List UInt8)) :
    Ends (fun _ => OneRuns) (WhenSwitched OneRuns)
      (addProcess (forceScheduler depth) name argv readFd writeFd priority isForeground) s := by
  have hE : Lenient (WhenSwitched (OneRuns (H := H))) := lenient_whenSwitched _
  have heq : addProcess (forceScheduler depth) name argv readFd writeFd priority isForeground =
      schedulerDisable >>= fun _ =>
        newProcess (forceScheduler depth) name argv readFd writeFd (min priority 5) >>= fun proc =>
          registerProcess (forceScheduler (H := H) depth) proc isForeground := rfl
  rw [heq, ends_bind]
  refine ends_schedulerDisable hE fun d hdis => ?_
  obtain rfl := hdis (by omega)
  have hcur : Current .running c q { s with disableCount := s.disableCount + 1 } := h.globals rfl
  have hlt : s.disableCount + 1 < 2 ^ 31 - 1 := by omega
  rw [ends_bind]
  refine (hcur.ends_newProcess hlt hpidc name readFd writeFd _ argv).mono
    (fun proc s₁ hs₁ => ?_) fun _ _ h => h
  obtain ⟨hcur₁, t, b, n, htouch, hglob⟩ := hs₁
  have hcount : s₁.disableCount = s.disableCount + 1 := by rw [hglob]
  -- taking a pid has left the other semaphore as it was
  obtain ⟨hwoken, hpasses⟩ := htouch.other (semIndex_ne PIDC_MUTEX PROC_MUTEX (by decide))
  refine (hcur₁.ends_registerProcess ?_ ?_ proc isForeground).mono (fun _ s₂ hs₂ => ?_)
    fun _ _ h => h
  · rw [hcount]
    exact hlt
  · rw [hglob]
    exact fun hpass => hwoken ▸ hproc (hpasses.mp hpass)
  · exact ⟨by rw [hs₂.1, hcount, hd], c, q, hs₂.2⟩

/-! ## Pipes -/

/-- `release_process_pipe` finds the process with that pid in the list, and makes it READY. -/
def Releases (list : ℕ → ℤ) (pid : ℕ) : Prop :=
  toUInt64 (toInt pid) = pid ∧ ∃ i < Pipe.PROCS, list i = toInt pid

/-- `block_process_pipe` makes the current process BLOCKED, which has that pid. -/
def BlocksCaller (s : Kernel H) (list : ℕ → ℤ) (pid : ℕ) : Prop :=
  (blockProcessPipe list (toInt pid)).2 ≠ none ∧ found s (toUInt64 (toInt pid)) = some s.current

instance (list : ℕ → ℤ) (pid : ℕ) : Decidable (Releases list pid) :=
  inferInstanceAs (Decidable (_ ∧ _))

instance (s : Kernel H) (list : ℕ → ℤ) (pid : ℕ) : Decidable (BlocksCaller s list pid) :=
  inferInstanceAs (Decidable (_ ∧ _))

theorem Current.ends_pipeRelease (h : Current .running c q s)
    (hno : ¬ Releases (s.pipes index.toNat).wProcesses q) {E : Stop → Kernel H → Prop}
    (hE : Lenient E) :
    Ends (fun _ s' => Current .running c q s' ∧ s'.disableCount = s.disableCount ∧
        s'.semaphores = s.semaphores ∧ (s'.pipes index.toNat).name = (s.pipes index.toNat).name)
      E (pipeRelease index) s := by
  rw [pipeRelease, ends_bind]
  refine ends_getRunningPid hE fun pid hpid => ?_
  obtain rfl := h.runs hpid
  rw [ends_bind]
  refine ends_pipeAt hE fun _ => ?_
  have hreleased : ∀ r, (releaseProcessPipe (s.pipes index.toNat).wProcesses (toInt pid)).2 =
      some r → toUInt64 r ≠ pid := by
    intro r hr heq
    have hown := Pipe.releaseProcessPipe_released hr
    exact hno ⟨hown.1 ▸ heq, hown.2⟩
  generalize releaseProcessPipe (s.pipes index.toNat).wProcesses (toInt pid) = result at hreleased ⊢
  obtain ⟨list, released⟩ := result
  have hready : Ends (fun _ s' => Current .running c pid s' ∧
      ∃ b, s'.toGlobals = { s.toGlobals with blockCount := b }) E (readyReleased released) s := by
    cases released with
    | none => exact ⟨h, _, rfl⟩
    | some r =>
      rw [readyReleased, ends_bind]
      refine (h.ends_readyProcess (hreleased r rfl) hE).mono (fun _ s' hs' => ?_) fun _ _ h => h
      obtain ⟨b, he, hglob⟩ := hs'
      exact ⟨h.assigns he (by rw [hglob]), b, hglob⟩
  rw [ends_bind]
  refine hready.mono (fun _ s' hs' => ?_) fun _ _ h => h
  obtain ⟨hcur, b, hglob⟩ := hs'
  refine ⟨hcur.globals rfl, ?_, ?_, ?_⟩
  · show s'.disableCount = _
    rw [hglob]
  · show s'.semaphores = _
    rw [hglob]
  · show (Function.update s'.pipes index.toNat _ index.toNat).name = _
    rw [Function.update_self, hglob]

/-- The program leaves its caller RUNNING, unless the list of the pipe or the queue of its semaphore
has the caller's pid. -/
def Harmless (index : ℤ) (body : Op H α) : Prop :=
  ∀ {s : Kernel H} {c q : ℕ}, Current .running c q s → s.disableCount = 0 →
    ¬ Releases (s.pipes index.toNat).wProcesses q →
    woken s.semaphores (s.pipes index.toNat).name ≠ some q →
    Ends (fun _ => OneRuns) (WhenSwitched OneRuns) body s

/-- The end of `pipe_write` and of `pipe_read`. -/
theorem Current.ends_giveBack (h : Current .running c q s) (hd : s.disableCount = 0) {p : PipeT}
    (hwoken : woken s.semaphores p.name ≠ some q) (a : α) :
    Ends (fun _ => OneRuns) (WhenSwitched OneRuns) (do
      editPipe index fun _ => p
      let _ ← semPost p.name
      return a) s := by
  have hE : Lenient (WhenSwitched (OneRuns (H := H))) := lenient_whenSwitched _
  rw [editPipe, ends_bind, ends_modify, ends_bind]
  have hcur : Current .running c q { s with pipes := Function.update s.pipes index.toNat p } :=
    h.globals rfl
  have hlt : s.disableCount < 2 ^ 31 - 1 := by omega
  refine (hcur.ends_semPost hlt hwoken hE).mono (fun _ s' hs' => ?_) fun _ _ h => h
  obtain ⟨he, t, b, -, hglob⟩ := hs'
  refine ⟨?_, c, q, hcur.assigns he (by rw [hglob])⟩
  rw [hglob]
  exact hd

theorem harmless_pipeWriteBody (index : ℤ) (addr : ℕ → UInt8) (n : ℤ) :
    Harmless index (pipeWriteBody index addr n : Op H ℤ) := by
  intro s c q h hd hno hwoken
  have hE : Lenient (WhenSwitched (OneRuns (H := H))) := lenient_whenSwitched _
  rw [pipeWriteBody, ends_bind]
  refine (h.ends_pipeRelease hno hE).mono (fun _ s₁ hs₁ => ?_) fun _ _ h => h
  obtain ⟨hcur, hcount, hsem, hname⟩ := hs₁
  rw [ends_bind]
  refine ends_pipeAt hE fun _ => ?_
  have hkept := Pipe.writeData_name (s₁.pipes index.toNat) addr n
  generalize Pipe.writeData (s₁.pipes index.toNat) addr n = result at hkept ⊢
  obtain ⟨p, i⟩ := result
  refine hcur.ends_giveBack (hcount.trans hd) ?_ _
  rw [hsem, hkept, hname]
  exact hwoken

theorem harmless_pipeReadBody (index n : ℤ) :
    Harmless index (pipeReadBody index n : Op H (List UInt8 × ℤ)) := by
  intro s c q h hd hno hwoken
  have hE : Lenient (WhenSwitched (OneRuns (H := H))) := lenient_whenSwitched _
  rw [pipeReadBody, ends_bind]
  refine (h.ends_pipeRelease hno hE).mono (fun _ s₁ hs₁ => ?_) fun _ _ h => h
  obtain ⟨hcur, hcount, hsem, hname⟩ := hs₁
  rw [ends_bind]
  refine ends_pipeAt hE fun _ => ?_
  have hkept := Pipe.readData_name (s₁.pipes index.toNat) n
  generalize Pipe.readData (s₁.pipes index.toNat) n = result at hkept ⊢
  obtain ⟨p, bytes, i⟩ := result
  refine hcur.ends_giveBack (hcount.trans hd) ?_ _
  rw [hsem, hkept, hname]
  exact hwoken

/-- The pipe after `block_process_pipe` for the process with that pid. -/
def entered (p : PipeT) (x : Transfer) (pid : ℕ) : PipeT :=
  match x with
  | .read _ => { p with rProcesses := (blockProcessPipe p.rProcesses (toInt pid)).1 }
  | .write _ _ => { p with wProcesses := (blockProcessPipe p.wProcesses (toInt pid)).1 }

/-- `block_process` for the process that `block_process_pipe` found. -/
def blockEntered (force : Op H Unit) : Option ℤ → Op H Unit
  | some pid => do let _ ← blockProcess force (toUInt64 pid)
  | none => return ()

/-- The list is entered, or the process is blocked. -/
theorem Current.ends_entered (h : Current .running c q s) (hd : s.disableCount = 0) {x : Transfer}
    (hcount : BlocksCaller s ((s.pipes index.toNat).list x) q → s.counter ≠ 1) :
    Ends (fun _ s' => ¬ BlocksCaller s ((s.pipes index.toNat).list x) q ∧ Current .running c q s' ∧
        s'.disableCount = 0 ∧ s'.semaphores = s.semaphores ∧
        s'.pipes index.toNat = entered (s.pipes index.toNat) x q)
      (WhenSwitched OneRuns) (do
        editPipe index fun _ => entered (s.pipes index.toNat) x q
        blockEntered (forceScheduler depth)
          (blockProcessPipe ((s.pipes index.toNat).list x) (toInt q)).2) s := by
  rw [editPipe, ends_bind, ends_modify]
  set s₁ : Kernel H := { s with
    pipes := Function.update s.pipes index.toNat (entered (s.pipes index.toNat) x q) }
  have hcur : Current .running c q s₁ := h.globals rfl
  have hunseen : Unseen s s₁ := ⟨rfl, rfl, rfl, rfl⟩
  obtain ⟨n, hn, hproc⟩ := h.node
  have hcurrent : s.current = c := (Kernel.current_eq hn).trans hproc
  have hown : ∀ r, (blockProcessPipe ((s.pipes index.toNat).list x) (toInt q)).2 = some r →
      r = toInt q := fun _ => Pipe.blockProcessPipe_blocked
  have hpipes : s₁.pipes index.toNat = entered (s.pipes index.toNat) x q :=
    Function.update_self ..
  unfold BlocksCaller at hcount ⊢
  rw [hcurrent] at hcount ⊢
  generalize (blockProcessPipe ((s.pipes index.toNat).list x) (toInt q)).2 =
    blocked at hown hcount ⊢
  cases blocked with
  | none => exact ⟨fun hb => hb.1 rfl, hcur, hd, rfl, hpipes⟩
  | some r =>
    rw [hown r rfl, blockEntered, ends_bind]
    by_cases hf : found s (toUInt64 (toInt q)) = some c
    · refine (hcur.ends_blockSelf hd (hcount ⟨by simp, hf⟩) (hunseen.found hf)).mono
        (fun _ _ hfalse => hfalse.elim) fun _ _ h => h
    · refine (hcur.ends_blockProcess fun hf₁ => hf (hunseen.symm.found hf₁)).mono
        (fun _ s' hs' => ?_) fun _ _ h => h
      obtain ⟨hticked, hcur'⟩ := hs'
      refine ⟨fun hb => hf hb.2, hcur', ?_, ?_, ?_⟩
      · rw [hticked]
        exact hd
      · rw [hticked]
      · rw [hticked]
        exact hpipes

theorem Current.ends_pipeWriteEnter (h : Current .running c q s) (hd : s.disableCount = 0)
    (addr : ℕ → UInt8) (n : ℤ)
    (hcount : BlocksCaller s (s.pipes index.toNat).wProcesses q → s.counter ≠ 1) :
    Ends (fun _ s' => ¬ BlocksCaller s (s.pipes index.toNat).wProcesses q ∧
        Current .running c q s' ∧ s'.disableCount = 0 ∧ s'.semaphores = s.semaphores ∧
        s'.pipes index.toNat = entered (s.pipes index.toNat) (.write addr n) q)
      (WhenSwitched OneRuns) (pipeWriteEnter (forceScheduler depth) index) s := by
  have hE : Lenient (WhenSwitched (OneRuns (H := H))) := lenient_whenSwitched _
  rw [pipeWriteEnter, ends_bind]
  refine ends_getRunningPid hE fun pid hpid => ?_
  obtain rfl := h.runs hpid
  rw [ends_bind]
  refine ends_pipeAt hE fun _ => ?_
  exact h.ends_entered hd (x := .write addr n) hcount

theorem Current.ends_pipeReadEnter (h : Current .running c q s) (hd : s.disableCount = 0) (n : ℤ)
    (hcount : BlocksCaller s (s.pipes index.toNat).rProcesses q → s.counter ≠ 1) :
    Ends (fun _ s' => ¬ BlocksCaller s (s.pipes index.toNat).rProcesses q ∧
        Current .running c q s' ∧ s'.disableCount = 0 ∧ s'.semaphores = s.semaphores ∧
        s'.pipes index.toNat = entered (s.pipes index.toNat) (.read n) q)
      (WhenSwitched OneRuns) (pipeReadEnter (forceScheduler depth) index) s := by
  have hE : Lenient (WhenSwitched (OneRuns (H := H))) := lenient_whenSwitched _
  rw [pipeReadEnter, ends_bind]
  refine ends_getRunningPid hE fun pid hpid => ?_
  obtain rfl := h.runs hpid
  rw [ends_bind]
  refine ends_pipeAt hE fun _ => ?_
  exact h.ends_entered hd (x := .read n) hcount

/-- The pipe's list of writers and its semaphore would not make the process READY. -/
def Spares (s : Kernel H) (p : PipeT) (q : ℕ) : Prop :=
  Passes s.semaphores p.name → ¬ Releases p.wProcesses q ∧ woken s.semaphores p.name ≠ some q

instance (s : Kernel H) (p : PipeT) (q : ℕ) : Decidable (Spares s p q) :=
  inferInstanceAs (Decidable (_ → _))

/-- `sem_wait` and what follows it. -/
theorem Current.ends_waitThen (h : Current .running c q s) (hd : s.disableCount = 0)
    {body : Op H α} (hbody : Harmless index body) (hspares : Spares s (s.pipes index.toNat) q) :
    Ends (fun _ => OneRuns) (WhenSwitched OneRuns) (do
      let _ ← semWait (forceScheduler depth) (← pipeAt index).name
      body) s := by
  have hE : Lenient (WhenSwitched (OneRuns (H := H))) := lenient_whenSwitched _
  rw [ends_bind]
  refine ends_pipeAt hE fun _ => ?_
  have hlt : s.disableCount < 2 ^ 31 - 1 := by omega
  rw [ends_bind]
  refine (h.ends_semWait hlt _).mono (fun _ s₁ hs₁ => ?_) fun _ _ h => h
  obtain ⟨hpasses, t, -, hwoken, rfl⟩ := hs₁
  obtain ⟨hlist, hqueue⟩ := hspares hpasses
  refine hbody (h.globals rfl) hd hlist ?_
  rw [hwoken]
  exact hqueue

/-- The rest of `sem_wait`, and what follows it. -/
theorem Current.ends_sleptThen (h : Current .running c q s) (hd : s.disableCount = 0)
    {idx rounds : ℕ} {body : Op H α} (hbody : Harmless index body)
    (hspares : Takes s.semaphores idx → ¬ Releases (s.pipes index.toNat).wProcesses q ∧
      woken s.semaphores (s.pipes index.toNat).name ≠ some q) :
    Ends (fun _ => OneRuns) (WhenSwitched OneRuns) (do
      semWaitAt (forceScheduler depth) idx rounds
      body) s := by
  have hlt : s.disableCount < 2 ^ 31 - 1 := by omega
  rw [ends_bind]
  refine (h.ends_semWaitAt hlt idx rounds).mono (fun _ s₁ hs₁ => ?_) fun _ _ h => h
  obtain ⟨htakes, t, hsame, rfl⟩ := hs₁
  obtain ⟨hlist, hqueue⟩ := hspares htakes
  refine hbody (h.globals rfl) hd hlist ?_
  rw [hsame.woken]
  exact hqueue

/-- A new transfer does not make its caller READY, and does not leave it BLOCKED where there is no
other process. -/
def EntersCalmly (s : Kernel H) (p : PipeT) (x : Transfer) (q : ℕ) : Prop :=
  p.created ≠ 0 →
    (BlocksCaller s (p.list x) q → s.counter ≠ 1) ∧
      (¬ BlocksCaller s (p.list x) q → Spares s (entered p x q) q)

instance (s : Kernel H) (p : PipeT) (x : Transfer) (q : ℕ) : Decidable (EntersCalmly s p x q) :=
  inferInstanceAs (Decidable (_ → _))

omit [Allocator H] in
theorem ends_writeLength {E : Stop → Kernel H → Prop} (hE : Lenient E) {Q : ℤ → Kernel H → Prop}
    (h : ∀ n, Q n s) (addr : ℕ → UInt8) (n : ℤ) : Ends Q E (writeLength addr n) s := by
  unfold writeLength
  split_ifs
  · cases Pipe.strlen addr with
    | none => exact hE _ _ (by simp)
    | some len => exact h _
  · exact h n

theorem Current.ends_pipeWrite (h : Current .running c q s) (hd : s.disableCount = 0)
    {addr : ℕ → UInt8} {n : ℤ} (hcalm : EntersCalmly s (s.pipes index.toNat) (.write addr n) q) :
    Ends (fun _ => OneRuns) (WhenSwitched OneRuns) (pipeWrite (forceScheduler depth) index addr n)
      s := by
  have hE : Lenient (WhenSwitched (OneRuns (H := H))) := lenient_whenSwitched _
  rw [pipeWrite, ends_bind]
  refine ends_writeLength hE (fun m => ?_) addr n
  rw [ends_bind]
  refine ends_pipeAt hE fun _ => ?_
  split_ifs with hcreated
  · exact ⟨hd, c, q, h⟩
  obtain ⟨hcount, hspares⟩ := hcalm hcreated
  rw [ends_bind]
  refine (h.ends_pipeWriteEnter hd addr n hcount).mono (fun _ s₁ hs₁ => ?_) fun _ _ h => h
  obtain ⟨hno, hcur, hd₁, hsem, hpipe⟩ := hs₁
  refine hcur.ends_waitThen hd₁ (harmless_pipeWriteBody index addr m) ?_
  rw [hpipe, Spares, hsem]
  exact hspares hno

theorem Current.ends_pipeRead (h : Current .running c q s) (hd : s.disableCount = 0) {n : ℤ}
    (hcalm : EntersCalmly s (s.pipes index.toNat) (.read n) q) :
    Ends (fun _ => OneRuns) (WhenSwitched OneRuns) (pipeRead (forceScheduler depth) index n) s := by
  have hE : Lenient (WhenSwitched (OneRuns (H := H))) := lenient_whenSwitched _
  rw [pipeRead, ends_bind]
  refine ends_pipeAt hE fun _ => ?_
  split_ifs with hcreated
  · exact ⟨hd, c, q, h⟩
  obtain ⟨hcount, hspares⟩ := hcalm hcreated
  rw [ends_bind]
  refine (h.ends_pipeReadEnter hd n hcount).mono (fun _ s₁ hs₁ => ?_) fun _ _ h => h
  obtain ⟨hno, hcur, hd₁, hsem, hpipe⟩ := hs₁
  refine hcur.ends_waitThen hd₁ (harmless_pipeReadBody index n) ?_
  rw [hpipe, Spares, hsem]
  exact hspares hno

/-! ## The calls -/

/-- `pipe_write` and `pipe_read` behind `sem_wait`. -/
def transferBody (index : ℤ) : Transfer → Op H Unit
  | .write addr n => do let _ ← pipeWriteBody index addr n
  | .read n => do let _ ← pipeReadBody index n

theorem harmless_transferBody (index : ℤ) (x : Transfer) :
    Harmless index (transferBody index x : Op H Unit) := by
  intro s c q h hd hlist hqueue
  cases x with
  | write addr n =>
    rw [transferBody, ends_bind]
    exact harmless_pipeWriteBody index addr n h hd hlist hqueue
  | read n =>
    rw [transferBody, ends_bind]
    exact harmless_pipeReadBody index n h hd hlist hqueue

/-- The pid of the current process. -/
def Kernel.runningPid (s : Kernel H) : ℕ := ((s.process? s.current).map Process.pid).getD 0

namespace Running

open Runs

/-- What is left of a call in which another process has been switched to: of `sem_wait`, of a
transfer behind `block_process_pipe`, and of a transfer in `sem_wait`. -/
inductive Rest where
  | semWait (idx rounds : ℕ)
  | entered (index : ℤ) (x : Transfer)
  | slept (idx rounds : ℕ) (index : ℤ) (x : Transfer)

/-- A step of a run. Between the calls semaphores and pipes are opened and closed in any way. -/
inductive Call where
  | schedule (sp : ℕ)
  | addProcess (name : ℕ) (argv : List (List UInt8)) (readFd writeFd priority isForeground : ℕ)
  | readyProcess (pid : ℕ)
  | blockProcess (pid : ℕ)
  | changePriority (pid priority : ℕ)
  | semWait (name : List UInt8)
  | semPost (name : List UInt8)
  | pipeWrite (index : ℤ) (addr : ℕ → UInt8) (n : ℤ)
  | pipeRead (index n : ℤ)
  | resume (rest : Rest)
  | tables (semaphores : Sem.Table) (pipes : ℕ → PipeT)

/-- The code of a rest. -/
def Rest.run (force : Op H Unit) : Rest → Op H Unit
  | .semWait idx rounds => semWaitAt force idx rounds
  | .entered index x => do
    let _ ← Sched.semWait force (← pipeAt index).name
    transferBody index x
  | .slept idx rounds index x => do
    semWaitAt force idx rounds
    transferBody index x

/-- The code of a step. -/
def Call.run (force : Op H Unit) : Call → Op H Unit
  | .schedule sp => do let _ ← scheduler force sp
  | .addProcess name argv readFd writeFd priority isForeground => do
    let _ ← Sched.addProcess force name argv readFd writeFd priority isForeground
  | .readyProcess pid => do let _ ← Sched.readyProcess pid
  | .blockProcess pid => do let _ ← Sched.blockProcess force pid
  | .changePriority pid priority => do let _ ← Sched.changePriority pid priority
  | .semWait name => do let _ ← Sched.semWait force name
  | .semPost name => do let _ ← Sched.semPost name
  | .pipeWrite index addr n => do let _ ← Sched.pipeWrite force index addr n
  | .pipeRead index n => do let _ ← Sched.pipeRead force index n
  | .resume rest => rest.run force
  | .tables semaphores pipes => modify fun s => { s with semaphores := semaphores, pipes := pipes }

/-- `block_process` is not called for the current process. -/
def Call.Allowed (s : Kernel H) : Call → Prop
  | .blockProcess pid => pid ≠ s.runningPid
  | _ => True

/-- The rest does not make its process READY. -/
def Rest.Calm (s : Kernel H) : Rest → Prop
  | .semWait _ _ => True
  | .entered index _ => Spares s (s.pipes index.toNat) s.runningPid
  | .slept idx _ index _ => Takes s.semaphores idx →
    ¬ Releases (s.pipes index.toNat).wProcesses s.runningPid ∧
      woken s.semaphores (s.pipes index.toNat).name ≠ some s.runningPid

/-- The call does not make the current process READY. -/
def Call.Calm (s : Kernel H) : Call → Prop
  | .addProcess _ _ _ _ _ _ => ∀ name ∈ [PIDC_MUTEX.bytes, PROC_MUTEX.bytes],
    Passes s.semaphores name → woken s.semaphores name ≠ some s.runningPid
  | .readyProcess pid => pid ≠ s.runningPid
  | .semPost name => woken s.semaphores name ≠ some s.runningPid
  | .pipeWrite index addr n => EntersCalmly s (s.pipes index.toNat) (.write addr n) s.runningPid
  | .pipeRead index n => EntersCalmly s (s.pipes index.toNat) (.read n) s.runningPid
  | .resume rest => rest.Calm s
  | _ => True

instance (s : Kernel H) : (x : Call) → Decidable (x.Allowed s)
  | .blockProcess pid => inferInstanceAs (Decidable (pid ≠ s.runningPid))
  | .schedule _ | .addProcess _ _ _ _ _ _ | .readyProcess _ | .changePriority _ _ | .semWait _
  | .semPost _ | .pipeWrite _ _ _ | .pipeRead _ _ | .resume _ | .tables _ _ => isTrue trivial

instance (s : Kernel H) : (r : Rest) → Decidable (r.Calm s)
  | .semWait _ _ => isTrue trivial
  | .entered index _ => inferInstanceAs (Decidable (Spares s (s.pipes index.toNat) s.runningPid))
  | .slept idx _ index _ => inferInstanceAs (Decidable (Takes s.semaphores idx →
      ¬ Releases (s.pipes index.toNat).wProcesses s.runningPid ∧
        woken s.semaphores (s.pipes index.toNat).name ≠ some s.runningPid))

instance (s : Kernel H) : (x : Call) → Decidable (x.Calm s)
  | .addProcess _ _ _ _ _ _ =>
    inferInstanceAs (Decidable (∀ name ∈ [PIDC_MUTEX.bytes, PROC_MUTEX.bytes],
      Passes s.semaphores name → woken s.semaphores name ≠ some s.runningPid))
  | .readyProcess pid => inferInstanceAs (Decidable (pid ≠ s.runningPid))
  | .semPost name => inferInstanceAs (Decidable (woken s.semaphores name ≠ some s.runningPid))
  | .pipeWrite index addr n =>
    inferInstanceAs (Decidable (EntersCalmly s (s.pipes index.toNat) (.write addr n) s.runningPid))
  | .pipeRead index n =>
    inferInstanceAs (Decidable (EntersCalmly s (s.pipes index.toNat) (.read n) s.runningPid))
  | .resume rest => inferInstanceAs (Decidable (rest.Calm s))
  | .schedule _ | .blockProcess _ | .changePriority _ _ | .semWait _ | .tables _ _ => isTrue trivial

/-- The current process is RUNNING, and no other process is. -/
def OneRunning (s : Kernel H) : Prop :=
  ∃ n p, s.node? s.currentNode = some n ∧ s.process? n.proc = some p ∧ p.state = .running ∧
    ∀ a r, s.process? a = some r → r.state = .running → a = n.proc

theorem oneRunning_of_oneRuns (h : OneRuns s) : OneRunning s := by
  obtain ⟨-, c, q, hcur⟩ := h
  obtain ⟨n, hn, rfl⟩ := hcur.node
  obtain ⟨p, hp, -, hstate⟩ := hcur.process
  exact ⟨n, p, hn, hp, hstate, hcur.alone⟩

/-- A calm step keeps exactly one process RUNNING. -/
theorem oneRuns_step (h : OneRuns s) {x : Call} (hallowed : x.Allowed s) (hcalm : x.Calm s) :
    Ends (fun _ => OneRuns) (WhenSwitched OneRuns) (x.run (forceScheduler depth)) s := by
  have hE : Lenient (WhenSwitched (OneRuns (H := H))) := lenient_whenSwitched _
  have hback := h
  obtain ⟨hd, c, q, hcur⟩ := h
  obtain ⟨n, hn, hproc⟩ := hcur.node
  obtain ⟨p, hp, hpid, hstate⟩ := hcur.process
  have hq : s.runningPid = q := by
    have hcurrent : s.current = c := (Kernel.current_eq hn).trans hproc
    rw [Kernel.runningPid, hcurrent, hp]
    exact hpid
  have hlt : s.disableCount < 2 ^ 31 - 1 := by omega
  unfold Call.Allowed at hallowed
  unfold Call.Calm at hcalm
  cases x with
  | schedule sp =>
    rw [Call.run, ends_bind]
    exact hcur.ends_scheduler hd (forceScheduler depth) sp
  | addProcess name argv readFd writeFd priority isForeground =>
    rw [Call.run, ends_bind]
    refine hcur.ends_addProcess hd ?_ ?_ name readFd writeFd priority isForeground argv
    · exact hq ▸ hcalm _ (by simp)
    · exact hq ▸ hcalm _ (by simp)
  | readyProcess pid =>
    rw [Call.run, ends_bind]
    refine (hcur.ends_readyProcess (hq ▸ hcalm) hE).mono (fun _ s' hs' => ?_) fun _ _ h => h
    obtain ⟨b, he, hglob⟩ := hs'
    exact ⟨by rw [hglob]; exact hd, c, q, hcur.assigns he (by rw [hglob])⟩
  | blockProcess pid =>
    rw [Call.run, ends_bind]
    refine (hcur.ends_blockProcess fun hf => ?_).mono (fun _ s' hs' => ?_) fun _ _ h => h
    · exact hallowed ((hcur.pid_of_found hf).trans hq.symm)
    · exact ⟨by rw [hs'.1]; exact hd, c, q, hs'.2⟩
  | changePriority pid priority =>
    rw [Call.run, ends_bind]
    refine ends_changePriority hE hback fun a r v hr _ => ?_
    exact ⟨hd, c, q, hcur.put_fields _ hr rfl rfl⟩
  | semWait name =>
    rw [Call.run, ends_bind]
    refine (hcur.ends_semWait hlt name).mono (fun _ s' hs' => ?_) fun _ _ h => h
    obtain ⟨-, t, -, -, rfl⟩ := hs'
    exact ⟨hd, c, q, hcur.globals rfl⟩
  | semPost name =>
    rw [Call.run, ends_bind]
    refine (hcur.ends_semPost hlt (hq ▸ hcalm) hE).mono (fun _ s' hs' => ?_) fun _ _ h => h
    obtain ⟨he, t, b, -, hglob⟩ := hs'
    exact ⟨by rw [hglob]; exact hd, c, q, hcur.assigns he (by rw [hglob])⟩
  | pipeWrite index addr n =>
    rw [Call.run, ends_bind]
    exact hcur.ends_pipeWrite hd (hq ▸ hcalm)
  | pipeRead index n =>
    rw [Call.run, ends_bind]
    exact hcur.ends_pipeRead hd (hq ▸ hcalm)
  | resume rest =>
    cases rest with
    | semWait idx rounds =>
      refine (hcur.ends_semWaitAt hlt idx rounds).mono (fun _ s' hs' => ?_) fun _ _ h => h
      obtain ⟨-, t, -, rfl⟩ := hs'
      exact ⟨hd, c, q, hcur.globals rfl⟩
    | entered index x => exact hcur.ends_waitThen hd (harmless_transferBody index x) (hq ▸ hcalm)
    | slept idx rounds index x =>
      exact hcur.ends_sleptThen hd (harmless_transferBody index x) (hq ▸ hcalm)
  | tables semaphores pipes => exact ⟨hd, c, q, hcur.globals rfl⟩

/-! ## Runs -/

theorem oneRuns_of_init {force : Op H Unit} {idle : ℕ} (hs : Booting s)
    (h : initScheduler force idle s = .ok () s') (hfirst : s'.first ≠ 0) : OneRuns s' := by
  have hend : Ends (fun _ s' => s'.first ≠ 0 → OneRuns s') (fun _ _ => True)
      (initScheduler force idle) s := by
    refine ends_initScheduler lenient_true hs (fun s' hglob h0 => ?_)
      fun s' node proc argv stack args own hb _ => ?_
    · exact absurd (by rw [hglob, hs.first]) h0
    have honly : ∀ a p, s'.process? a = some p → a = proc ∧ p = idleProc idle argv stack := by
      intro a p hp
      rw [hb.process?] at hp
      split_ifs at hp with ha
      exact ⟨ha, (Option.some.inj hp).symm⟩
    refine ⟨?_, proc, 0, hb.within, ?_, ?_, fun a p hp _ => (honly a p hp).1, fun a p hp => ?_⟩
    · rw [hb.globals]
      exact hs.disableCount
    · refine ⟨⟨MAX_QUANTUM, proc, node⟩, ?_, rfl⟩
      rw [hb.globals, hb.node?, if_pos rfl]
    · exact ⟨_, (hb.process? proc).trans (if_pos rfl), rfl, rfl⟩
    · rw [(honly a p hp).2]
      simp [idleProc]
  exact hend.of_ok h hfirst

/-- A call that ends, or that another process is switched to in. -/
def step (depth : ℕ) (s : Kernel H) (x : Call) : Option (Kernel H) :=
  outcome (x.run (forceScheduler depth)) s

/-- In every run from `init_scheduler`, which has found memory for its node, of calls that do not
make their own process READY, there is exactly one RUNNING process after each call: the current
one. -/
theorem one_running {s₀ : Kernel H} {force : Op H Unit} {idle : ℕ} (hs : Booting s₀)
    (hinit : initScheduler force idle s₀ = .ok () s) (hfirst : s.first ≠ 0) {xs : List Call}
    (hcalm : Throughout (step depth) (fun s x => x.Allowed s ∧ x.Calm s) s xs)
    (hrun : run (step depth) s xs = some s') : OneRunning s' := by
  have hstep : ∀ (s : Kernel H) (x : Call) (s' : Kernel H), OneRuns s → x.Allowed s ∧ x.Calm s →
      step depth s x = some s' → OneRuns s' := by
    intro s x s' h hx hstep
    exact (leads_outcome hstep).holds (oneRuns_step h hx.1 hx.2)
  exact oneRunning_of_oneRuns
    (run_preserves (oneRuns_of_init hs hinit hfirst) hcalm hstep hrun)

/-! ## Two runs -/

/-- The name of the pipe. -/
def pipeName : Name where
  bytes := ['f', 'i', 'f', 'o'].map fun c => c.toNat.toUInt8
  no_nul := by decide
  length_lt := by decide

/-- The table after `sem_open` for the pipe, which counts as another opening of slot 0. -/
def pipeTable : Sem.Table := fun i =>
  match i with
  | 0 => kernelSem 1 PIDC_MUTEX 4
  | 3 => kernelSem 7 pipeName 0
  | i => bootTable i

/-- `pipe_open` behind `init_scheduler`. -/
def openPipe : Call :=
  .tables pipeTable (Function.update (fun _ => zeroPipe) 0 (Pipe.opened zeroPipe 0 pipeName.bytes))

/-- The second process wakes and blocks the first one, and reads from a pipe. -/
theorem one_running_reader : ∃ s s' : Kernel FirstFitHeap,
    initScheduler interrupt 0 loaded = .ok () s ∧
      run (step 1) s [.addProcess 0 [] 0 1 3 0, .schedule 111, openPipe, .readyProcess 0,
        .blockProcess 0, .changePriority 0 7, .pipeRead 0 1, .schedule 222] = some s' ∧
      OneRunning s' := by
  have hcheck : (booted.bind fun s => (runIf (step 1) (fun s x => x.Allowed s ∧ x.Calm s) s
      [.addProcess 0 [] 0 1 3 0, .schedule 111, openPipe, .readyProcess 0,
        .blockProcess 0, .changePriority 0 7, .pipeRead 0 1, .schedule 222]).map fun _ => true) =
      some true := by decide +kernel
  obtain ⟨s, hs, hcheck⟩ := Option.bind_eq_some_iff.mp hcheck
  obtain ⟨s', hrunIf, -⟩ := Option.map_eq_some_iff.mp hcheck
  obtain ⟨hrun, hcalm⟩ := run_of_runIf hrunIf
  have hfirst : s.first ≠ 0 := by simpa [hs] using booted_first
  have hinit := initScheduler_of_outcome booting_loaded hs hfirst
  exact ⟨s, s', hinit, hrun, one_running booting_loaded hinit hfirst hcalm hrun⟩

/-- A process that has written to a pipe is READY, and no process is RUNNING. -/
theorem writer_left_ready :
    ¬ ∀ (s₀ s s' : Kernel FirstFitHeap) (idle : ℕ) (xs : List Call), Booting s₀ →
      initScheduler interrupt idle s₀ = .ok () s → s.first ≠ 0 →
      Throughout (step 1) (fun s x => x.Allowed s) s xs → run (step 1) s xs = some s' →
      OneRunning s' := by
  intro hall
  have hcheck : (booted.bind fun s => (runIf (step 1) (fun s x => x.Allowed s) s
      [.addProcess 0 [] 0 1 3 0, .schedule 111, openPipe, .pipeWrite 0 (fun _ => 97) 1]).map
        fun s' =>
        ((s'.node? s'.currentNode).bind fun n => s'.process? n.proc).map Process.state) =
      some (some .ready) := by decide +kernel
  obtain ⟨s, hs, hcheck⟩ := Option.bind_eq_some_iff.mp hcheck
  obtain ⟨s', hrunIf, hready⟩ := Option.map_eq_some_iff.mp hcheck
  obtain ⟨hrun, hallowed⟩ := run_of_runIf hrunIf
  have hfirst : s.first ≠ 0 := by simpa [hs] using booted_first
  have hinit := initScheduler_of_outcome booting_loaded hs hfirst
  obtain ⟨n, p, hn, hp, hrunning, -⟩ :=
    hall loaded s s' 0 _ booting_loaded hinit hfirst hallowed hrun
  rw [hn, Option.bind_some, hp, Option.map_some, hrunning] at hready
  exact absurd hready (by decide)

end Running

end TronKernel.Sched
