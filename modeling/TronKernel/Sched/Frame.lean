import TronKernel.Sched.Mutex

/-!
# Code that leaves the rest of the kernel alone

The calls of the scheduler and of the semaphores, and what `pipe_write` does around its transfer,
change states, counters, semaphores and the lists of the pipes. A relation between two kernels that
sees none of these is `Stable`, and every one of these functions keeps it, one lemma for each. The
bytes of the pipes and low memory are such a relation (`SameBytes`), and so are the heap, the ring
and all of its processes but for their states (`OnlyStates`).
-/

namespace TronKernel.Sched

open Programs Sem
open Pipe (PipeT blockProcessPipe releaseProcessPipe)

variable {H α β : Type} {s s' s₁ s₂ : Kernel H} {R : Kernel H → Kernel H → Prop}
  {P : PipeT → PipeT → Prop}

/-- The relation sees neither states nor counters nor semaphores, and of a pipe nothing that `P`
lets change, such as its lists. -/
structure Stable (R : Kernel H → Kernel H → Prop) (P : PipeT → PipeT → Prop) : Prop where
  refl : ∀ s, R s s
  trans : ∀ {s s₁ s₂}, R s s₁ → R s₁ s₂ → R s s₂
  state : ∀ {s a p} state, s.process? a = some p →
    R s (s.put a (.process { p with state := state }))
  counters : ∀ s d b t, R s { s with disableCount := d, blockCount := b, semaphores := t }
  pipe : ∀ s i p, P (s.pipes i) p → R s { s with pipes := Function.update s.pipes i p }
  lists : ∀ p r w, P p { p with rProcesses := r, wProcesses := w }

namespace Stable

theorem pure (h : Stable R P) (a : α) : Keeps R (Pure.pure a : Op H α) := keeps_pure h.refl a

theorem bind (h : Stable R P) {m : Op H α} {f : α → Op H β} (hm : Keeps R m)
    (hf : ∀ a, Keeps R (f a)) : Keeps R (m >>= f) :=
  hm.bind h.trans hf

/-! ## The scheduler -/

theorem nodeAt (h : Stable R P) (a : ℕ) : Keeps R (Sched.nodeAt a) :=
  fun s => ends_nodeAt lenient_true fun _ _ => h.refl s

theorem procAt (h : Stable R P) (a : ℕ) : Keeps R (Sched.procAt a) :=
  fun s => ends_procAt lenient_true fun _ _ => h.refl s

theorem getRunningPid (h : Stable R P) : Keeps R Sched.getRunningPid :=
  fun s => ends_getRunningPid lenient_true fun _ _ => h.refl s

theorem schedulerEnable (h : Stable R P) : Keeps R Sched.schedulerEnable := by
  intro s
  rw [Ends, schedulerEnable_ok]
  exact h.counters s _ s.blockCount s.semaphores

theorem schedulerDisable (h : Stable R P) : Keeps R Sched.schedulerDisable :=
  fun s => ends_schedulerDisable lenient_true fun d _ => h.counters s d s.blockCount s.semaphores

theorem readyProcess (h : Stable R P) (pid : ℕ) : Keeps R (Sched.readyProcess pid) := by
  refine fun s => ends_readyProcess lenient_true (h.refl s) fun a p _ hp _ => ?_
  exact h.trans (h.state .ready hp) (h.counters _ s.disableCount _ s.semaphores)

variable {force : Op H Unit}

theorem blockProcess (h : Stable R P) (hforce : Keeps R force) (pid : ℕ) :
    Keeps R (Sched.blockProcess force pid) := by
  intro s
  refine ends_blockProcess lenient_true (h.refl s) fun a p hp _ => ?_
  exact (hforce _).mono (fun _ _ hend _ => h.trans (h.state .blocked hp) hend) fun _ _ h => h

/-! ## The semaphores -/

theorem semAt (h : Stable R P) (idx : ℕ) : Keeps R (Sched.semAt idx) := fun s => h.refl s

theorem editSem (h : Stable R P) (idx : ℕ) (f : SemT → SemT) : Keeps R (Sched.editSem idx f) :=
  fun s => h.counters s s.disableCount s.blockCount _

theorem takeLock (h : Stable R P) (idx : ℕ) : Keeps R (Sched.takeLock idx) := by
  refine h.bind (h.semAt idx) fun sem => ?_
  refine h.bind (h.editSem idx _) fun _ => ?_
  split_ifs
  · exact h.pure _
  · exact h.pure _
  · exact h.bind (h.editSem idx _) fun _ => h.pure _

theorem semSleep (h : Stable R P) (hforce : Keeps R force) (idx : ℕ) :
    Keeps R (Sched.semSleep force idx) := by
  refine h.bind h.getRunningPid fun pid => ?_
  refine h.bind h.schedulerDisable fun _ => ?_
  refine h.bind (h.editSem idx _) fun _ => ?_
  refine h.bind (h.takeLock idx) fun taken => ?_
  split_ifs
  · refine h.bind (h.editSem idx _) fun _ => ?_
    refine h.bind (h.readyProcess _) fun _ => ?_
    exact h.bind h.schedulerEnable fun _ => h.pure _
  · refine h.bind h.schedulerEnable fun _ => ?_
    exact h.bind hforce fun _ => h.pure _

theorem semWaitLoop (h : Stable R P) (hforce : Keeps R force) (idx rounds : ℕ) :
    Keeps R (Sched.semWaitLoop force idx rounds) := by
  induction rounds with
  | zero => exact keeps_throw _
  | succ rounds ih =>
    refine h.bind (h.takeLock idx) fun taken => ?_
    split_ifs
    · exact h.pure _
    · refine h.bind (h.semSleep hforce idx) fun broke => ?_
      split_ifs
      · exact h.pure _
      · exact ih

theorem semWait (h : Stable R P) (hforce : Keeps R force) (name : List UInt8) :
    Keeps R (Sched.semWait force name) := by
  refine keeps_get_bind fun s => ?_
  dsimp only
  split_ifs
  · exact h.pure _
  · refine h.bind (h.semWaitLoop hforce _ _) fun _ => ?_
    exact h.bind (h.editSem _ _) fun _ => h.pure _

theorem updateSemProcesses (h : Stable R P) (idx : ℕ) : Keeps R (Sched.updateSemProcesses idx) := by
  refine h.bind (h.semAt idx) fun sem => ?_
  split_ifs
  · refine h.bind (h.editSem idx _) fun _ => ?_
    exact h.bind (h.readyProcess _) fun _ => h.pure _
  · exact h.pure _

theorem semPost (h : Stable R P) (name : List UInt8) : Keeps R (Sched.semPost name) := by
  refine keeps_get_bind fun s => ?_
  dsimp only
  split_ifs
  · exact h.pure _
  · refine h.bind h.schedulerDisable fun _ => ?_
    refine h.bind (h.editSem _ _) fun _ => ?_
    refine h.bind (h.updateSemProcesses _) fun _ => ?_
    exact h.bind h.schedulerEnable fun _ => h.pure _

/-! ## The lists of a pipe -/

theorem pipeAt (h : Stable R P) (index : ℤ) : Keeps R (Sched.pipeAt index) := by
  unfold Sched.pipeAt
  split_ifs
  · exact keeps_get_bind fun s => h.pure _
  · exact keeps_throw _

theorem editPipe (h : Stable R P) (index : ℤ) (f : PipeT → PipeT) (hf : ∀ p, P p (f p)) :
    Keeps R (Sched.editPipe index f) :=
  keeps_modify fun s => h.pipe s index.toNat _ (hf _)

theorem pipeWriteEnter (h : Stable R P) (hforce : Keeps R force) (index : ℤ) :
    Keeps R (Sched.pipeWriteEnter force index) := by
  refine h.bind h.getRunningPid fun pid => ?_
  refine h.bind (h.pipeAt index) fun p => ?_
  rcases blockProcessPipe p.wProcesses (toInt pid) with ⟨list, blocked⟩
  dsimp only
  refine h.bind (h.editPipe index _ fun q => h.lists q q.rProcesses list) fun _ => ?_
  cases blocked with
  | none => exact h.pure _
  | some pid => exact h.bind (h.blockProcess hforce _) fun _ => h.pure _

theorem readyReleased (h : Stable R P) (released : Option ℤ) :
    Keeps R (Sched.readyReleased released) := by
  cases released with
  | none => exact h.pure _
  | some pid => exact h.bind (h.readyProcess _) fun _ => h.pure _

theorem pipeRelease (h : Stable R P) (index : ℤ) : Keeps R (Sched.pipeRelease index) := by
  refine h.bind h.getRunningPid fun pid => ?_
  refine h.bind (h.pipeAt index) fun p => ?_
  rcases releaseProcessPipe p.wProcesses (toInt pid) with ⟨list, released⟩
  dsimp only
  refine h.bind (h.readyReleased released) fun _ => ?_
  exact h.editPipe index _ fun q => h.lists q q.rProcesses list

/-! ## Writing -/

theorem pipeWriteBody (h : Stable R fun _ _ => True) (index : ℤ) (addr : ℕ → UInt8) (n : ℤ) :
    Keeps R (Sched.pipeWriteBody index addr n) := by
  refine h.bind (h.pipeRelease index) fun _ => ?_
  refine h.bind (h.pipeAt index) fun p => ?_
  rcases Pipe.writeData p addr n with ⟨q, i⟩
  refine h.bind (h.editPipe index _ fun _ => trivial) fun _ => ?_
  exact h.bind (h.semPost _) fun _ => h.pure _

theorem pipeWrite (h : Stable R fun _ _ => True) (hforce : Keeps R force) (index : ℤ)
    (addr : ℕ → UInt8) (n : ℤ) : Keeps R (Sched.pipeWrite force index addr n) := by
  refine h.bind ?_ fun n => ?_
  · unfold writeLength
    split_ifs
    · split
      · exact h.pure _
      · exact keeps_throw _
    · exact h.pure _
  · refine h.bind (h.pipeAt index) fun p => ?_
    split_ifs
    · exact h.pure _
    · refine h.bind (h.pipeWriteEnter hforce index) fun _ => ?_
      refine h.bind (h.pipeAt index) fun p => ?_
      refine h.bind (h.semWait hforce _) fun _ => ?_
      exact h.pipeWriteBody index addr n

theorem currentProc (h : Stable R P) : Keeps R Sched.currentProc :=
  fun s => ends_currentProc lenient_true fun _ _ => h.refl s

theorem sysWrite (h : Stable R fun _ _ => True) (hforce : Keeps R force) (fd : ℕ)
    (addr : ℕ → UInt8) (n : ℕ) : Keeps R (Sched.sysWrite force fd addr n) := by
  refine h.bind h.currentProc fun proc => ?_
  refine h.bind (h.procAt proc) fun p => ?_
  generalize (if fd % 256 = 2 then 1 else fd % 256) = fd
  dsimp only
  generalize toInt (toUInt64 _) = index
  generalize toInt (n : ℤ) = m
  split_ifs
  · exact h.pure _
  · exact h.pure _
  · exact h.pure _
  · exact h.bind (h.pipeWrite hforce index addr m) fun _ => h.pure _

end Stable

/-! ## The bytes of the pipes -/

/-- The pipe holds the same bytes and is open or not as before. -/
structure SameData (p q : PipeT) : Prop where
  created : q.created = p.created
  data : q.data = p.data
  nread : q.nread = p.nread
  nwrite : q.nwrite = p.nwrite

theorem SameData.refl (p : PipeT) : SameData p p := ⟨rfl, rfl, rfl, rfl⟩

theorem SameData.trans {p q r : PipeT} (h : SameData p q) (h' : SameData q r) : SameData p r :=
  ⟨h'.created.trans h.created, h'.data.trans h.data, h'.nread.trans h.nread,
    h'.nwrite.trans h.nwrite⟩

/-- All pipes hold the same bytes, and so does low memory. -/
structure SameBytes (s s' : Kernel H) : Prop where
  lowMemory : s'.lowMemory = s.lowMemory
  pipes : ∀ j, SameData (s.pipes j) (s'.pipes j)

theorem SameBytes.refl (s : Kernel H) : SameBytes s s := ⟨rfl, fun _ => SameData.refl _⟩

theorem SameBytes.trans (h : SameBytes s s₁) (h' : SameBytes s₁ s₂) : SameBytes s s₂ :=
  ⟨h'.lowMemory.trans h.lowMemory, fun j => (h.pipes j).trans (h'.pipes j)⟩

/-- A step that assigns neither `pipes` nor low memory. -/
theorem SameBytes.of_eq (hlow : s'.lowMemory = s.lowMemory) (hpipes : s'.pipes = s.pipes) :
    SameBytes s s' :=
  ⟨hlow, fun _ => hpipes ▸ SameData.refl _⟩

/-- Where the program ends, the bytes are as they were. -/
def KeepsBytes (m : Op H α) : Prop :=
  ∀ s, Ends (fun _ s' => SameBytes s s') (fun _ _ => True) m s

theorem keepsBytes_throw (e : Stop) : KeepsBytes (throw e : Op H α) := fun _ => trivial

theorem stable_sameBytes : Stable (H := H) SameBytes SameData where
  refl := .refl
  trans := .trans
  state _ _ := .of_eq rfl rfl
  counters _ _ _ _ := .of_eq rfl rfl
  pipe s i p hp := by
    refine ⟨rfl, fun j => ?_⟩
    show SameData (s.pipes j) (Function.update s.pipes i p j)
    rw [Function.update_apply]
    split_ifs with hj
    · exact hj ▸ hp
    · exact SameData.refl _
  lists _ _ _ := ⟨rfl, rfl, rfl, rfl⟩

/-! ## The heap and the ring -/

/-- What a block holds, but for the state of a process. -/
def Object.unstated : Object → Object
  | .process p => .process { p with state := .new }
  | o => o

/-- The heap and the ring are the same, but for the states of processes. -/
structure OnlyStates (s s' : Kernel H) : Prop where
  heap : s'.heap = s.heap
  mem : ∀ a, (s'.mem a).map Object.unstated = (s.mem a).map Object.unstated
  first : s'.first = s.first
  currentNode : s'.currentNode = s.currentNode
  foreground : s'.foreground = s.foreground
  background : s'.background = s.background
  counter : s'.counter = s.counter

theorem OnlyStates.refl (s : Kernel H) : OnlyStates s s :=
  ⟨rfl, fun _ => rfl, rfl, rfl, rfl, rfl, rfl⟩

theorem OnlyStates.trans (h : OnlyStates s s₁) (h' : OnlyStates s₁ s₂) : OnlyStates s s₂ where
  heap := h'.heap.trans h.heap
  mem a := (h'.mem a).trans (h.mem a)
  first := h'.first.trans h.first
  currentNode := h'.currentNode.trans h.currentNode
  foreground := h'.foreground.trans h.foreground
  background := h'.background.trans h.background
  counter := h'.counter.trans h.counter

/-- What is no process is the same. -/
theorem OnlyStates.mem_of_ne (h : OnlyStates s s') {a : ℕ} {o : Object} (ho : s.mem a = some o)
    (hne : ∀ p, o ≠ .process p) : s'.mem a = some o := by
  have hmem := h.mem a
  rw [ho, Option.map_some, Option.map_eq_some_iff] at hmem
  obtain ⟨o', ho', heq⟩ := hmem
  rw [ho']
  cases o with
  | process p => exact absurd rfl (hne p)
  | _ => cases o' <;> simp_all [Object.unstated]

/-- A process is the same, but for its state. -/
theorem OnlyStates.process (h : OnlyStates s s') {a : ℕ} {p : Process}
    (hp : s.process? a = some p) : ∃ state, s'.process? a = some { p with state := state } := by
  have hmem := h.mem a
  rw [process?_eq_some.mp hp, Option.map_some, Option.map_eq_some_iff] at hmem
  obtain ⟨o, ho, heq⟩ := hmem
  cases o with
  | process q =>
    refine ⟨q.state, process?_eq_some.mpr (ho.trans ?_)⟩
    simp only [Object.unstated, Object.process.injEq, Process.mk.injEq] at heq
    cases q
    simp_all
  | _ => cases heq

theorem OnlyStates.samePids (h : OnlyStates s s') : SamePids s s' where
  first := h.first
  node? a n hn := node?_eq_some.mpr (h.mem_of_ne (node?_eq_some.mp hn) (by simp))
  process? a p hp := by
    obtain ⟨state, hstate⟩ := h.process hp
    exact ⟨_, hstate, rfl⟩

theorem stable_onlyStates : Stable (H := H) OnlyStates fun _ _ => True where
  refl := .refl
  trans := .trans
  state {s a p} state hp := by
    refine ⟨rfl, fun b => ?_, rfl, rfl, rfl, rfl, rfl⟩
    rw [put_mem]
    split_ifs with hba
    · rw [hba, process?_eq_some.mp hp]
      rfl
    · rfl
  counters _ _ _ _ := ⟨rfl, fun _ => rfl, rfl, rfl, rfl, rfl, rfl⟩
  pipe _ _ _ _ := ⟨rfl, fun _ => rfl, rfl, rfl, rfl, rfl, rfl⟩
  lists _ _ _ := trivial

end TronKernel.Sched
