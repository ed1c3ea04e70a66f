import TronKernel.Sched.Create

/-!
# The first process

`init_scheduler` on a kernel that has just been loaded: its variables are zero, and none of its
objects is in memory. It ends with the idle process running on a ring of one node.
-/

namespace TronKernel.Sched

open Programs Sem

variable {H : Type} {s s' : Kernel H} {E : Stop → Kernel H → Prop}

/-- The kernel before `init_scheduler`. -/
structure Booting (s : Kernel H) : Prop where
  mem : ∀ a, s.mem a = none
  disableCount : s.disableCount = 0
  first : s.first = 0
  currentNode : s.currentNode = 0
  foreground : s.foreground = 0
  background : s.background = 0
  counter : s.counter = 0
  blockCount : s.blockCount = 0
  forceYield : s.forceYield = 0
  pidc : s.pidc = 0
  semaphores : s.semaphores = zeroTable
  pipes : ∀ i, (s.pipes i).created = 0

/-! ## The semaphores of the kernel -/

/-- A semaphore of the kernel after `init_scheduler`. -/
def kernelSem (semId : ℤ) (name : Name) (openCount : ℕ) : SemT :=
  { semId := semId
    name := name.bytes
    lock := 0
    value := 1
    openCount := openCount
    blockedProcesses := fun i => if i < MAX_PROC then NO_PID else 0
    blockedFirst := 0
    blockedLast := 0 }

/-- The table after the first calls of `sem_open`. Each of them counts as one of the first name. -/
def openedTable (opens : ℕ) : Sem.Table := fun i =>
  if opens ≤ i then zeroTable i
  else
    match i with
    | 0 => kernelSem 1 PIDC_MUTEX opens
    | 1 => kernelSem 3 SCHED_MUTEX 0
    | _ => kernelSem 5 PROC_MUTEX 0

theorem semInit_new {t : Sem.Table} {name : Name} {i : ℕ} (hnew : getNewSem t = i)
    (hi : (t i).blockedProcesses = fun _ => 0) :
    semInit t name 1 = (Function.update t i (kernelSem (i * 2 + 1) name 0), SUCCESS_SIGNAL) := by
  have hvalue : toUInt64 1 = 1 := by decide
  have hne : ¬ (i : ℤ) = OUT_OF_BOUNDS := by
    intro h
    simp [OUT_OF_BOUNDS] at h
  rw [semInit]
  simp only [hnew]
  rw [if_neg hne, hvalue, Int.toNat_natCast, hi, kernelSem]

theorem incOpenCount_small {t : Sem.Table} {n : ℕ} (hcount : (t 0).openCount = n)
    (hn : n < 2 ^ 31 - 1) :
    incOpenCount t 0 = some (Function.update t 0 { t 0 with openCount := n + 1 }) := by
  have hback : toUInt64 (toInt n) = n := by simp only [toUInt64, toInt]; omega
  have hnext : toUInt64 (toInt (toInt n + 1)) = n + 1 := by simp only [toUInt64, toInt]; omega
  unfold incOpenCount
  dsimp only
  rw [hcount, if_pos hback, hnext]

/-- `sem_open` of a name that is not in the table counts an opening of slot 0. -/
theorem semOpen_new {t : Sem.Table} {name : Name} {i n : ℕ}
    (hname : getSemByName t name = OUT_OF_BOUNDS) (hnew : getNewSem t = i)
    (hn : n < 2 ^ 31 - 1)
    (hcount : (Function.update t i (kernelSem (i * 2 + 1) name 0) 0).openCount = n)
    (hi : (t i).blockedProcesses = fun _ => 0) :
    semOpen t name 1 = some (Function.update (Function.update t i (kernelSem (i * 2 + 1) name 0)) 0
      { Function.update t i (kernelSem (i * 2 + 1) name 0) 0 with openCount := n + 1 },
      SUCCESS_SIGNAL) := by
  have hne : ¬ SUCCESS_SIGNAL = OUT_OF_BOUNDS := by decide
  rw [semOpen, if_pos hname, semInit_new hnew hi]
  dsimp only
  rw [if_neg hne, show SUCCESS_SIGNAL.toNat = 0 from rfl, incOpenCount_small hcount hn]
  rfl

/-- Each name is new to the table, and its slot is the next one. -/
theorem openedTable_new :
    (getSemByName (openedTable 0) PIDC_MUTEX = OUT_OF_BOUNDS ∧
      getSemByName (openedTable 1) SCHED_MUTEX = OUT_OF_BOUNDS ∧
      getSemByName (openedTable 2) PROC_MUTEX = OUT_OF_BOUNDS) ∧
    getNewSem (openedTable 0) = (0 : ℕ) ∧ getNewSem (openedTable 1) = (1 : ℕ) ∧
      getNewSem (openedTable 2) = (2 : ℕ) := by
  decide +kernel

theorem semOpen_pidc :
    semOpen (openedTable 0) PIDC_MUTEX 1 = some (openedTable 1, SUCCESS_SIGNAL) := by
  rw [semOpen_new (n := 0) openedTable_new.1.1 openedTable_new.2.1 (by omega) rfl rfl]
  congr 2
  funext i
  match i with
  | 0 => rfl
  | i + 1 => rfl

theorem semOpen_sched :
    semOpen (openedTable 1) SCHED_MUTEX 1 = some (openedTable 2, SUCCESS_SIGNAL) := by
  rw [semOpen_new (n := 1) openedTable_new.1.2.1 openedTable_new.2.2.1 (by omega) rfl rfl]
  congr 2
  funext i
  match i with
  | 0 => rfl
  | 1 => rfl
  | i + 2 => simp [openedTable]

theorem semOpen_proc :
    semOpen (openedTable 2) PROC_MUTEX 1 = some (openedTable 3, SUCCESS_SIGNAL) := by
  rw [semOpen_new (n := 2) openedTable_new.1.2.2 openedTable_new.2.2.2 (by omega) rfl rfl]
  congr 2
  funext i
  match i with
  | 0 => rfl
  | 1 => rfl
  | 2 => rfl
  | i + 3 => simp [openedTable]

/-- The table after `init_scheduler`. -/
def bootTable : Sem.Table := openedTable 3

theorem mutexFree_kernel : MutexFree bootTable PIDC_MUTEX.bytes ∧
    MutexFree bootTable PROC_MUTEX.bytes ∧ MutexFree zeroTable PIDC_MUTEX.bytes := by
  decide +kernel

theorem bootTable_pidc : MutexFree bootTable PIDC_MUTEX.bytes := mutexFree_kernel.1

theorem bootTable_proc : MutexFree bootTable PROC_MUTEX.bytes := mutexFree_kernel.2.1

theorem zeroTable_pidc : MutexFree zeroTable PIDC_MUTEX.bytes := mutexFree_kernel.2.2

theorem openSem_ok {name : Name} {value r : ℤ} {t : Sem.Table}
    (h : semOpen s.semaphores name value = some (t, r)) :
    openSem name value s = .ok r { s with semaphores := t } := by
  rw [openSem, get_bind, h]
  rfl

/-- The kernel's semaphores are opened. -/
theorem openSems_ok (hs : s.semaphores = zeroTable) :
    (do
      let _ ← openSem PIDC_MUTEX 1
      let _ ← openSem SCHED_MUTEX 1
      let _ ← openSem PROC_MUTEX 1) s = .ok () { s with semaphores := bootTable } := by
  have h₀ : s.semaphores = openedTable 0 := hs
  rw [bind_of_ok (openSem_ok (h₀ ▸ semOpen_pidc))]
  rw [bind_of_ok (openSem_ok (s := { s with semaphores := openedTable 1 }) semOpen_sched)]
  rw [bind_of_ok (openSem_ok (s := { s with semaphores := openedTable 2 }) semOpen_proc)]
  rfl

/-! ## `init_scheduler` -/

variable [Allocator H]

/-- The idle process. -/
def idleProc (idle argv stack : ℕ) : Process :=
  { newProc idle argv 0 0 stack 0 1 MAX_QUANTUM with state := .running }

/-- The kernel after `init_scheduler`: the idle process `p` on `node`, and nothing else. -/
structure Booted (s s' : Kernel H) (node proc : ℕ) (p : Process) (args own : List ℕ) : Prop where
  within : Within s'
  node? : ∀ a, s'.node? a = if a = node then some ⟨MAX_QUANTUM, proc, node⟩ else none
  process? : ∀ a, s'.process? a = if a = proc then some p else none
  fresh : Fresh s.heap s'.heap (node :: proc :: p.stack :: own)
  stack_at : s'.mem p.stack = some .stack
  args_at : HoldsArgs s' p.argv args own
  globals : s'.toGlobals =
    { s.toGlobals with
      first := node
      currentNode := node
      counter := 1
      pidc := 1
      semaphores := bootTable }

/-- `init_scheduler` finds no memory for its node, or makes the idle process. -/
theorem ends_initScheduler {force : Op H Unit} {Q : Unit → Kernel H → Prop} (hE : Lenient E)
    (hb : Booting s) {idle : ℕ} (hnull : ∀ s', s'.toGlobals = s.toGlobals → Q () s')
    (h : ∀ s' node proc argv stack args own,
      Booted s s' node proc (idleProc idle argv stack) args own → Q () s') :
    Ends Q E (initScheduler force idle) s := by
  rw [initScheduler, ends_bind]
  refine ends_of_ok (malloc_ok _) ?_
  have hw : Within s := fun a o ha => by simp [hb.mem] at ha
  have hw₁ : Within (s.afterMalloc sizeofNode) := fun a o ha => live_malloc_of_live (hw a o ha)
  split_ifs with h0
  swap
  · exact hnull _ rfl
  have hf₁ := (Fresh.nil s.heap s.heap).malloc (n := sizeofNode) (fun _ => id) h0
  generalize (Allocator.malloc s.heap sizeofNode).2 = node at hf₁ h0 ⊢
  have hempty : ∀ a, (s.afterMalloc sizeofNode).mem a = none := hb.mem
  have hlive : ∀ a, Allocator.Live s.heap a → Allocator.Live (s.afterMalloc sizeofNode).heap a :=
    fun a ha => live_malloc_of_live ha
  have hglob : (s.afterMalloc sizeofNode).toGlobals = s.toGlobals := rfl
  replace hf₁ : Fresh s.heap (s.afterMalloc sizeofNode).heap [node] := hf₁
  generalize s.afterMalloc sizeofNode = s₁ at hw₁ hf₁ hempty hlive hglob ⊢
  have hmutex : MutexFree s₁.semaphores PIDC_MUTEX.bytes := by
    rw [hglob, hb.semaphores]
    exact zeroTable_pidc
  rw [ends_bind]
  refine ends_newProcess hE hw₁ hmutex (fun s₂ hg => ?_)
    fun s₂ proc args own argv ppid stack d hc hruns hd hglob₂ => ?_
  · -- without a process, NULL is followed
    rw [ends_bind, Sched.put, ends_modify, ends_bind, ends_modify, ends_bind]
    refine ends_editProc hE fun p hp => ?_
    have hw₂ := hg.within.put (o := .node ⟨MAX_QUANTUM, 0, node⟩)
      (hg.live _ (hf₁.live node (by simp)))
    exact absurd rfl (live_ne_zero (hw₂.process_live hp))
  · have hnode : Allocator.Live s₁.heap node := hf₁.live node (by simp)
    have hnone : s₂.mem node = none := (hc.kept node hnode).trans (hempty node)
    have hrest : ∀ a ∈ proc :: stack :: own, a ≠ node :=
      fun a ha heq => hc.fresh.not_live a ha (heq ▸ hnode)
    have hpid : s₁.pidc = 0 := by rw [hglob, hb.pidc]
    obtain rfl : ppid = 0 := by
      rcases hruns with ⟨-, hpid⟩ | ⟨n, p, hn, -, -⟩
      · exact hpid
      · rw [node?_eq_some, hempty] at hn
        exact absurd hn (by simp)
    rw [hpid] at hc hglob₂
    rw [ends_bind, Sched.put, ends_modify, ends_bind, ends_modify, ends_bind]
    have hprocess : (s₂.put node (.node ⟨MAX_QUANTUM, proc, node⟩)).process? = s₂.process? :=
      process?_put_node (by simp [Kernel.process?, hnone]) _
    refine ends_editProc hE fun p hp => ?_
    obtain rfl := Option.some.inj (((congrFun hprocess proc).trans
      ((hc.process? proc).trans (if_pos rfl))).symm.trans hp)
    have hne : ∀ a ∈ stack :: own, a ≠ proc :=
      fun a ha heq => (List.nodup_cons.mp hc.fresh.nodup).1 (heq ▸ ha)
    have hmem : ∀ {g : Globals} {n p a}, a ≠ proc → a ≠ node →
        (Kernel.put ⟨g, s₂.heap, (s₂.put node (.node n)).mem⟩ proc (.process p)).mem a =
          s₂.mem a := fun {g n p a} h₁ h₂ => by
      rw [put_mem, if_neg h₁, put_mem, if_neg h₂]
    rw [ends_bind, ends_modify]
    refine ends_of_ok (openSems_ok ?_) ?_
    · show s₂.semaphores = _
      rw [hglob₂, hglob, hb.semaphores]
    · refine h _ node proc argv stack args own ⟨?_, fun a => ?_, fun a => ?_, ?_, ?_, ?_, ?_⟩
      · exact Within.put (s := { s₂.put node _ with first := node, currentNode := node })
          (hc.within.put (hc.live _ hnode)) (hc.fresh.live proc (by simp))
      · refine (congrFun (node?_put_process (node?_of_process hp) _) a).trans
          ((node?_put_node s₂ node a _).trans ?_)
        rw [hc.node?, show s₁.node? a = none by simp [Kernel.node?, hempty]]
      · refine (process?_put_process _ proc a _).trans ?_
        split_ifs with ha
        · rfl
        · refine (congrFun hprocess a).trans ((hc.process? a).trans ?_)
          rw [if_neg ha]
          simp [Kernel.process?, hempty]
      · refine ⟨List.nodup_cons.mpr ⟨fun hmem => hrest _ hmem rfl, hc.fresh.nodup⟩, ?_, ?_⟩
        · intro a ha
          rcases List.mem_cons.mp ha with rfl | ha
          · exact hf₁.not_live _ (by simp)
          · exact fun hl => hc.fresh.not_live a ha (hlive a hl)
        · intro a ha
          rcases List.mem_cons.mp ha with rfl | ha
          · exact hc.live _ hnode
          · exact hc.fresh.live a ha
      · exact (hmem (hne stack (by simp)) (hrest stack (by simp))).trans hc.stack_at
      · exact hc.args_at.congr fun a ha => hmem (hne a (by simp [ha])) (hrest a (by simp [ha]))
      · show ({ s₂.toGlobals with
          first := node
          currentNode := node
          counter := incr64 s₂.counter
          semaphores := bootTable } : Globals) = _
        have hcount : incr64 s₂.counter = 1 := by
          rw [hglob₂, hglob, hb.counter, incr64_of_lt (by omega)]
        have hnext : incr64 0 = 1 := incr64_of_lt (by omega)
        have hdis : d = s.disableCount := by
          rw [hd (by rw [hglob, hb.disableCount]; omega), hglob]
        rw [hcount, hglob₂, hnext, hdis, hglob]

/-- The state after `init_scheduler`, with its table of semaphores written out. -/
theorem initScheduler_of_outcome {idle : ℕ} (hs : Booting s)
    (h : (outcome (initScheduler interrupt idle) s).map
      (fun s => { s with semaphores := bootTable }) = some s') (hfirst : s'.first ≠ 0) :
    initScheduler interrupt idle s = .ok () s' := by
  have hend : Ends (fun _ s' => s'.first ≠ 0 → s'.semaphores = bootTable) NotSwitched
      (initScheduler interrupt idle) s := by
    refine ends_initScheduler (fun _ _ h => h) hs (fun s' hglob h0 => ?_)
      fun s' node proc argv stack args own hb _ => by rw [hb.globals]
    exact absurd (by rw [hglob, hs.first]) h0
  obtain ⟨s₁, hs₁, rfl⟩ := Option.map_eq_some_iff.mp h
  rcases leads_outcome hs₁ with ⟨v, hok⟩ | herr
  · have hsem := hend.of_ok hok hfirst
    rw [hok, ← hsem]
  · exact absurd rfl (hend.of_error herr)

/-! ## A kernel of 64 KiB -/

/-- `pipes` before any call. -/
def zeroPipe : Pipe.PipeT :=
  { name := [], created := 0, data := fun _ => 0, rProcesses := fun _ => 0,
    wProcesses := fun _ => 0, nread := 0, nwrite := 0, usingPipe := 0, waitingPid := 0, fd := 0 }

/-- A kernel that has just been loaded, with the first-fit manager on `[4096, 69632)`. -/
def loaded : Kernel FirstFitHeap :=
  { disableCount := 0, first := 0, currentNode := 0, foreground := 0, background := 0, counter := 0,
    blockCount := 0, forceYield := 0, pidc := 0, semaphores := zeroTable,
    pipes := fun _ => zeroPipe,
    rsp := 0, lowMemory := fun _ => 0, mem := fun _ => none,
    heap := firstFitInit 4096 65536 (by decide) (by decide) (by decide) (by decide) (by decide) }

theorem booting_loaded : Booting loaded :=
  ⟨fun _ => rfl, rfl, rfl, rfl, rfl, rfl, rfl, rfl, rfl, rfl, rfl, fun _ => rfl⟩

/-- The kernel after `init_scheduler`. -/
def booted : Option (Kernel FirstFitHeap) :=
  (outcome (initScheduler interrupt 0) loaded).map fun s => { s with semaphores := bootTable }

theorem booted_first : booted.all (fun s => s.first ≠ 0) = true := by decide +kernel

end TronKernel.Sched
