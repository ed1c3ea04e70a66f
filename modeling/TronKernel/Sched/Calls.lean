import TronKernel.Sched.State

/-!
# The code of the running kernel

`semaphore.c`, `pipe.c`, `process.c` and `scheduler.c` as they work together, each function for one
call that is not interrupted. `_force_scheduler` interrupts the call that makes it: `force` stands
for it in the functions that call it, and `forceScheduler` at the end ties the knot.
-/

namespace TronKernel.Sched

open Sem
open Pipe (PipeT blockProcessPipe releaseProcessPipe writeData readData strlen)

variable {H : Type} [Allocator H] (force : Op H Unit)

/-- `block_process`. -/
def blockProcess (pid : ℕ) : Op H ℕ := do
  let node ← findNode pid
  if node = 0 then return failed
  else
    editProc (← nodeAt node).proc fun p => { p with state := .blocked }
    force
    return (← procAt (← nodeAt node).proc).pid

/-! ## Semaphores -/

/-- `semaphores[idx]`. -/
def semAt (idx : ℕ) : Op H SemT := do return (← get).semaphores idx

/-- An assignment to fields of `semaphores[idx]`. -/
def editSem (idx : ℕ) (f : SemT → SemT) : Op H Unit := modify fun s =>
  { s with semaphores := Function.update s.semaphores idx (f (s.semaphores idx)) }

/-- `get_sem_by_name`, for any string. -/
def semIndex (t : Sem.Table) (name : List UInt8) : ℤ :=
  searchFrom (fun idx => strcmp (t idx).name name = 0 ∧ isInUse (t idx).semId) MAX_SEMS 0

/-- `cond`: take the lock, and let it go again if the value is 0. -/
def takeLock (idx : ℕ) : Op H Bool := do
  let sem ← semAt idx
  editSem idx fun sem => { sem with lock := 1 }
  if sem.lock ≠ 0 then return false
  else if 0 < sem.value then return true
  else
    editSem idx fun sem => { sem with lock := 0 }
    return false

/-- The body of the sleeping loop of `sem_wait`: true if it breaks. -/
def semSleep (idx : ℕ) : Op H Bool := do
  let pid := toInt (← getRunningPid)
  schedulerDisable
  editSem idx fun sem =>
    { sem with
      blockedProcesses :=
        Function.update sem.blockedProcesses (sem.blockedLast % MAX_PROC) (toUInt64 pid)
      blockedLast := incr64 sem.blockedLast }
  if ← takeLock idx then
    editSem idx fun sem =>
      if sem.blockedLast ≠ sem.blockedFirst then { sem with blockedLast := decr64 sem.blockedLast }
      else sem
    let _ ← readyProcess (toUInt64 pid)
    schedulerEnable
    return true
  else
    schedulerEnable
    force
    return false

/-- `while (!cond) …`. -/
def semWaitLoop (idx : ℕ) : ℕ → Op H Unit
  | 0 => throw .diverges
  | rounds + 1 => do
    if ← takeLock idx then return ()
    else if ← semSleep force idx then return ()
    else semWaitLoop idx rounds

/-- The end of `sem_wait`. -/
def semTake (idx : ℕ) : Op H Unit :=
  editSem idx fun sem => { sem with value := decr64 sem.value, lock := 0 }

/-- `sem_wait`. -/
def semWait (name : List UInt8) : Op H ℤ := do
  let idx := semIndex (← get).semaphores name
  if idx = OUT_OF_BOUNDS then return ERROR
  else
    semWaitLoop force idx.toNat (2 ^ 64)
    semTake idx.toNat
    return SUCCESS_SIGNAL

/-- `update_sem_processes`. -/
def updateSemProcesses (idx : ℕ) : Op H Unit := do
  let sem ← semAt idx
  if sem.blockedLast ≠ sem.blockedFirst then
    editSem idx fun sem => { sem with blockedFirst := incr64 sem.blockedFirst }
    let pid := toInt (sem.blockedProcesses (sem.blockedFirst % MAX_PROC))
    let _ ← readyProcess (toUInt64 pid)

/-- `sem_post`. -/
def semPost (name : List UInt8) : Op H ℤ := do
  let idx := semIndex (← get).semaphores name
  if idx = OUT_OF_BOUNDS then return ERROR
  else
    schedulerDisable
    editSem idx.toNat fun sem => { sem with value := incr64 sem.value }
    updateSemProcesses idx.toNat
    schedulerEnable
    return SUCCESS_SIGNAL

/-- `sem_open`. -/
def openSem (name : Name) (value : ℤ) : Op H ℤ := do
  match semOpen (← get).semaphores name value with
  | some (t, result) =>
    modify fun s => { s with semaphores := t }
    return result
  | none => throw .diverges

/-! ## Pipes -/

/-- `pipes[index]`. -/
def pipeAt (index : ℤ) : Op H PipeT := do
  if 0 ≤ index ∧ index < MAX_PIPES then return (← get).pipes index.toNat else throw .fault

/-- An assignment to fields of `pipes[index]`. -/
def editPipe (index : ℤ) (f : PipeT → PipeT) : Op H Unit := modify fun s =>
  { s with pipes := Function.update s.pipes index.toNat (f (s.pipes index.toNat)) }

/-- `block_process_pipe(pipes[index].wProcesses, get_running_pid())`. -/
def pipeWriteEnter (index : ℤ) : Op H Unit := do
  let pid := toInt (← getRunningPid)
  let (list, blocked) := blockProcessPipe (← pipeAt index).wProcesses pid
  editPipe index fun p => { p with wProcesses := list }
  match blocked with
  | some pid => let _ ← blockProcess force (toUInt64 pid)
  | none => return ()

/-- `block_process_pipe(pipes[index].rProcesses, get_running_pid())`. -/
def pipeReadEnter (index : ℤ) : Op H Unit := do
  let pid := toInt (← getRunningPid)
  let (list, blocked) := blockProcessPipe (← pipeAt index).rProcesses pid
  editPipe index fun p => { p with rProcesses := list }
  match blocked with
  | some pid => let _ ← blockProcess force (toUInt64 pid)
  | none => return ()

/-- `ready_process` for the process that `release_process_pipe` found. -/
def readyReleased : Option ℤ → Op H Unit
  | some pid => do let _ ← readyProcess (toUInt64 pid)
  | none => return ()

/-- `release_process_pipe(pipes[index].wProcesses, get_running_pid())`, which reads and writes alike
call. -/
def pipeRelease (index : ℤ) : Op H Unit := do
  let pid := toInt (← getRunningPid)
  let (list, released) := releaseProcessPipe (← pipeAt index).wProcesses pid
  readyReleased released
  editPipe index fun p => { p with wProcesses := list }

/-- `pipe_write` behind `sem_wait`. -/
def pipeWriteBody (index : ℤ) (addr : ℕ → UInt8) (n : ℤ) : Op H ℤ := do
  pipeRelease index
  let (p, i) := writeData (← pipeAt index) addr n
  editPipe index fun _ => p
  let _ ← semPost p.name
  return i

/-- `if (n == 0) n = strlen(addr);` -/
def writeLength (addr : ℕ → UInt8) (n : ℤ) : Op H ℤ :=
  if n = 0 then
    match strlen addr with
    | some len => return toInt len
    | none => throw .diverges
  else return n

/-- `pipe_write`. -/
def pipeWrite (index : ℤ) (addr : ℕ → UInt8) (n : ℤ) : Op H ℤ := do
  let n ← writeLength addr n
  if (← pipeAt index).created = 0 then return -1
  else
    pipeWriteEnter force index
    let _ ← semWait force (← pipeAt index).name
    pipeWriteBody index addr n

/-- `pipe_read` behind `sem_wait`: the bytes that `addr` holds after it, and the result. -/
def pipeReadBody (index n : ℤ) : Op H (List UInt8 × ℤ) := do
  pipeRelease index
  let (p, bytes, i) := readData (← pipeAt index) n
  editPipe index fun _ => p
  let _ ← semPost p.name
  return (bytes ++ [0], i)

/-- `pipe_read`. -/
def pipeRead (index n : ℤ) : Op H (List UInt8 × ℤ) := do
  if (← pipeAt index).created = 0 then return ([], -1)
  else
    pipeReadEnter force index
    let _ ← semWait force (← pipeAt index).name
    pipeReadBody index n

/-- `sys_write` without its colour. What is printed leaves no trace in the kernel. -/
def sysWrite (fd : ℕ) (string : ℕ → UInt8) (n : ℕ) : Op H ℕ := do
  let fd := if fd % 256 = 2 then 1 else fd % 256
  let pipeFd := (← procAt (← currentProc)).writeFd
  if fd = 0 then return 0
  else if fd ≠ 1 ∧ n = 0 then return 0
  else if pipeFd = 1 then return 0
  else return toUInt64 (← pipeWrite force (toInt (toUInt64 (pipeFd - 3))) string (toInt n))

/-! ## Processes -/

/-- The names of the kernel's own semaphores. -/
def PIDC_MUTEX : Name where
  bytes := ['P', 'R', 'O', 'C', 'E', 'S', 'S', 'E', 'S', '_', 'M', 'U', 'T', 'E', 'X'].map
    fun c => c.toNat.toUInt8
  no_nul := by decide
  length_lt := by decide

def SCHED_MUTEX : Name where
  bytes := ['S', 'C', 'H', 'E', 'D', 'U', 'L', 'E', 'R', '_', 'M', 'U', 'T', 'E', 'X'].map
    fun c => c.toNat.toUInt8
  no_nul := by decide
  length_lt := by decide

def PROC_MUTEX : Name where
  bytes := ['P', 'R', 'O', 'C', '_', 'M', 'U', 'T', 'E', 'X'].map fun c => c.toNat.toUInt8
  no_nul := by decide
  length_lt := by decide

/-- `free` for one pointer after the other. -/
def freeAll : List ℕ → Op H Unit
  | [] => return ()
  | a :: as => do
    free a
    freeAll as

/-- `free_argv`. -/
def freeArgv (argv : ℕ) : Op H Unit := do
  freeAll (← argvAt argv)
  free argv

/-- The loop of `save_argv`, with the copies made so far. -/
def copyArgs (ret : ℕ) : List ℕ → List (List UInt8) → Op H ℕ
  | copies, [] => do
    put ret (.argv copies)
    return ret
  | copies, arg :: args => do
    let copy ← malloc (arg.length + 1)
    if copy = 0 then
      freeAll copies
      free ret
      return 0
    else
      put copy (.text arg)
      copyArgs ret (copies ++ [copy]) args

/-- `count_argv`: the arguments are those before the `NULL`. -/
def countArgv (argv : List (List UInt8)) : ℕ := argv.length

/-- `(argc + 1) * sizeof(char *)`: the sum is an `int`, the product is not. -/
def argvBytes (argc : ℤ) : ℕ := toUInt64 (toInt (argc + 1) * sizeofPointer)

/-- `save_argv`. For a negative `argc` the loop does nothing, and `ret[argc] = NULL` is a store in
front of the block. -/
def saveArgv (argc : ℤ) (argv : List (List UInt8)) : Op H ℕ := do
  let ret ← malloc (argvBytes argc)
  if ret = 0 then return 0
  else if argc < 0 then throw .fault
  else copyArgs ret [] (argv.take argc.toNat)

/-- `newProcess`, less the contents of the stack. -/
def newProcess (name : ℕ) (argv : List (List UInt8)) (readFd writeFd priority : ℕ) : Op H ℕ := do
  let proc ← malloc sizeofProcess
  if proc = 0 then return 0
  else
    let argc := toInt (countArgv argv)
    let savedArgv ← saveArgv argc argv
    let stack ← malloc STACK_FRAME_SIZE
    if stack = 0 then
      free proc
      return 0
    else
      put stack .stack
      let _ ← semWait force PIDC_MUTEX.bytes
      let pid := (← get).pidc
      modify fun s => { s with pidc := incr64 s.pidc }
      let _ ← semPost PIDC_MUTEX.bytes
      let ppid ← getRunningPid
      put proc (.process
        { name := name
          argv := savedArgv
          pid := pid
          ppid := ppid
          sp := stack + STACK_FRAME_SIZE - sizeofStackFrame
          bp := stack + STACK_FRAME_SIZE - sizeofUInt64
          state := .new
          stack := stack
          readFd := readFd
          writeFd := writeFd
          priority := priority
          children := 0
          blockedByChildren := 0 })
      return proc

/-- `free_proc`. The end of file that is written is the byte at address 4. -/
def freeProc (proc : ℕ) : Op H Unit := do
  free (← procAt proc).stack
  freeArgv (← procAt proc).argv
  let lowMemory := (← get).lowMemory
  let _ ← sysWrite force (← procAt proc).writeFd (fun i => lowMemory (4 + i)) 1
  free proc

/-! ## The scheduler -/

/-- `add_node`. -/
def addNode (process : ℕ) : Op H ℕ := do
  let newNode ← malloc sizeofNode
  if newNode = 0 then return 0
  else
    let current := (← get).currentNode
    put newNode (.node ⟨(← procAt process).priority, process, (← nodeAt current).next⟩)
    editNode current fun n => { n with next := newNode }
    return newNode

/-- `if (is_foreground == 1) …` of `add_process`. -/
def takeForeground (isForeground newNode : ℕ) : Op H Unit := modify fun s =>
  if isForeground = 1 then
    { s with
      background := if s.background = 0 then s.foreground else s.background
      foreground := newNode }
  else s

/-- `add_process`. -/
def addProcess (name : ℕ) (argv : List (List UInt8)) (readFd writeFd priority isForeground : ℕ) :
    Op H ℕ := do
  schedulerDisable
  let proc ← newProcess force name argv readFd writeFd (min priority 5)
  let _ ← semWait force PROC_MUTEX.bytes
  editProc (← currentProc) fun p => { p with children := incr64 p.children }
  let _ ← semPost PROC_MUTEX.bytes
  let newNode ← addNode proc
  takeForeground isForeground newNode
  modify fun s => { s with counter := incr64 s.counter }
  schedulerEnable
  return (← procAt proc).pid

/-- `destroy_node` between `sem_wait` and `sem_post`. -/
def loseChild (parent : ℕ) : Op H Unit := do
  editProc (← nodeAt parent).proc fun p => { p with children := decr64 p.children }
  if (← procAt (← nodeAt parent).proc).children = 0 then
    editProc (← nodeAt parent).proc fun p => { p with blockedByChildren := 0 }
    let _ ← readyProcess (← procAt (← nodeAt parent).proc).pid

/-- The counters in `destroy_node`. -/
def countRemoval (node : ℕ) : Op H Unit := do
  modify fun s => { s with counter := decr64 s.counter }
  if (← procAt (← nodeAt node).proc).state = .blocked then
    modify fun s => { s with blockCount := decr64 s.blockCount }

/-- The next node's contents move into the node. -/
def absorbNext (node : ℕ) : Op H Unit := do
  let proc := (← nodeAt (← nodeAt node).next).proc
  editNode node fun n => { n with proc := proc }
  let next := (← nodeAt (← nodeAt node).next).next
  editNode node fun n => { n with next := next }
  if (← procAt (← nodeAt node).proc).pid = 0 then
    modify fun s => { s with first := node }

/-- `destroy_node`. -/
def destroyNode (node : ℕ) : Op H Unit := do
  let parent ← findNode (← procAt (← currentProc)).ppid
  if parent = 0 then return ()
  else
    let _ ← semWait force PROC_MUTEX.bytes
    loseChild parent
    let _ ← semPost PROC_MUTEX.bytes
    countRemoval node
    let aux := (← nodeAt node).next
    freeProc force (← nodeAt node).proc
    absorbNext node
    free aux

/-- `currentNode = find_next_ready(start)`, and what follows it each time. -/
def dispatch (start : ℕ) : Op H Unit := do
  let next ← findNextReady start
  modify fun s => { s with currentNode := next }
  let proc ← currentProc
  editProc proc fun p => { p with state := .running }
  let priority := (← procAt proc).priority
  editNode (← get).currentNode fun n => { n with quantums := priority }

/-- `killCurrentProcess`. -/
def killCurrentProcess : Op H Unit := do
  editProc (← currentProc) fun p => { p with state := .killed }
  force

/-- `kill_process` behind the test for the current process. -/
def killOther (pid : ℕ) : Op H ℕ := do
  let node ← findNode pid
  if node = 0 then return failed
  else
    editProc (← nodeAt node).proc fun p => { p with state := .killed }
    let removedPid := (← procAt (← nodeAt node).proc).pid
    destroyNode force node
    return removedPid

/-- `if (currentNode->proc->pid == pid) …` -/
def killIfCurrent (pid : ℕ) : Op H Unit := do
  if (← procAt (← currentProc)).pid = pid then killCurrentProcess force

/-- `kill_process`. -/
def killProcess (pid : ℕ) : Op H ℕ := do
  killIfCurrent force pid
  killOther force pid

/-- `ready_foreground_proc`. -/
def readyForegroundProc : Op H Unit := do
  editProc (← foregroundProc) fun p =>
    { p with state := if p.state = .blocked then .ready else p.state }

/-- `kill_foreground_proc`. -/
def killForegroundProc : Op H Unit := do
  if (← get).background ≠ 0 then
    let aux := (← get).foreground
    modify fun s => { s with foreground := s.background }
    readyForegroundProc
    editProc (← foregroundProc) fun p => { p with readFd := 0 }
    modify fun s => { s with background := 0 }
    let _ ← killProcess force (← procAt (← nodeAt aux).proc).pid

/-- `scheduler` for a process that has not been killed. -/
def schedulerSwitch : Op H Unit := do
  let n ← nodeAt (← get).currentNode
  let p ← procAt n.proc
  if p.state = .blocked then dispatch n.next
  else if MAX_QUANTUM < n.quantums ∨ (← get).forceYield ≠ 0 then
    modify fun s => { s with forceYield := 0 }
    editProc n.proc fun p => { p with state := .ready }
    dispatch n.next

/-- `scheduler` for a process that has been killed. -/
def schedulerDestroy : Op H Unit := do
  if (← currentProc) = (← foregroundProc) then killForegroundProc force
  else destroyNode force (← get).currentNode

/-- `scheduler` behind the first two tests. -/
def schedulerRun : Op H Unit := do
  let proc ← currentProc
  match (← procAt proc).state with
  | .running =>
    editNode (← get).currentNode fun n => { n with quantums := incr64 n.quantums }
    schedulerSwitch
  | .killed =>
    schedulerDestroy force
    dispatch (← get).currentNode
  | _ => schedulerSwitch

/-- `scheduler`. -/
def scheduler (sp : ℕ) : Op H ℕ := do
  if (← get).disableCount ≠ 0 then
    editProc (← currentProc) fun p => { p with sp := sp }
    return sp
  else if (← get).counter = 1 then return sp
  else
    editProc (← currentProc) fun p => { p with sp := sp }
    schedulerRun force
    return (← procAt (← currentProc)).sp

/-- `_force_scheduler`, with at most `depth` interrupts inside each other: an interrupt that calls
`scheduler`. The call goes on if the scheduler keeps the process. -/
def forceScheduler : ℕ → Op H Unit
  | 0 => throw .diverges
  | depth + 1 => do
    let proc ← currentProc
    let _ ← scheduler (forceScheduler depth) (← get).rsp
    if (← currentProc) ≠ proc then throw .switched

/-- `wait_pid`. -/
def waitPid : Op H Unit := do
  let proc ← currentProc
  if (← procAt proc).children ≠ 0 then
    editProc proc fun p => { p with blockedByChildren := 1 }
    modify fun s => { s with blockCount := incr64 s.blockCount }
    editProc (← currentProc) fun p => { p with state := .blocked }
    force

/-- `force_current_yield`. -/
def forceCurrentYield : Op H Unit := do
  modify fun s => { s with forceYield := 1 }
  force

/-- `init_scheduler`. `idle` is the address of the name `"IDLE"`. -/
def initScheduler (idle : ℕ) : Op H Unit := do
  let newNode ← malloc sizeofNode
  if newNode ≠ 0 then
    let proc ← newProcess force idle [] 0 1 MAX_QUANTUM
    put newNode (.node ⟨MAX_QUANTUM, proc, newNode⟩)
    modify fun s => { s with first := newNode, currentNode := newNode }
    editProc proc fun p => { p with state := .running }
    modify fun s => { s with counter := incr64 s.counter }
    let _ ← openSem PIDC_MUTEX 1
    let _ ← openSem SCHED_MUTEX 1
    let _ ← openSem PROC_MUTEX 1

end TronKernel.Sched
