import TronKernel.Lib.Programs
import TronKernel.Sched.Allocator
import TronKernel.Sem.Table
import TronKernel.Pipe.Buffer

/-!
# The state of the running kernel

The globals of `scheduler.c`, `process.c`, `semaphore.c` and `pipe.c`, the heap, and what the kernel
keeps in the blocks of the heap: nodes, processes, argument lists, argument strings and stacks. A
block is gone from `mem` as soon as it is freed, and a program that reads or writes one that is not
there, or takes it for something else, stops with `Stop.fault`. The other ways to stop are a loop
that never ends and a switch to another process in the middle of a call.
-/

namespace TronKernel.Sched

open Sem Pipe

/-- `states`. -/
inductive States where
  | ready | running | blocked | new | killed
deriving DecidableEq, Repr

/-- `Process`. -/
structure Process where
  name : ℕ
  argv : ℕ
  pid : ℕ
  ppid : ℕ
  sp : ℕ
  bp : ℕ
  state : States
  stack : ℕ
  readFd : ℕ
  writeFd : ℕ
  priority : ℕ
  children : ℕ
  blockedByChildren : ℕ
deriving DecidableEq, Repr

/-- `Node`. -/
structure Node where
  quantums : ℕ
  proc : ℕ
  next : ℕ
deriving DecidableEq, Repr

/-- What a block of the heap holds. A list of arguments ends at its NULL, a string at its NUL. -/
inductive Object where
  | node (n : Node)
  | process (p : Process)
  | argv (args : List ℕ)
  | text (bytes : List UInt8)
  | stack
deriving DecidableEq, Repr

/-- The globals. `rsp` is the stack pointer that an interrupt hands to `scheduler`, and `lowMemory`
are the bytes from address 0 on, where the interrupt descriptors are. -/
structure Globals where
  disableCount : ℕ
  first : ℕ
  currentNode : ℕ
  foreground : ℕ
  background : ℕ
  counter : ℕ
  blockCount : ℕ
  forceYield : ℕ
  pidc : ℕ
  semaphores : Sem.Table
  pipes : ℕ → PipeT
  rsp : ℕ
  lowMemory : ℕ → UInt8

/-- The kernel. -/
structure Kernel (H : Type) extends Globals where
  heap : H
  mem : ℕ → Option Object

/-- Why a call does not return: another process has been switched to, it goes on for ever, or it
uses memory that is not there. -/
inductive Stop where
  | switched | diverges | fault
deriving DecidableEq, Repr

/-- A part of the kernel's code. -/
abbrev Op (H α : Type) := EStateM Stop (Kernel H) α

abbrev MAX_QUANTUM : ℕ := 5

abbrev STACK_FRAME_SIZE : ℕ := 4000

/-- `sizeof(Process)`, `sizeof(Node)`, `sizeof(char *)`, `sizeof(uint64_t)` and
`sizeof(StackFrame)`. -/
abbrev sizeofProcess : ℕ := 104

abbrev sizeofNode : ℕ := 24

abbrev sizeofPointer : ℕ := 8

abbrev sizeofUInt64 : ℕ := 8

abbrev sizeofStackFrame : ℕ := 168

abbrev MAX_PIPES : ℕ := 10

/-- `n++` on 64 bits. -/
@[irreducible] def incr64 (n : ℕ) : ℕ := (n + 1) % 2 ^ 64

/-- `n--` on 64 bits. -/
@[irreducible] def decr64 (n : ℕ) : ℕ := (2 ^ 64 - 1 + n) % 2 ^ 64

theorem incr64_of_lt {n : ℕ} (h : n + 1 < 2 ^ 64) : incr64 n = n + 1 := by
  unfold incr64
  omega

theorem decr64_of_pos {n : ℕ} (hpos : 0 < n) (hlt : n < 2 ^ 64) : decr64 n = n - 1 := by
  unfold decr64
  omega

variable {H : Type}

/-! ## Memory -/

/-- The node at an address. -/
def Kernel.node? (s : Kernel H) (a : ℕ) : Option Node :=
  match s.mem a with
  | some (.node n) => some n
  | _ => none

/-- The process at an address. -/
def Kernel.process? (s : Kernel H) (a : ℕ) : Option Process :=
  match s.mem a with
  | some (.process p) => some p
  | _ => none

/-- The argument list at an address. -/
def Kernel.argv? (s : Kernel H) (a : ℕ) : Option (List ℕ) :=
  match s.mem a with
  | some (.argv args) => some args
  | _ => none

/-- Put an object into a block. -/
def Kernel.put (s : Kernel H) (a : ℕ) (o : Object) : Kernel H :=
  { s with mem := Function.update s.mem a (some o) }

/-- `*a` for a `NodeP`. -/
def nodeAt (a : ℕ) : Op H Node := fun s =>
  match s.node? a with
  | some n => .ok n s
  | none => .error .fault s

/-- `*a` for a `ProcessP`. -/
def procAt (a : ℕ) : Op H Process := fun s =>
  match s.process? a with
  | some p => .ok p s
  | none => .error .fault s

/-- The pointers up to the NULL at `a`. -/
def argvAt (a : ℕ) : Op H (List ℕ) := fun s =>
  match s.argv? a with
  | some args => .ok args s
  | none => .error .fault s

/-- An assignment to fields of the node at `a`. -/
def editNode (a : ℕ) (f : Node → Node) : Op H Unit := do
  let n ← nodeAt a
  modify fun s => s.put a (.node (f n))

/-- An assignment to fields of the process at `a`. -/
def editProc (a : ℕ) (f : Process → Process) : Op H Unit := do
  let p ← procAt a
  modify fun s => s.put a (.process (f p))

/-- The initialisation of a block from `malloc`. -/
def put (a : ℕ) (o : Object) : Op H Unit := modify fun s => s.put a o

/-- `malloc`. -/
def malloc [Allocator H] (size : ℕ) : Op H ℕ := fun s =>
  .ok (Allocator.malloc s.heap size).2 { s with heap := (Allocator.malloc s.heap size).1 }

/-- `free`. -/
def free [Allocator H] (a : ℕ) : Op H Unit := modify fun s =>
  { s with heap := Allocator.free s.heap a, mem := Function.update s.mem a none }

/-- `currentNode->proc`. -/
def currentProc : Op H ℕ := do return (← nodeAt (← get).currentNode).proc

/-- `foreground->proc`. Through NULL it is the second word of the first interrupt descriptor, which
is 0. -/
def foregroundProc : Op H ℕ := do
  if (← get).foreground = 0 then return 0 else return (← nodeAt (← get).foreground).proc

/-! ## Enabling and searching -/

/-- `get_running_pid`. -/
def getRunningPid : Op H ℕ := do
  if (← get).currentNode = 0 then return 0 else return (← procAt (← currentProc)).pid

/-- `scheduler_enable`. -/
def schedulerEnable : Op H Unit := modify fun s =>
  if 0 < s.disableCount then { s with disableCount := s.disableCount - 1 } else s

/-- `scheduler_disable`. `count` is an `int`. -/
@[irreducible] def schedulerDisable : Op H Unit := do
  let count := toInt (← get).disableCount
  if toUInt64 count = (← get).disableCount then
    modify fun s => { s with disableCount := toUInt64 (toInt (count + 1)) }
  else throw .diverges

/-- The loop of `find_node`. A node at a time, it passes fewer than `2 ^ 64` nodes or never ends. -/
def findNodeLoop (pid : ℕ) : ℕ → ℕ → Op H ℕ
  | 0, _ => throw .diverges
  | rounds + 1, current => do
    if current = (← get).first then return 0
    else
      let n ← nodeAt current
      if (← procAt n.proc).pid = pid then return current
      else findNodeLoop pid rounds n.next

/-- `find_node`. -/
def findNode (pid : ℕ) : Op H ℕ := do
  let first := (← get).first
  let n ← nodeAt first
  if (← procAt n.proc).pid = pid then return first
  else findNodeLoop pid (2 ^ 64) n.next

/-- `find_next_ready`, for a number of calls. -/
def findNextReadyLoop : ℕ → ℕ → Op H ℕ
  | 0, _ => throw .diverges
  | calls + 1, current => do
    let n ← nodeAt current
    let p ← procAt n.proc
    if p.state = .ready ∨ p.state = .new then return current
    else findNextReadyLoop calls n.next

/-- `find_next_ready`. A recursion that goes past `2 ^ 64` nodes never ends. -/
def findNextReady (current : ℕ) : Op H ℕ := findNextReadyLoop (2 ^ 64) current

/-- `-1` as a `uint64_t`. -/
abbrev failed : ℕ := 2 ^ 64 - 1

/-- `ready_process`. -/
def readyProcess (pid : ℕ) : Op H ℕ := do
  let node ← findNode pid
  if node = 0 then return failed
  else
    editProc (← nodeAt node).proc fun p => { p with state := .ready }
    modify fun s => { s with blockCount := decr64 s.blockCount }
    return (← procAt (← nodeAt node).proc).pid

/-- `change_priority`. -/
def changePriority (pid priority : ℕ) : Op H ℕ := do
  let node ← findNode pid
  if node = 0 then return failed
  else
    editProc (← nodeAt node).proc fun p => { p with priority := priority }
    return (← procAt (← nodeAt node).proc).pid

end TronKernel.Sched
