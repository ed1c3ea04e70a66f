import TronKernel.Lib.Runs
import Mathlib.Logic.Function.Basic
import Mathlib.Tactic.Common

/-!
# The dining philosophers

The philosophers of `phylo.c` are processes that share a table with the main loop, which adds and
removes philosophers while they eat. A step is one statement: a wait or a post of a semaphore, a
write of a `state` entry or of `count`, or the condition of `test`. Semaphores are atomic counters:
a wait takes one and cannot step while there is none. `yield` and printing touch nothing shared.
-/

namespace TronKernel.Phylo

/-- `MAX` -/
def MAX : ℕ := 10

/-- `MIN` -/
def MIN : ℕ := 2

/-- `State` -/
inductive State where
  | THINKING
  | HUNGRY
  | EATING
  | LEAVING
deriving DecidableEq, Repr

/-- `SharedData` and the values of the semaphores `MUTEX`, `hungry_lock[id]` and
`think_unlock[id]`. -/
structure Shared where
  count : ℕ
  state : ℕ → State
  mutex : ℕ
  hungryLock : ℕ → ℕ
  thinkUnlock : ℕ → ℕ

/-- `LEFT` -/
def left (s : Shared) (id : ℕ) : ℕ := (id + s.count - 1) % s.count

/-- `RIGHT` -/
def right (s : Shared) (id : ℕ) : ℕ := (id + 1) % s.count

namespace Shared

/-- `sem_wait(MUTEX)` -/
def waitMutex (s : Shared) : Option Shared :=
  if 0 < s.mutex then some { s with mutex := s.mutex - 1 } else none

/-- `sem_post(MUTEX)` -/
def postMutex (s : Shared) : Shared := { s with mutex := s.mutex + 1 }

/-- `sem_wait(hungry_lock[id])` -/
def waitHungry (s : Shared) (id : ℕ) : Option Shared :=
  if 0 < s.hungryLock id then
    some { s with hungryLock := Function.update s.hungryLock id (s.hungryLock id - 1) }
  else none

/-- `sem_post(hungry_lock[id])` -/
def postHungry (s : Shared) (id : ℕ) : Shared :=
  { s with hungryLock := Function.update s.hungryLock id (s.hungryLock id + 1) }

/-- `sem_wait(think_unlock[id])` -/
def waitThink (s : Shared) (id : ℕ) : Option Shared :=
  if 0 < s.thinkUnlock id then
    some { s with thinkUnlock := Function.update s.thinkUnlock id (s.thinkUnlock id - 1) }
  else none

/-- `sem_post(think_unlock[id])` -/
def postThink (s : Shared) (id : ℕ) : Shared :=
  { s with thinkUnlock := Function.update s.thinkUnlock id (s.thinkUnlock id + 1) }

/-- `state[id] = value` -/
def setState (s : Shared) (id : ℕ) (value : State) : Shared :=
  { s with state := Function.update s.state id value }

end Shared

/-! ## `test` -/

/-- The next statement of `test`. -/
inductive Test where
  /-- the condition of the `if` -/
  | cond
  /-- `state[id] = EATING` -/
  | eat
  /-- `sem_post(hungry_lock[id])` -/
  | post
deriving DecidableEq, Repr

/-- The condition of `test(id)`. -/
def MayEat (s : Shared) (id : ℕ) : Prop :=
  s.state id = .HUNGRY ∧ s.state (left s id) ≠ .EATING ∧ s.state (right s id) ≠ .EATING

instance (s : Shared) (id : ℕ) : Decidable (MayEat s id) :=
  inferInstanceAs (Decidable (_ ∧ _ ∧ _))

/-- One statement of `test(id)`, and the statement after it if there is one. -/
def test (s : Shared) (id : ℕ) : Test → Shared × Option Test
  | .cond => if MayEat s id then (s, some .eat) else (s, none)
  | .eat => (s.setState id .EATING, some .post)
  | .post => (s.postHungry id, none)

/-! ## A philosopher -/

/-- The next statement of a `phylo_proc`, with those of `take_fork` and `put_fork`. -/
inductive At where
  /-- `take_fork`: `sem_wait(MUTEX)` -/
  | takeWait
  /-- `take_fork`: `state[id] = HUNGRY` -/
  | takeSet
  /-- `take_fork`: in `test(id)` -/
  | takeTest (t : Test)
  /-- `take_fork`: `sem_post(MUTEX)` -/
  | takePost
  /-- `take_fork`: `sem_wait(hungry_lock[id])` -/
  | takeLock
  /-- `put_fork`: `sem_wait(MUTEX)` -/
  | putWait
  /-- `put_fork`: `state[id] = THINKING` -/
  | putSet
  /-- `put_fork`: the call of `test(LEFT)` -/
  | putLeft
  /-- `put_fork`: in `test(LEFT)`, called with `target` -/
  | putTestLeft (target : ℕ) (t : Test)
  /-- `put_fork`: the call of `test(RIGHT)` -/
  | putRight
  /-- `put_fork`: in `test(RIGHT)`, called with `target` -/
  | putTestRight (target : ℕ) (t : Test)
  /-- `put_fork`: `sem_post(MUTEX)` -/
  | putPost
  /-- `sem_post(think_unlock[id])` -/
  | thinkPost
  /-- `sem_wait(think_unlock[id])` -/
  | thinkWait
  /-- `sem_wait(MUTEX)` -/
  | checkWait
  /-- `if (state[id] == LEAVING)` -/
  | check
  /-- `sem_post(MUTEX)` before `return 0` -/
  | leave
  /-- `sem_post(MUTEX)` before the next round -/
  | stay
  /-- returned, or not started yet -/
  | gone
deriving DecidableEq, Repr

/-- A `phylo_proc` process. -/
structure Phil where
  id : ℕ
  pc : At
deriving DecidableEq, Repr

/-- One statement of a philosopher: the shared data and the statement after it, `none` while it
waits. -/
def advance (s : Shared) (f : Phil) : Option (Shared × At) :=
  match f.pc with
  | .takeWait => s.waitMutex.map (·, .takeSet)
  | .takeSet => some (s.setState f.id .HUNGRY, .takeTest .cond)
  | .takeTest t => some ((test s f.id t).1, (test s f.id t).2.elim .takePost .takeTest)
  | .takePost => some (s.postMutex, .takeLock)
  | .takeLock => (s.waitHungry f.id).map (·, .putWait)
  | .putWait => s.waitMutex.map (·, .putSet)
  | .putSet => some (s.setState f.id .THINKING, .putLeft)
  | .putLeft => some (s, .putTestLeft (left s f.id) .cond)
  | .putTestLeft target t =>
    some ((test s target t).1, (test s target t).2.elim .putRight (.putTestLeft target))
  | .putRight => some (s, .putTestRight (right s f.id) .cond)
  | .putTestRight target t =>
    some ((test s target t).1, (test s target t).2.elim .putPost (.putTestRight target))
  | .putPost => some (s.postMutex, .thinkPost)
  | .thinkPost => some (s.postThink f.id, .thinkWait)
  | .thinkWait => (s.waitThink f.id).map (·, .checkWait)
  | .checkWait => s.waitMutex.map (·, .check)
  | .check => some (s, if s.state f.id = .LEAVING then .leave else .stay)
  | .leave => some (s.postMutex, .gone)
  | .stay => some (s.postMutex, .takeWait)
  | .gone => none

/-! ## The main loop -/

/-- The next statement of the main loop, with those of `addPhylo` and `removePhylo`. -/
inductive Main where
  /-- `getTimedChar()` -/
  | key
  /-- `addPhylo`: `sem_wait(MUTEX)` -/
  | addWait (id : ℕ)
  /-- `addPhylo`: `state[id] = THINKING` -/
  | addSet (id : ℕ)
  /-- `addPhylo`: `count++` -/
  | addCount (id : ℕ)
  /-- `addPhylo`: `exec("phylo_proc", …)` -/
  | addExec (id : ℕ)
  /-- `addPhylo`: `sem_post(MUTEX)` -/
  | addPost
  /-- `removePhylo`: `sem_wait(think_unlock[id])` -/
  | removeThink (id : ℕ)
  /-- `removePhylo`: `sem_wait(MUTEX)` -/
  | removeWait (id : ℕ)
  /-- `removePhylo`: `state[id] = LEAVING` -/
  | removeSet (id : ℕ)
  /-- `removePhylo`: `count--` -/
  | removeCount (id : ℕ)
  /-- `removePhylo`: `sem_post(MUTEX)` -/
  | removePost (id : ℕ)
  /-- `removePhylo`: `sem_post(think_unlock[id])` -/
  | removeUnlock (id : ℕ)
  /-- `sem_wait(MUTEX)` before the states are printed -/
  | printWait
  /-- `sem_post(MUTEX)` after the states are printed -/
  | printPost
deriving DecidableEq, Repr

/-- The key that `getTimedChar` returns. -/
inductive Key where
  | a
  | r
  | other
deriving DecidableEq, Repr

/-- The branch that the main loop takes on a key. `addPhylo` and `removePhylo` begin with reading
`count`. -/
def pressed (s : Shared) : Key → Main
  | .a => if s.count < MAX then .addWait s.count else .printWait
  | .r => if s.count > MIN then .removeThink (s.count - 1) else .printWait
  | .other => .printWait

/-- One statement of the main loop: the shared data and the statement after it, `none` while it
waits. -/
def advanceMain (s : Shared) : Main → Option (Shared × Main)
  | .key => none
  | .addWait id => s.waitMutex.map (·, .addSet id)
  | .addSet id => some (s.setState id .THINKING, .addCount id)
  | .addCount id => some ({ s with count := s.count + 1 }, .addExec id)
  | .addExec _ => some (s, .addPost)
  | .addPost => some (s.postMutex, .printWait)
  | .removeThink id => (s.waitThink id).map (·, .removeWait id)
  | .removeWait id => s.waitMutex.map (·, .removeSet id)
  | .removeSet id => some (s.setState id .LEAVING, .removeCount id)
  | .removeCount id => some ({ s with count := s.count - 1 }, .removePost id)
  | .removePost id => some (s.postMutex, .removeUnlock id)
  | .removeUnlock id => some (s.postThink id, .printWait)
  | .printWait => s.waitMutex.map (·, .printPost)
  | .printPost => some (s.postMutex, .key)

/-! ## The system -/

/-- The shared data, the main loop, and the processes started so far. -/
structure System where
  shared : Shared
  main : Main
  procs : ℕ → Phil
  started : ℕ

/-- `exec` of a `phylo_proc`. -/
def System.exec (s : System) (f : Phil) : System :=
  { s with procs := Function.update s.procs s.started f, started := s.started + 1 }

/-- What happens next: a process or the main loop makes its next statement, or the main loop reads
a key. -/
inductive Event where
  | proc (p : ℕ)
  | main
  | key (k : Key)
deriving DecidableEq, Repr

/-- One event. -/
def step (s : System) : Event → Option System
  | .proc p =>
    (advance s.shared (s.procs p)).map fun r =>
      { s with shared := r.1, procs := Function.update s.procs p { s.procs p with pc := r.2 } }
  | .main =>
    (advanceMain s.shared s.main).map fun r =>
      let s' := { s with shared := r.1, main := r.2 }
      match s.main with
      | .addExec id => s'.exec ⟨id, .takeWait⟩
      | _ => s'
  | .key k => if s.main = .key then some { s with main := pressed s.shared k } else none

/-- A table with `n` philosophers that think, after the main loop has posted `MUTEX` for the first
time. Nothing in the code sets `state` before: that it is THINKING everywhere is assumed. -/
def table (n : ℕ) : System where
  shared := ⟨n, fun _ => .THINKING, 1, fun _ => 0, fun _ => 0⟩
  main := .key
  procs p := if p < n then ⟨p, .takeWait⟩ else ⟨p, .gone⟩
  started := n

end TronKernel.Phylo
