import TronKernel.Sem.Table

/-!
# `Kernel/pipe.c`: writing to and reading from a pipe

The structure `pipe_t` and the two calls that move data, for calls that run to their end one after
the other: the calls of the scheduler and of the pipe's semaphore in between touch no field of the
structure. `data` holds signed chars, so the end mark -1 is the byte `0xff`; `nread` and `nwrite`
are 32-bit counters that are reduced modulo `PIPE_SIZE` when they index `data`.
-/

namespace TronKernel.Pipe

abbrev PIPE_SIZE : ℕ := 4096

abbrev PROCS : ℕ := 10

/-- The end mark, `-1` as a `char`. -/
abbrev endMark : UInt8 := 0xff

/-- `pipe_t`. -/
structure PipeT where
  name : List UInt8
  created : ℤ
  data : ℕ → UInt8
  rProcesses : ℕ → ℤ
  wProcesses : ℕ → ℤ
  nread : ℕ
  nwrite : ℕ
  usingPipe : ℤ
  waitingPid : ℤ
  fd : ℤ

/-- `counter + 1` on `unsigned int`. -/
def incr (counter : ℕ) : ℕ := (counter + 1) % 2 ^ 32

/-- `data[counter % PIPE_SIZE]`. -/
def PipeT.at (p : PipeT) (counter : ℕ) : UInt8 := p.data (counter % PIPE_SIZE)

/-- `data[counter % PIPE_SIZE] = b`. -/
def PipeT.setAt (p : PipeT) (counter : ℕ) (b : UInt8) : PipeT :=
  { p with data := Function.update p.data (counter % PIPE_SIZE) b }

/-- The first index from `i` on with `test`, among the given number of indices. -/
def firstIndex (test : ℕ → Bool) : ℕ → ℕ → Option ℕ
  | 0, _ => none
  | slots + 1, i => if test i then some i else firstIndex test slots (i + 1)

/-- `block_process_pipe`: the new list, and the process that is blocked if there is one. The loop
stops at the first slot that is empty or that another process has. -/
def blockProcessPipe (p : ℕ → ℤ) (pid : ℤ) : (ℕ → ℤ) × Option ℤ :=
  match firstIndex (fun i => p i = 0 ∨ p i ≠ pid) PROCS 0 with
  | none => (p, none)
  | some i => if p i ≠ 0 then (p, some pid) else (Function.update p i pid, none)

/-- `release_process_pipe`: the new list, and the process that is made ready if there is one. -/
def releaseProcessPipe (p : ℕ → ℤ) (pid : ℤ) : (ℕ → ℤ) × Option ℤ :=
  match firstIndex (fun i => p i = pid) PROCS 0 with
  | none => (p, none)
  | some i => (Function.update p i 0, some (p i))

/-- `strlen`, which reads on to the first NUL. -/
def strlen (addr : ℕ → UInt8) : Option ℕ := firstIndex (fun i => addr i = 0) (2 ^ 64) 0

/-- The loop of `pipe_write` for the rounds left: the pipe and the final `i`. -/
def writeLoop (addr : ℕ → UInt8) : ℕ → PipeT → ℕ → PipeT × ℕ
  | 0, p, i => (p, i)
  | rounds + 1, p, i =>
    if addr i ≠ 0 ∧ p.nread ≠ incr p.nwrite then
      writeLoop addr rounds { p.setAt p.nwrite (addr i) with nwrite := incr p.nwrite } (i + 1)
    else (p, i)

/-- What `pipe_write` does between `sem_wait` and `sem_post`. -/
def writeData (p : PipeT) (addr : ℕ → UInt8) (n : ℤ) : PipeT × ℕ :=
  let (p, i) := writeLoop addr n.toNat p 0
  (p.setAt p.nwrite endMark, i)

/-- `pipe_write` by process `pid`: the pipe and the result. -/
def pipeWrite (p : PipeT) (pid : ℤ) (addr : ℕ → UInt8) (n : ℤ) : Option (PipeT × ℤ) := do
  let n ← if n = 0 then (strlen addr).map fun len => Sem.toInt len else some n
  if p.created = 0 then some (p, -1)
  else
    let p := { p with wProcesses := (blockProcessPipe p.wProcesses pid).1 }
    let p := { p with wProcesses := (releaseProcessPipe p.wProcesses pid).1 }
    let (p, i) := writeData p addr n
    some (p, i)

/-- The loop of `pipe_read` for the rounds left: the pipe and the bytes stored from `addr[i]` on. -/
def readLoop : ℕ → PipeT → PipeT × List UInt8
  | 0, p => (p, [])
  | rounds + 1, p =>
    if p.at p.nread ≠ endMark ∧ incr p.nread ≠ p.nwrite then
      let (p', bs) := readLoop rounds { p with nread := incr p.nread }
      (p', p.at p.nread :: bs)
    else (p, [])

/-- `if (data[nread % PIPE_SIZE] == -1) data[nread % PIPE_SIZE] = 0;` -/
def clearMark (p : PipeT) : PipeT := if p.at p.nread = endMark then p.setAt p.nread 0 else p

/-- What `pipe_read` does between `sem_wait` and `sem_post`: the pipe, the bytes stored in front of
the terminating NUL, and the final `i`. -/
def readData (p : PipeT) (n : ℤ) : PipeT × List UInt8 × ℕ :=
  let (p, bs) := readLoop n.toNat p
  if incr p.nread = p.nwrite then
    (clearMark { p with nread := incr p.nread }, bs ++ [p.at p.nread], bs.length)
  else (clearMark p, bs, bs.length)

/-- `pipe_read` by process `pid`: the pipe, the bytes that `addr` holds after the call, with the NUL
behind them, and the result. The list of the writers is the one that is released. -/
def pipeRead (p : PipeT) (pid : ℤ) (n : ℤ) : PipeT × List UInt8 × ℤ :=
  if p.created = 0 then (p, [], -1)
  else
    let p := { p with rProcesses := (blockProcessPipe p.rProcesses pid).1 }
    let p := { p with wProcesses := (releaseProcessPipe p.wProcesses pid).1 }
    let (p, bs, i) := readData p n
    (p, bs ++ [0], i)

/-- The pipe that `pipe_open` sets up in slot `index` for a new name. -/
def opened (p : PipeT) (index : ℕ) (name : List UInt8) : PipeT :=
  { p with
    fd := index + 3
    created := 1
    usingPipe := 0
    waitingPid := -1
    nread := 0
    nwrite := 0
    data := fun i => if i < PIPE_SIZE then 0 else p.data i
    name := name }

/-! ## The lists and the name -/

variable {list : ℕ → ℤ} {pid r : ℤ}

theorem firstIndex_some {test : ℕ → Bool} {slots start i : ℕ}
    (h : firstIndex test slots start = some i) : i < start + slots ∧ test i = true := by
  induction slots generalizing start with
  | zero => exact absurd h (by simp [firstIndex])
  | succ slots ih =>
    rw [firstIndex] at h
    split at h
    · next htest =>
      obtain rfl := Option.some.inj h
      exact ⟨by omega, htest⟩
    · have := ih h
      exact ⟨by omega, this.2⟩

/-- `block_process_pipe` blocks nobody else. -/
theorem blockProcessPipe_blocked (h : (blockProcessPipe list pid).2 = some r) : r = pid := by
  rw [blockProcessPipe] at h
  split at h
  · cases h
  · split at h
    · exact (Option.some.inj h).symm
    · cases h

/-- `release_process_pipe` makes nobody else ready, and only who stands in the list. -/
theorem releaseProcessPipe_released (h : (releaseProcessPipe list pid).2 = some r) :
    r = pid ∧ ∃ i < PROCS, list i = pid := by
  rw [releaseProcessPipe] at h
  split at h
  · cases h
  · next i hi =>
    obtain rfl := Option.some.inj h
    obtain ⟨hlt, htest⟩ := firstIndex_some hi
    have heq : list i = pid := by simpa using htest
    exact ⟨heq, i, by omega, heq⟩

theorem writeLoop_name (addr : ℕ → UInt8) (rounds i : ℕ) (p : PipeT) :
    (writeLoop addr rounds p i).1.name = p.name := by
  induction rounds generalizing p i with
  | zero => rfl
  | succ rounds ih =>
    rw [writeLoop]
    split
    · exact ih _ _
    · rfl

theorem writeData_name (p : PipeT) (addr : ℕ → UInt8) (n : ℤ) :
    (writeData p addr n).1.name = p.name :=
  writeLoop_name addr n.toNat 0 p

theorem readLoop_name (rounds : ℕ) (p : PipeT) : (readLoop rounds p).1.name = p.name := by
  induction rounds generalizing p with
  | zero => rfl
  | succ rounds ih =>
    rw [readLoop]
    split
    · exact ih _
    · rfl

theorem readData_name (p : PipeT) (n : ℤ) : (readData p n).1.name = p.name := by
  have hloop := readLoop_name n.toNat p
  have hclear : ∀ q : PipeT, (clearMark q).name = q.name := fun q => by
    rw [clearMark]
    split <;> rfl
  rw [readData]
  generalize readLoop n.toNat p = r at hloop
  obtain ⟨q, bs⟩ := r
  dsimp only at hloop ⊢
  split
  · exact (hclear _).trans hloop
  · exact (hclear _).trans hloop

end TronKernel.Pipe
