import TronKernel.Sched.Calls

/-!
# `sys_write` and `sys_read`: where a descriptor leads

Both calls choose between the terminal and a pipe from the descriptor they are given and from the
redirection of the current process. `writeTarget` and `readTarget` are their choices, `sysWrite_eq`
and `sysRead_eq` say that the calls do nothing else than follow them, and `descriptors_routed` says
for which descriptors the choice is the one that the numbering of descriptors promises.
-/

namespace TronKernel.Sched

open Sem

variable {H : Type}

/-- `get_current_read`. -/
def getCurrentRead : Op H ℕ := do return (← procAt (← currentProc)).readFd

/-- `get_current_write`. -/
def getCurrentWrite : Op H ℕ := do return (← procAt (← currentProc)).writeFd

variable (force : Op H Unit)

/-- `sys_read`: the bytes it leaves in `buf` and its result. `keyboard` is its loop over the
keyboard's buffer. -/
def sysRead (keyboard : Op H (List UInt8 × ℕ)) (fd count : ℕ) : Op H (List UInt8 × ℕ) := do
  let fd := fd % 256
  let newFd ← if fd = 0 ∨ fd = 1 ∨ fd = 2 then getCurrentRead else pure fd
  if newFd = 1 ∨ newFd = 2 then return ([], 0)
  else if newFd ≠ 0 then
    let (bytes, ret) ← pipeRead force (toInt (toUInt64 (newFd - 3))) (toInt count)
    return (bytes, toUInt64 ret)
  else keyboard

/-- What a call reads from or writes to. -/
inductive Target where
  | nothing
  | screen
  | keyboard
  | pipe (index : ℤ)
deriving DecidableEq, Repr

/-- The choice of `sys_write` for a process with `writeFd`. -/
def writeTarget (fd n writeFd : ℕ) : Target :=
  let fd := if fd % 256 = 2 then 1 else fd % 256
  if fd = 0 then .nothing
  else if fd ≠ 1 ∧ n = 0 then .nothing
  else if writeFd = 1 then .screen
  else .pipe (toInt (toUInt64 (writeFd - 3)))

/-- The choice of `sys_read` for a process with `readFd`. -/
def readTarget (fd readFd : ℕ) : Target :=
  let fd := fd % 256
  let newFd := if fd = 0 ∨ fd = 1 ∨ fd = 2 then readFd else fd
  if newFd = 1 ∨ newFd = 2 then .nothing
  else if newFd ≠ 0 then .pipe (toInt (toUInt64 (newFd - 3)))
  else .keyboard

/-- Write to a target. -/
def Target.write (string : ℕ → UInt8) (n : ℕ) : Target → Op H ℕ
  | .pipe index => do return toUInt64 (← pipeWrite force index string (toInt n))
  | _ => return 0

/-- Read from a target. -/
def Target.read (keyboard : Op H (List UInt8 × ℕ)) (count : ℕ) : Target → Op H (List UInt8 × ℕ)
  | .pipe index => do
    let (bytes, ret) ← pipeRead force index (toInt count)
    return (bytes, toUInt64 ret)
  | .keyboard => keyboard
  | _ => return ([], 0)

/-- `sys_write` follows its choice. -/
theorem sysWrite_eq (fd n : ℕ) (string : ℕ → UInt8) :
    sysWrite force fd string n =
      (do (writeTarget fd n (← getCurrentWrite)).write force string n : Op H ℕ) := by
  simp only [sysWrite, writeTarget, getCurrentWrite, bind_assoc, pure_bind]
  refine bind_congr fun node => bind_congr fun p => ?_
  split_ifs <;> rfl

/-- `sys_read` follows its choice; it looks at the redirection for the standard descriptors only. -/
theorem sysRead_eq (keyboard : Op H (List UInt8 × ℕ)) (fd count : ℕ) :
    sysRead force keyboard fd count =
      (do
        let readFd ← if fd % 256 ≤ 2 then getCurrentRead else pure 0
        (readTarget fd readFd).read force keyboard count : Op H (List UInt8 × ℕ)) := by
  have hstd : (fd % 256 = 0 ∨ fd % 256 = 1 ∨ fd % 256 = 2) ↔ fd % 256 ≤ 2 := by omega
  simp only [sysRead, readTarget, hstd]
  by_cases hfd : fd % 256 ≤ 2
  · simp only [hfd, if_true]
    refine bind_congr fun readFd => ?_
    split_ifs <;> rfl
  · simp only [hfd, if_false, pure_bind]
    split_ifs <;> rfl

/-! ## Where the descriptors should lead -/

/-- The target of a descriptor that is written to: the screen, or the pipe whose index is three
less. -/
def writable (d : ℕ) : Target :=
  if d = 1 then .screen else if 3 ≤ d ∧ d < 3 + MAX_PIPES then .pipe (d - 3) else .nothing

/-- The target of a descriptor that is read from. -/
def readable (d : ℕ) : Target :=
  if d = 0 then .keyboard else if 3 ≤ d ∧ d < 3 + MAX_PIPES then .pipe (d - 3) else .nothing

/-- `sys_write` on 1 and 2 leads where the process's descriptor leads, on a pipe's descriptor to
that pipe, unless there is nothing to write, and on any other one nowhere. -/
def WriteRouted (fd n writeFd : ℕ) : Prop :=
  writeTarget fd n writeFd =
    if fd = 0 ∨ 3 ≤ fd ∧ n = 0 then .nothing
    else if fd ≤ 2 then writable writeFd
    else writable fd

instance (fd n writeFd : ℕ) : Decidable (WriteRouted fd n writeFd) :=
  inferInstanceAs (Decidable (writeTarget fd n writeFd = _))

/-- `sys_read` on 0, 1 and 2 leads where the process's descriptor leads, on a pipe's descriptor to
that pipe, and on any other one nowhere. -/
def ReadRouted (fd readFd : ℕ) : Prop :=
  readTarget fd readFd = if fd ≤ 2 then readable readFd else readable fd

/-- The index that a descriptor is taken for. -/
theorem toInt_index (d : ℕ) :
    toInt (toUInt64 ((d : ℤ) - 3)) = ((d : ℤ) - 3 + 2 ^ 31) % 2 ^ 32 - 2 ^ 31 := by
  simp only [toInt, toUInt64]
  omega

theorem toInt_index_of_lt {d : ℕ} (h : 3 ≤ d) (hd : d < 3 + MAX_PIPES) :
    toInt (toUInt64 ((d : ℤ) - 3)) = d - 3 := by
  rw [toInt_index]
  simp only [MAX_PIPES] at hd
  omega

theorem toInt_index_eq_iff {d fd : ℕ} (hfd : fd < 256) :
    toInt (toUInt64 ((d : ℤ) - 3)) = fd - 3 ↔ d % 2 ^ 32 = fd := by
  rw [toInt_index]
  omega

/-- `sys_read` is right for the descriptors of the terminal and of the pipes. -/
theorem readRouted_iff (fd readFd : ℕ) (hfd : fd < 256) :
    ReadRouted fd readFd ↔ (if fd ≤ 2 then readFd else fd) < 3 + MAX_PIPES := by
  have hread : ∀ d : ℕ, (if d = 1 ∨ d = 2 then Target.nothing
      else if d ≠ 0 then .pipe (toInt (toUInt64 ((d : ℤ) - 3))) else .keyboard) = readable d ↔
        d < 3 + MAX_PIPES := by
    intro d
    by_cases hstd : d ≤ 2
    · rcases (by omega : d = 0 ∨ d = 1 ∨ d = 2) with rfl | rfl | rfl <;> simp [readable, MAX_PIPES]
    · rw [if_neg (by omega), if_pos (by omega), readable, if_neg (by omega)]
      by_cases hd : d < 3 + MAX_PIPES
      · rw [if_pos ⟨by omega, hd⟩, toInt_index_of_lt (by omega) hd]
        simp [hd]
      · rw [if_neg (by omega)]
        simp [hd]
  simp only [ReadRouted, readTarget, Nat.mod_eq_of_lt hfd]
  by_cases hstd : fd ≤ 2
  · simp only [if_pos hstd, if_pos (show fd = 0 ∨ fd = 1 ∨ fd = 2 by omega)]
    exact hread readFd
  · simp only [if_neg hstd, if_neg (show ¬ (fd = 0 ∨ fd = 1 ∨ fd = 2) by omega)]
    exact hread fd

/-- `sys_write` is right on 1 and 2 for the descriptors of the terminal and of the pipes, and on a
pipe's descriptor only if the process's output is redirected to the same pipe. -/
theorem writeRouted_iff (fd n writeFd : ℕ) (hfd : fd < 256) :
    WriteRouted fd n writeFd ↔
      fd = 0 ∨ (1 ≤ fd ∧ fd ≤ 2 ∧ (writeFd = 1 ∨ 3 ≤ writeFd ∧ writeFd < 3 + MAX_PIPES)) ∨
        (3 ≤ fd ∧ (n = 0 ∨ fd < 3 + MAX_PIPES ∧ writeFd % 2 ^ 32 = fd)) := by
  have hpipes : MAX_PIPES = 10 := rfl
  simp only [WriteRouted, writeTarget, Nat.mod_eq_of_lt hfd]
  by_cases hzero : fd = 0
  · simp [hzero]
  by_cases hstd : fd ≤ 2
  · have hone : (if fd = 2 then 1 else fd) = 1 := by split_ifs <;> omega
    simp only [hone, ne_eq, not_true_eq_false, false_and, if_false, one_ne_zero,
      if_neg (show ¬ (fd = 0 ∨ 3 ≤ fd ∧ n = 0) by omega), if_pos hstd, writable]
    by_cases hscreen : writeFd = 1
    · simp [hscreen]
      omega
    · rw [if_neg hscreen, if_neg hscreen]
      by_cases hpipe : 3 ≤ writeFd ∧ writeFd < 3 + MAX_PIPES
      · rw [if_pos hpipe, toInt_index_of_lt hpipe.1 hpipe.2]
        simp only [true_iff]
        omega
      · rw [if_neg hpipe]
        simp only [reduceCtorEq, false_iff]
        omega
  · have htwo : (if fd = 2 then 1 else fd) = fd := if_neg (by omega)
    simp only [htwo, hzero, if_false, ne_eq, show ¬ fd = 1 by omega, not_false_eq_true, true_and,
      false_or, show 3 ≤ fd by omega, hstd, and_false, false_and]
    by_cases hn : n = 0
    · simp [hn]
    · simp only [hn, if_false, writable, show ¬ fd = 1 by omega, false_or]
      by_cases hscreen : writeFd = 1
      · rw [if_pos hscreen]
        have hne : ¬ (fd < 3 + MAX_PIPES ∧ writeFd % 2 ^ 32 = fd) := by omega
        rw [iff_false_right hne]
        split_ifs <;> simp
      · rw [if_neg hscreen]
        by_cases hpipe : fd < 3 + MAX_PIPES
        · rw [if_pos ⟨by omega, hpipe⟩, Target.pipe.injEq, toInt_index_eq_iff hfd]
          simp [hpipe]
        · rw [if_neg (by omega)]
          simp [hpipe]

/-- For every descriptor, and every redirection of the current process, the two calls lead where
they should if and only if: `sys_write` is given the descriptor of a pipe and something to write
only when the process's output is that pipe; and the descriptor that is followed is one of the
terminal or of a pipe. -/
theorem descriptors_routed (keyboard : Op H (List UInt8 × ℕ)) (fd : Fin 256) (n count : ℕ)
    (string : ℕ → UInt8) (readFd writeFd : ℕ) :
    sysWrite force fd string n =
        (do (writeTarget fd n (← getCurrentWrite)).write force string n : Op H ℕ) ∧
      sysRead force keyboard fd count =
        (do
          let readFd ← if fd.val % 256 ≤ 2 then getCurrentRead else pure 0
          (readTarget fd readFd).read force keyboard count : Op H (List UInt8 × ℕ)) ∧
      (WriteRouted fd n writeFd ↔ fd.val = 0 ∨
        (1 ≤ fd.val ∧ fd.val ≤ 2 ∧ (writeFd = 1 ∨ 3 ≤ writeFd ∧ writeFd < 3 + MAX_PIPES)) ∨
        (3 ≤ fd.val ∧ (n = 0 ∨ fd.val < 3 + MAX_PIPES ∧ writeFd % 2 ^ 32 = fd))) ∧
      (ReadRouted fd readFd ↔ (if fd.val ≤ 2 then readFd else fd) < 3 + MAX_PIPES) :=
  ⟨sysWrite_eq force fd n string, sysRead_eq force keyboard fd count,
    writeRouted_iff fd n writeFd fd.isLt, readRouted_iff fd readFd fd.isLt⟩

/-- A process whose output is the screen writes to descriptor 4: the pipe is not touched. -/
theorem write_ignores_descriptor : ¬ ∀ fd < 256, ∀ n writeFd, WriteRouted fd n writeFd := by
  intro hclaim
  exact absurd (hclaim 4 (by decide) 1 1) (by decide)

end TronKernel.Sched
