import TronKernel.Pipe.Buffer
import TronKernel.Lib.Runs
import Mathlib.Tactic.Common

/-!
# Who stands in the lists of a pipe

`pipe_read` and `pipe_write` by any number of processes, one access to a list at a time: a process
may be interrupted inside the loops of `block_process_pipe` and `release_process_pipe`. Both
functions use the loops on the lists of the pipe, but `pipe_read` registers in `rProcesses` and
releases `wProcesses`, and a process that is blocked is not registered at all. In runs that avoid
both the lists are exact (`lists_exact`).
-/

namespace TronKernel.Pipe

open Runs

/-- One of the two functions, with the arguments that the transfer uses. -/
inductive Transfer where
  | read (n : ℤ)
  | write (addr : ℕ → UInt8) (n : ℤ)

/-- `p` of `block_process_pipe(p, pid)`. -/
def PipeT.list (p : PipeT) : Transfer → ℕ → ℤ
  | .read _ => p.rProcesses
  | .write _ _ => p.wProcesses

/-- `p[i] = pid` in `block_process_pipe(p, pid)`. -/
def PipeT.register (p : PipeT) (c : Transfer) (i : ℕ) (pid : ℤ) : PipeT :=
  match c with
  | .read _ => { p with rProcesses := Function.update p.rProcesses i pid }
  | .write _ _ => { p with wProcesses := Function.update p.wProcesses i pid }

/-- `p[i] = 0` in `release_process_pipe(pipes[index].wProcesses, pid)`. -/
def PipeT.empty (p : PipeT) (i : ℕ) : PipeT :=
  { p with wProcesses := Function.update p.wProcesses i 0 }

/-- The transfer of the bytes between `sem_wait` and `sem_post`. -/
def PipeT.transfer (p : PipeT) : Transfer → PipeT
  | .read n => (readData p n).1
  | .write addr n => (writeData p addr n).1

/-- The next access of a process inside one of the functions. -/
inductive Stage where
  /-- `i < PROCS && p[i] != 0` in `block_process_pipe` -/
  | block (i : ℕ)
  /-- `p[i] != pid` in `block_process_pipe` -/
  | compare (i : ℕ)
  /-- `block_process(pid)`, where `p[i]` was `other` -/
  | stop (other : ℤ)
  /-- `p[i] = pid` -/
  | store (i : ℕ)
  /-- `sem_wait(pipes[index].name)` -/
  | wait
  /-- `i < PROCS` and `p[i] == pid` in `release_process_pipe` -/
  | release (i : ℕ)
  /-- `ready_process(p[i])` -/
  | ready (i : ℕ)
  /-- `p[i] = 0` -/
  | clear (i : ℕ)
  /-- the transfer, `sem_post` and `return` -/
  | transfer
deriving DecidableEq, Repr

/-- Where a process is: outside of both functions, or in a call on the pipe `index`. -/
inductive Pc where
  | idle
  | inside (index : ℕ) (c : Transfer) (stage : Stage)

/-- A process that `block_process_pipe` put in state BLOCKED: the pipe, the call it is in and the
process it found registered. -/
structure Wait where
  index : ℕ
  call : Transfer
  other : ℤ

/-- The pipes, where each process is, and who is BLOCKED by `block_process_pipe`. -/
structure System where
  pipes : ℕ → PipeT
  pc : ℤ → Pc
  blocked : ℤ → Option Wait

namespace System

/-- Process `pid` goes on at `pc`. -/
def goto (s : System) (pid : ℤ) (pc : Pc) : System := { s with pc := Function.update s.pc pid pc }

/-- The pipe `index` becomes `p`. -/
def setPipe (s : System) (index : ℕ) (p : PipeT) : System :=
  { s with pipes := Function.update s.pipes index p }

/-- `block_process(pid)`. -/
def block (s : System) (pid : ℤ) (w : Wait) : System :=
  { s with blocked := Function.update s.blocked pid (some w) }

/-- `ready_process(pid)`. -/
def ready (s : System) (pid : ℤ) : System :=
  { s with blocked := Function.update s.blocked pid none }

end System

/-- One access of process `pid` in a call on the pipe `index`. -/
def access (s : System) (pid : ℤ) (index : ℕ) (c : Transfer) : Stage → System
  | .block i =>
    if i < PROCS then
      if (s.pipes index).list c i ≠ 0 then s.goto pid (.inside index c (.compare i))
      else s.goto pid (.inside index c (.store i))
    else s.goto pid (.inside index c .wait)
  | .compare i =>
    if (s.pipes index).list c i ≠ pid then
      s.goto pid (.inside index c (.stop ((s.pipes index).list c i)))
    else s.goto pid (.inside index c (.block (i + 1)))
  | .stop other => (s.block pid ⟨index, c, other⟩).goto pid (.inside index c .wait)
  | .store i =>
    (s.setPipe index ((s.pipes index).register c i pid)).goto pid (.inside index c .wait)
  | .wait => s.goto pid (.inside index c (.release 0))
  | .release i =>
    if i < PROCS then
      if (s.pipes index).wProcesses i = pid then s.goto pid (.inside index c (.ready i))
      else s.goto pid (.inside index c (.release (i + 1)))
    else s.goto pid (.inside index c .transfer)
  | .ready i =>
    (s.ready ((s.pipes index).wProcesses i)).goto pid (.inside index c (.clear i))
  | .clear i =>
    (s.setPipe index ((s.pipes index).empty i)).goto pid (.inside index c .transfer)
  | .transfer => (s.setPipe index ((s.pipes index).transfer c)).goto pid .idle

/-- `if (n == 0) n = strlen(addr)` at the beginning of `pipe_write`. -/
def Transfer.enter : Transfer → Option Transfer
  | .read n => some (.read n)
  | .write addr n =>
    if n = 0 then (strlen addr).map fun len => .write addr (Sem.toInt len)
    else some (.write addr n)

/-- What happens next: a process calls one of the functions, or makes its next access. -/
inductive Event where
  | call (pid : ℤ) (index : ℕ) (c : Transfer)
  | access (pid : ℤ)

/-- One event. A call on a pipe that is not created returns at once, and a process that is BLOCKED
makes no access. -/
def System.step (s : System) : Event → Option System
  | .call pid index c =>
    match s.pc pid with
    | .idle => c.enter.map fun c =>
        if (s.pipes index).created = 0 then s else s.goto pid (.inside index c (.block 0))
    | .inside _ _ _ => none
  | .access pid =>
    match s.pc pid with
    | .idle => none
    | .inside index c stage =>
      if (s.blocked pid).isSome then none else some (access s pid index c stage)

/-! ## Exact lists -/

/-- A call of `pipe_read`. -/
def Transfer.isRead : Transfer → Bool
  | .read _ => true
  | .write _ _ => false

/-- The process has been through `release_process_pipe`. -/
def Stage.released : Stage → Bool
  | .clear _ | .transfer => true
  | _ => false

/-- The lists of all pipes are exact: who stands in a list is inside the function of the list, who
is BLOCKED stands in the list, and the process that it waits for has not released the pipe yet. -/
structure Exact (s : System) : Prop where
  readers : ∀ index, ∀ i < PROCS, (s.pipes index).rProcesses i ≠ 0 →
    ∃ n stage, s.pc ((s.pipes index).rProcesses i) = .inside index (.read n) stage
  writers : ∀ index, ∀ i < PROCS, (s.pipes index).wProcesses i ≠ 0 →
    ∃ addr n stage, s.pc ((s.pipes index).wProcesses i) = .inside index (.write addr n) stage
  recorded : ∀ pid w, s.blocked pid = some w → ∃ i < PROCS, (s.pipes w.index).list w.call i = pid
  unreleased : ∀ pid w, s.blocked pid = some w → ∃ c stage,
    s.pc w.other = .inside w.index c stage ∧ c.isRead = w.call.isRead ∧ stage.released = false

/-- The next access of the process finds no other process in a list, and it is not the return of a
`pipe_read` by a process other than the one with pid 0, which no list can show. -/
def HarmlessAt (s : System) (pid : ℤ) : Pc → Prop
  | .inside index c (.compare i) => (s.pipes index).list c i = pid
  | .inside _ c .transfer => c.isRead = true → pid = 0
  | _ => True

instance (s : System) (pid : ℤ) : (pc : Pc) → Decidable (HarmlessAt s pid pc)
  | .idle => isTrue trivial
  | .inside index c (.compare i) => inferInstanceAs (Decidable ((s.pipes index).list c i = pid))
  | .inside _ c .transfer => inferInstanceAs (Decidable (c.isRead = true → pid = 0))
  | .inside _ _ (.block _) => isTrue trivial
  | .inside _ _ (.stop _) => isTrue trivial
  | .inside _ _ (.store _) => isTrue trivial
  | .inside _ _ .wait => isTrue trivial
  | .inside _ _ (.release _) => isTrue trivial
  | .inside _ _ (.ready _) => isTrue trivial
  | .inside _ _ (.clear _) => isTrue trivial

/-- The event is harmless. A call only enters the function. -/
def Harmless (s : System) : Event → Prop
  | .call _ _ _ => True
  | .access pid => HarmlessAt s pid (s.pc pid)

instance (s : System) : (e : Event) → Decidable (Harmless s e)
  | .call _ _ _ => isTrue trivial
  | .access pid => inferInstanceAs (Decidable (HarmlessAt s pid (s.pc pid)))

/-- `block_process_pipe` is done with. -/
def Stage.registered : Stage → Bool
  | .wait | .release _ | .ready _ | .clear _ | .transfer => true
  | _ => false

/-- A process that is registered in slot `i` of `wProcesses` has not cleared the slot yet. -/
def Stage.mayHold (i : ℕ) : Stage → Prop
  | .wait => True
  | .release j => j ≤ i
  | .ready j => j = i
  | .clear j => j = i
  | _ => False

/-- Where the registered processes are. -/
structure Listed (s : System) : Prop where
  readers : ∀ index, ∀ i < PROCS, ∀ pid ≠ 0, (s.pipes index).rProcesses i = pid →
    ∃ n stage, s.pc pid = .inside index (.read n) stage ∧ stage.registered = true
  writers : ∀ index, ∀ i < PROCS, ∀ pid ≠ 0, (s.pipes index).wProcesses i = pid →
    ∃ addr n stage, s.pc pid = .inside index (.write addr n) stage ∧ stage.mayHold i
  once : ∀ index, ∀ i < PROCS, ∀ j < PROCS, (s.pipes index).wProcesses i ≠ 0 →
    (s.pipes index).wProcesses i = (s.pipes index).wProcesses j → i = j
  ready : ∀ pid, s.blocked pid = none
  moving : ∀ pid index c other, s.pc pid ≠ .inside index c (.stop other)

variable {s s' : System} {pid : ℤ}

theorem Listed.exact (h : Listed s) : Exact s where
  readers index i hi hne := by
    obtain ⟨n, stage, hpc, -⟩ := h.readers index i hi _ hne rfl
    exact ⟨n, stage, hpc⟩
  writers index i hi hne := by
    obtain ⟨addr, n, stage, hpc, -⟩ := h.writers index i hi _ hne rfl
    exact ⟨addr, n, stage, hpc⟩
  recorded pid w hw := by
    rw [h.ready pid] at hw
    cases hw
  unreleased pid w hw := by
    rw [h.ready pid] at hw
    cases hw

/-! ## One access -/

@[simp] theorem goto_pc_self (s : System) (pid : ℤ) (pc : Pc) : (s.goto pid pc).pc pid = pc :=
  Function.update_self ..

theorem goto_pc_of_ne {other : ℤ} (pc : Pc) (h : other ≠ pid) :
    (s.goto pid pc).pc other = s.pc other := Function.update_of_ne h ..

@[simp] theorem goto_pipes (s : System) (pid : ℤ) (pc : Pc) : (s.goto pid pc).pipes = s.pipes := rfl

@[simp] theorem goto_blocked (s : System) (pid : ℤ) (pc : Pc) :
    (s.goto pid pc).blocked = s.blocked := rfl

/-- A process moves on without touching a list. -/
theorem Listed.goto (h : Listed s) {pc : Pc}
    (hread : ∀ index, ∀ i < PROCS, pid ≠ 0 → (s.pipes index).rProcesses i = pid →
      ∃ n stage, pc = .inside index (.read n) stage ∧ stage.registered = true)
    (hwrite : ∀ index, ∀ i < PROCS, pid ≠ 0 → (s.pipes index).wProcesses i = pid →
      ∃ addr n stage, pc = .inside index (.write addr n) stage ∧ stage.mayHold i)
    (hmoving : ∀ index c other, pc ≠ .inside index c (.stop other)) : Listed (s.goto pid pc) where
  readers index i hi p hp hr := by
    by_cases hpid : p = pid
    · subst hpid
      rw [goto_pc_self]
      exact hread index i hi hp hr
    · rw [goto_pc_of_ne pc hpid]
      exact h.readers index i hi p hp hr
  writers index i hi p hp hw := by
    by_cases hpid : p = pid
    · subst hpid
      rw [goto_pc_self]
      exact hwrite index i hi hp hw
    · rw [goto_pc_of_ne pc hpid]
      exact h.writers index i hi p hp hw
  once := h.once
  ready := h.ready
  moving p index c other := by
    by_cases hpid : p = pid
    · subst hpid
      rw [goto_pc_self]
      exact hmoving index c other
    · rw [goto_pc_of_ne pc hpid]
      exact h.moving p index c other

/-- A process that is not yet registered stands in no list. -/
theorem Listed.absent (h : Listed s) {at_ : ℕ} {c : Transfer} {stage : Stage}
    (hpc : s.pc pid = .inside at_ c stage) (hreg : stage.registered = false) (hpid : pid ≠ 0)
    (index i : ℕ) (hi : i < PROCS) :
    (s.pipes index).rProcesses i ≠ pid ∧ (s.pipes index).wProcesses i ≠ pid := by
  constructor
  · intro hr
    obtain ⟨n, stage', hpc', hreg'⟩ := h.readers index i hi pid hpid hr
    rw [hpc] at hpc'
    cases hpc'
    rw [hreg] at hreg'
    cases hreg'
  · intro hw
    obtain ⟨addr, n, stage', hpc', hhold⟩ := h.writers index i hi pid hpid hw
    rw [hpc] at hpc'
    cases hpc'
    cases stage with
    | wait => cases hreg
    | release j => cases hreg
    | ready j => cases hreg
    | clear j => cases hreg
    | _ => exact hhold

/-- A process that is not registered moves on. -/
theorem Listed.goto_early (h : Listed s) {index : ℕ} {c : Transfer} {stage : Stage}
    (hpc : s.pc pid = .inside index c stage) (hreg : stage.registered = false) {pc : Pc}
    (hmoving : ∀ index c other, pc ≠ .inside index c (.stop other)) : Listed (s.goto pid pc) := by
  refine h.goto ?_ ?_ hmoving
  · intro k i hi hpid hr
    exact absurd hr (h.absent hpc hreg hpid k i hi).1
  · intro k i hi hpid hw
    exact absurd hw (h.absent hpc hreg hpid k i hi).2

/-- A registered process moves on and has not cleared its slot. -/
theorem Listed.goto_registered (h : Listed s) {index : ℕ} {c : Transfer} {stage stage' : Stage}
    (hpc : s.pc pid = .inside index c stage) (hreg : stage'.registered = true)
    (hhold : ∀ i < PROCS, pid ≠ 0 → (s.pipes index).wProcesses i = pid → stage.mayHold i →
      stage'.mayHold i) : Listed (s.goto pid (.inside index c stage')) := by
  refine h.goto ?_ ?_ ?_
  · intro k i hi hpid hr
    obtain ⟨n, stage₀, hpc₀, -⟩ := h.readers k i hi pid hpid hr
    rw [hpc] at hpc₀
    cases hpc₀
    exact ⟨n, stage', rfl, hreg⟩
  · intro k i hi hpid hw
    obtain ⟨addr, n, stage₀, hpc₀, hhold₀⟩ := h.writers k i hi pid hpid hw
    rw [hpc] at hpc₀
    cases hpc₀
    exact ⟨addr, n, stage', rfl, hhold i hi hpid hw hhold₀⟩
  · rintro k c' other heq
    cases heq
    cases hreg

theorem setPipe_pipes_self (s : System) (index : ℕ) (p : PipeT) :
    (s.setPipe index p).pipes index = p := Function.update_self ..

theorem setPipe_pipes_of_ne {index k : ℕ} (p : PipeT) (h : k ≠ index) :
    (s.setPipe index p).pipes k = s.pipes k := Function.update_of_ne h ..

/-- A list entry after a change of one pipe. -/
theorem setPipe_list {index k i : ℕ} {p : PipeT} {l : PipeT → ℕ → ℤ} {v : ℤ}
    (h : l ((s.setPipe index p).pipes k) i = v) :
    (k = index ∧ l p i = v) ∨ l (s.pipes k) i = v := by
  by_cases hk : k = index
  · subst hk
    rw [setPipe_pipes_self] at h
    exact Or.inl ⟨rfl, h⟩
  · rw [setPipe_pipes_of_ne p hk] at h
    exact Or.inr h

/-- A pipe is changed so that only slots of the lists are emptied. -/
theorem Listed.setPipe (h : Listed s) {index : ℕ} {p : PipeT}
    (hr : ∀ i, p.rProcesses i = (s.pipes index).rProcesses i ∨ p.rProcesses i = 0)
    (hw : ∀ i, p.wProcesses i = (s.pipes index).wProcesses i ∨ p.wProcesses i = 0) :
    Listed (s.setPipe index p) where
  readers k i hi v hv hlist := by
    rcases setPipe_list (l := PipeT.rProcesses) hlist with ⟨rfl, hp⟩ | hold
    · have hsame : (s.pipes k).rProcesses i = v := by
        rcases hr i with heq | hzero
        · rw [← heq, hp]
        · exact absurd (hp.symm.trans hzero) hv
      exact h.readers k i hi v hv hsame
    · exact h.readers k i hi v hv hold
  writers k i hi v hv hlist := by
    rcases setPipe_list (l := PipeT.wProcesses) hlist with ⟨rfl, hp⟩ | hold
    · have hsame : (s.pipes k).wProcesses i = v := by
        rcases hw i with heq | hzero
        · rw [← heq, hp]
        · exact absurd (hp.symm.trans hzero) hv
      exact h.writers k i hi v hv hsame
    · exact h.writers k i hi v hv hold
  once k i hi j hj hne heq := by
    by_cases hk : k = index
    · subst hk
      rw [setPipe_pipes_self] at hne heq
      have hi' := (hw i).resolve_right hne
      have hj' := (hw j).resolve_right (heq ▸ hne)
      exact h.once k i hi j hj (hi' ▸ hne) (by rw [← hi', heq, hj'])
    · rw [setPipe_pipes_of_ne p hk] at hne heq
      exact h.once k i hi j hj hne heq
  ready := h.ready
  moving := h.moving

theorem writeLoop_lists (addr : ℕ → UInt8) (rounds : ℕ) (p : PipeT) (i : ℕ) :
    (writeLoop addr rounds p i).1.rProcesses = p.rProcesses ∧
      (writeLoop addr rounds p i).1.wProcesses = p.wProcesses := by
  induction rounds generalizing p i with
  | zero => exact ⟨rfl, rfl⟩
  | succ rounds ih =>
    rw [writeLoop]
    split_ifs
    · exact ih ..
    · exact ⟨rfl, rfl⟩

theorem readLoop_lists (rounds : ℕ) (p : PipeT) :
    (readLoop rounds p).1.rProcesses = p.rProcesses ∧
      (readLoop rounds p).1.wProcesses = p.wProcesses := by
  induction rounds generalizing p with
  | zero => exact ⟨rfl, rfl⟩
  | succ rounds ih =>
    rw [readLoop]
    split_ifs
    · exact ih ..
    · exact ⟨rfl, rfl⟩

theorem clearMark_lists (p : PipeT) :
    (clearMark p).rProcesses = p.rProcesses ∧ (clearMark p).wProcesses = p.wProcesses := by
  unfold clearMark
  split_ifs
  · exact ⟨rfl, rfl⟩
  · exact ⟨rfl, rfl⟩

/-- The transfer touches no list. -/
theorem transfer_lists (p : PipeT) (c : Transfer) :
    (p.transfer c).rProcesses = p.rProcesses ∧ (p.transfer c).wProcesses = p.wProcesses := by
  cases c with
  | write addr n => exact writeLoop_lists addr n.toNat p 0
  | read n =>
    have hloop := readLoop_lists n.toNat p
    simp only [PipeT.transfer, readData]
    split_ifs
    · have hclear := clearMark_lists { (readLoop n.toNat p).1 with
        nread := incr (readLoop n.toNat p).1.nread }
      exact ⟨hclear.1.trans hloop.1, hclear.2.trans hloop.2⟩
    · have hclear := clearMark_lists (readLoop n.toNat p).1
      exact ⟨hclear.1.trans hloop.1, hclear.2.trans hloop.2⟩

/-- What stands in `rProcesses` once a process has registered: the process, if it reads, or what was
there. -/
theorem registered_reader {index i k j : ℕ} {c : Transfer} {v : ℤ}
    (h : ((s.setPipe index ((s.pipes index).register c i pid)).pipes k).rProcesses j = v) :
    (k = index ∧ j = i ∧ v = pid ∧ ∃ n, c = .read n) ∨ (s.pipes k).rProcesses j = v := by
  rcases setPipe_list (l := PipeT.rProcesses) h with ⟨rfl, hnew⟩ | hold
  · cases c with
    | write addr n => exact .inr hnew
    | read n =>
      by_cases hji : j = i
      · simp only [PipeT.register, hji, Function.update_self] at hnew
        exact .inl ⟨rfl, hji, hnew.symm, n, rfl⟩
      · simp only [PipeT.register, Function.update_of_ne hji] at hnew
        exact .inr hnew
  · exact .inr hold

/-- The same for `wProcesses`. -/
theorem registered_writer {index i k j : ℕ} {c : Transfer} {v : ℤ}
    (h : ((s.setPipe index ((s.pipes index).register c i pid)).pipes k).wProcesses j = v) :
    (k = index ∧ j = i ∧ v = pid ∧ ∃ addr n, c = .write addr n) ∨
      (s.pipes k).wProcesses j = v := by
  rcases setPipe_list (l := PipeT.wProcesses) h with ⟨rfl, hnew⟩ | hold
  · cases c with
    | read n => exact .inr hnew
    | write addr n =>
      by_cases hji : j = i
      · simp only [PipeT.register, hji, Function.update_self] at hnew
        exact .inl ⟨rfl, hji, hnew.symm, addr, n, rfl⟩
      · simp only [PipeT.register, Function.update_of_ne hji] at hnew
        exact .inr hnew
  · exact .inr hold

/-- A process registers. It stood in no slot before. -/
theorem Listed.store (h : Listed s) {index i : ℕ} {c : Transfer}
    (hpc : s.pc pid = .inside index c (.store i)) :
    Listed ((s.setPipe index ((s.pipes index).register c i pid)).goto pid
      (.inside index c .wait)) := by
  have others : ∀ {v : ℤ} {pc : Pc}, v ≠ pid →
      ((s.setPipe index ((s.pipes index).register c i pid)).goto pid pc).pc v = s.pc v := by
    intro v pc hv
    exact goto_pc_of_ne _ hv
  have absent : ∀ k j, j < PROCS → pid ≠ 0 →
      (s.pipes k).rProcesses j ≠ pid ∧ (s.pipes k).wProcesses j ≠ pid :=
    fun k j hj hpid => h.absent hpc rfl hpid k j hj
  refine ⟨?_, ?_, ?_, h.ready, ?_⟩
  · intro k j hj v hv hlist
    rcases registered_reader hlist with ⟨rfl, rfl, rfl, n, rfl⟩ | hold
    · exact ⟨n, .wait, goto_pc_self .., rfl⟩
    · have hvp : v ≠ pid := by
        rintro rfl
        exact (absent k j hj hv).1 hold
      rw [others hvp]
      exact h.readers k j hj v hv hold
  · intro k j hj v hv hlist
    rcases registered_writer hlist with ⟨rfl, rfl, rfl, addr, n, rfl⟩ | hold
    · exact ⟨addr, n, .wait, goto_pc_self .., trivial⟩
    · have hvp : v ≠ pid := by
        rintro rfl
        exact (absent k j hj hv).2 hold
      rw [others hvp]
      exact h.writers k j hj v hv hold
  · intro k j hj l hl hne heq
    rw [goto_pipes] at hne heq
    generalize hlast : ((s.setPipe index ((s.pipes index).register c i pid)).pipes k).wProcesses l
      = v at heq
    rw [heq] at hne
    rcases registered_writer heq with ⟨-, rfl, rfl, -⟩ | hj'
    · rcases registered_writer hlast with ⟨-, rfl, -, -⟩ | hl'
      · rfl
      · exact absurd hl' (absent k l hl hne).2
    · rcases registered_writer hlast with ⟨-, rfl, rfl, -⟩ | hl'
      · exact absurd hj' (absent k j hj hne).2
      · exact h.once k j hj l hl (hj' ▸ hne) (hj'.trans hl'.symm)
  · intro v k c' other
    by_cases hvp : v = pid
    · subst hvp
      rw [goto_pc_self]
      simp
    · rw [others hvp]
      exact h.moving v k c' other

/-- Every harmless access keeps the lists. -/
theorem Listed.access (h : Listed s) {index : ℕ} {c : Transfer} {stage : Stage}
    (hpc : s.pc pid = .inside index c stage)
    (hcompare : ∀ i, stage = .compare i → (s.pipes index).list c i = pid)
    (hreturn : stage = .transfer → c.isRead = true → pid = 0) :
    Listed (access s pid index c stage) := by
  cases stage with
  | block i =>
    simp only [Pipe.access]
    split_ifs
    · exact h.goto_early hpc rfl (by simp)
    · exact h.goto_early hpc rfl (by simp)
    · exact h.goto_early hpc rfl (by simp)
  | compare i =>
    simp only [Pipe.access, if_neg (not_not.mpr (hcompare i rfl))]
    exact h.goto_early hpc rfl (by simp)
  | stop other => exact absurd hpc (h.moving pid index c other)
  | store i => exact h.store hpc
  | wait => exact h.goto_registered hpc rfl fun i _ _ _ _ => Nat.zero_le i
  | release j =>
    simp only [Pipe.access]
    split_ifs with hj hfound
    · -- the slot that was found is the only one with the pid
      refine h.goto_registered hpc rfl fun i hi hpid hw _ => ?_
      exact h.once index j hj i hi (hfound ▸ hpid) (hfound.trans hw.symm)
    · refine h.goto_registered hpc rfl fun i _ _ hw hhold => ?_
      refine Nat.lt_of_le_of_ne hhold ?_
      rintro rfl
      exact hfound hw
    · refine h.goto_registered hpc rfl fun i hi _ _ hhold => ?_
      exact absurd (Nat.lt_of_le_of_lt hhold hi) hj
  | ready j =>
    have hready : Listed (s.ready ((s.pipes index).wProcesses j)) := by
      refine ⟨h.readers, h.writers, h.once, fun p => ?_, h.moving⟩
      simp only [System.ready, Function.update_apply]
      split_ifs
      · rfl
      · exact h.ready p
    exact Listed.goto_registered hready hpc rfl fun i _ _ _ hhold => hhold
  | clear j =>
    have hclear : Listed (s.setPipe index ((s.pipes index).empty j)) := by
      refine h.setPipe (fun i => Or.inl rfl) fun i => ?_
      by_cases hij : i = j
      · subst hij
        exact Or.inr (Function.update_self ..)
      · exact Or.inl (Function.update_of_ne hij ..)
    refine Listed.goto_registered hclear hpc rfl fun i _ hpid hw hhold => ?_
    -- the slot of the process is the one that was emptied
    obtain rfl : j = i := hhold
    rw [setPipe_pipes_self] at hw
    exact absurd (hw.symm.trans (Function.update_self ..)) hpid
  | transfer =>
    have hlists := transfer_lists (s.pipes index) c
    have hmoved : Listed (s.setPipe index ((s.pipes index).transfer c)) :=
      h.setPipe (fun i => Or.inl (congrFun hlists.1 i)) fun i => Or.inl (congrFun hlists.2 i)
    refine hmoved.goto ?_ ?_ (by simp)
    · intro k i hi hpid hr
      obtain ⟨n, stage, hpc', -⟩ := hmoved.readers k i hi pid hpid hr
      rw [show (s.setPipe index _).pc pid = .inside index c .transfer from hpc] at hpc'
      cases hpc'
      exact absurd (hreturn rfl rfl) hpid
    · intro k i hi hpid hw
      obtain ⟨addr, n, stage, hpc', hhold⟩ := hmoved.writers k i hi pid hpid hw
      rw [show (s.setPipe index _).pc pid = .inside index c .transfer from hpc] at hpc'
      cases hpc'
      exact hhold.elim

/-- Every harmless event keeps the lists. -/
theorem Listed.step (h : Listed s) {e : Event} (hharmless : Harmless s e)
    (hstep : s.step e = some s') : Listed s' := by
  cases e with
  | call pid index c =>
    cases hpc : s.pc pid with
    | inside k c' stage =>
      simp only [System.step, hpc] at hstep
      cases hstep
    | idle =>
      simp only [System.step, hpc] at hstep
      obtain ⟨c', -, rfl⟩ := Option.map_eq_some_iff.mp hstep
      split_ifs
      · exact h
      · refine h.goto ?_ ?_ (by simp)
        · intro k i hi hpid hr
          obtain ⟨n, stage, hpc', -⟩ := h.readers k i hi pid hpid hr
          rw [hpc] at hpc'
          cases hpc'
        · intro k i hi hpid hw
          obtain ⟨addr, n, stage, hpc', -⟩ := h.writers k i hi pid hpid hw
          rw [hpc] at hpc'
          cases hpc'
  | access pid =>
    cases hpc : s.pc pid with
    | idle =>
      simp only [System.step, hpc] at hstep
      cases hstep
    | inside index c stage =>
      simp only [System.step, hpc, h.ready pid, Option.isSome_none, Bool.false_eq_true,
        if_false] at hstep
      obtain rfl := Option.some.inj hstep
      refine h.access hpc ?_ ?_
      · rintro i rfl
        simpa only [Harmless, hpc, HarmlessAt] using hharmless
      · rintro rfl
        simpa only [Harmless, hpc, HarmlessAt] using hharmless

/-- Pipes with empty lists, and no process in a call. -/
def quiet (pipes : ℕ → PipeT) : System where
  pipes := fun index => { pipes index with rProcesses := fun _ => 0, wProcesses := fun _ => 0 }
  pc := fun _ => .idle
  blocked := fun _ => none

theorem listed_quiet (pipes : ℕ → PipeT) : Listed (quiet pipes) where
  readers _ _ _ _ hpid hr := absurd hr.symm hpid
  writers _ _ _ _ hpid hw := absurd hw.symm hpid
  once _ _ _ _ _ hne := absurd rfl hne
  ready _ := rfl
  moving _ _ _ _ h := by cases h

/-- **The lists are exact.** In a run in which `block_process_pipe` finds no other process and no
process but the one with pid 0 returns from `pipe_read`, the lists of all pipes are exact in every
state. -/
theorem lists_exact (pipes : ℕ → PipeT) {es : List Event}
    (hharmless : Throughout System.step Harmless (quiet pipes) es) {s : System}
    (hrun : run System.step (quiet pipes) es = some s) : Exact s := by
  have keeps : ∀ s e s', Listed s → Harmless s e → System.step s e = some s' → Listed s' :=
    fun s e s' h hharmless hstep => h.step hharmless hstep
  exact (run_preserves (listed_quiet pipes) hharmless keeps hrun).exact

/-! ## Two runs -/

/-- A pipe that was just opened. -/
def openPipe : PipeT := opened ⟨[], 0, fun _ => 0, fun _ => 0, fun _ => 0, 0, 0, 0, 0, 0⟩ 0 [0x70]

/-- Process 5 calls `pipe_write` on pipe 0, which returns, and then process 6 does the same. -/
def twoWriters : List Event :=
  .call 5 0 (.write (fun _ => 65) 1) :: List.replicate 7 (.access 5) ++
    .call 6 0 (.write (fun _ => 65) 1) :: List.replicate 7 (.access 6)

theorem lists_exact_twoWriters :
    ∃ s, run System.step (quiet fun _ => openPipe) twoWriters = some s ∧ Exact s := by
  have hharmless : Throughout System.step Harmless (quiet fun _ => openPipe) twoWriters := by
    decide +kernel
  have hsome : (run System.step (quiet fun _ => openPipe) twoWriters).isSome = true := by
    decide +kernel
  obtain ⟨s, hs⟩ := Option.isSome_iff_exists.mp hsome
  exact ⟨s, hs, lists_exact _ hharmless hs⟩

/-- Process 5 calls `pipe_read` on pipe 0, which returns. -/
def oneReader : List Event := .call 5 0 (.read 1) :: List.replicate 15 (.access 5)

/-- A process that has returned from `pipe_read` still stands among the readers. -/
theorem oneReader_stays :
    ¬ ∀ es s, run System.step (quiet fun _ => openPipe) es = some s → Exact s := by
  intro hall
  have hrun : (run System.step (quiet fun _ => openPipe) oneReader).map (fun s =>
      ((s.pipes 0).rProcesses 0, match s.pc 5 with | .idle => true | .inside _ _ _ => false)) =
        some (5, true) := by decide +kernel
  obtain ⟨s, hs, hview⟩ := Option.map_eq_some_iff.mp hrun
  obtain ⟨hlist, hidle⟩ := Prod.mk.inj hview
  have hfive : (s.pipes 0).rProcesses 0 ≠ 0 := by
    rw [hlist]
    decide
  obtain ⟨n, stage, hpc⟩ := (hall _ s hs).readers 0 0 (by decide) hfive
  rw [hlist] at hpc
  rw [hpc] at hidle
  cases hidle

end TronKernel.Pipe
