import TronKernel.Sem.Table
import TronKernel.Lib.Runs
import Mathlib.Data.Finset.Card

/-!
# `sem_wait` and `sem_post`, one access at a time

Any number of processes run `sem_wait` and `sem_post` on one semaphore that stays open. A step is a
single read or write of a field of the semaphore, a `_xchg` or a `_cmpxchg`; the program counter of
a process names the access it makes next and carries the values of its local variables. Calls of
the scheduler access no field of the semaphore and are no steps of their own, so a process may be
interrupted at any place, between `scheduler_disable` and `scheduler_enable` too.
-/

namespace TronKernel.Sem

/-- The next access of a process. The names of the two evaluations of `cond` begin with `wait` and
with `recheck`. -/
inductive Pc where
  /-- outside of both functions -/
  | idle
  /-- `_xchg(&sem->lock, 1)` in `while (!cond)` -/
  | waitXchg
  /-- `sem->value > 0` in `while (!cond)` -/
  | waitValue
  /-- `sem->lock = 0` in `while (!cond)` -/
  | waitUnlock
  /-- `last = sem->blocked_last` -/
  | enqueueLast
  /-- `sem->blocked_processes[last % MAX_PROC] = pid` -/
  | enqueuePid (last : ℕ)
  /-- `_cmpxchg(&sem->blocked_last, last + 1, last)` -/
  | enqueueCmpxchg (last : ℕ)
  /-- `_xchg(&sem->lock, 1)` in `if (cond)` -/
  | recheckXchg
  /-- `sem->value > 0` in `if (cond)` -/
  | recheckValue
  /-- `sem->lock = 0` in `if (cond)` -/
  | recheckUnlock
  /-- `last = sem->blocked_last` after `if (cond)` -/
  | dequeueLast
  /-- `last - sem->blocked_first > 0` -/
  | dequeueFirst (last : ℕ)
  /-- `_cmpxchg(&sem->blocked_last, last - 1, last)` -/
  | dequeueCmpxchg (last : ℕ)
  /-- the read of `sem->value--` -/
  | decRead
  /-- the write of `sem->value--` -/
  | decWrite (value : ℕ)
  /-- `sem->lock = 0` before `return` -/
  | unlock
  /-- `value = sem->value` -/
  | postValue
  /-- `_cmpxchg(&sem->value, value + 1, value)` -/
  | postCmpxchg (value : ℕ)
  /-- `sem->blocked_last` in `update_sem_processes` -/
  | updateLast
  /-- `idx = sem->blocked_first` -/
  | updateFirst (last : ℕ)
  /-- `_cmpxchg(&sem->blocked_first, idx + 1, idx)` -/
  | updateCmpxchg (idx : ℕ)
  /-- `sem->blocked_processes[idx % MAX_PROC]` -/
  | updatePid (idx : ℕ)
deriving DecidableEq, Repr

variable {Proc : Type*}

/-- The semaphore, where each process is, and what has happened so far. -/
structure Config (Proc : Type*) where
  sem : SemT
  pc : Proc → Pc
  /-- `sem_wait`s that have returned -/
  waited : ℕ
  /-- increments of `value` by `sem_post` -/
  posted : ℕ
  /-- processes between the end of a `sem_wait` and the increment of the `sem_post` after it -/
  between : Finset Proc

/-- All processes outside of both functions. -/
def start (Proc : Type*) (sem : SemT) : Config Proc := ⟨sem, fun _ => .idle, 0, 0, ∅⟩

/-- What happens next: a process calls one of the functions or makes its next access. -/
inductive Event (Proc : Type*) where
  | wait (p : Proc)
  | post (p : Proc)
  | access (p : Proc)

variable [DecidableEq Proc]

/-- `uint64_t` addition. -/
def add64 (a b : ℕ) : ℕ := (a + b) % 2 ^ 64

/-- `uint64_t` subtraction. -/
def sub64 (a b : ℕ) : ℕ := (a + (2 ^ 64 - b % 2 ^ 64)) % 2 ^ 64

/-- Process `p` goes on at `pc`, with the semaphore as it is now. -/
def Config.goto (c : Config Proc) (p : Proc) (pc : Pc) (sem : SemT) : Config Proc :=
  { c with sem := sem, pc := Function.update c.pc p pc }

@[simp] theorem Config.goto_posted (c : Config Proc) (p : Proc) (pc : Pc) (sem : SemT) :
    (c.goto p pc sem).posted = c.posted := rfl

@[simp] theorem Config.goto_sem (c : Config Proc) (p : Proc) (pc : Pc) (sem : SemT) :
    (c.goto p pc sem).sem = sem := rfl

@[simp] theorem Config.goto_pc_self (c : Config Proc) (p : Proc) (pc : Pc) (sem : SemT) :
    (c.goto p pc sem).pc p = pc := Function.update_self ..

theorem Config.goto_pc_of_ne (c : Config Proc) {p q : Proc} (pc : Pc) (sem : SemT) (h : q ≠ p) :
    (c.goto p pc sem).pc q = c.pc q := Function.update_of_ne h ..

/-- The next access of process `p`, whose process id is `pid`. -/
def access (pid : ℕ) (c : Config Proc) (p : Proc) : Option (Config Proc) :=
  let sem := c.sem
  match c.pc p with
  | .idle => none
  | .waitXchg =>
    some (c.goto p (if sem.lock = 0 then .waitValue else .enqueueLast) { sem with lock := 1 })
  | .waitValue => some (c.goto p (if sem.value > 0 then .decRead else .waitUnlock) sem)
  | .waitUnlock => some (c.goto p .enqueueLast { sem with lock := 0 })
  | .enqueueLast => some (c.goto p (.enqueuePid sem.blockedLast) sem)
  | .enqueuePid last =>
    some (c.goto p (.enqueueCmpxchg last)
      { sem with
        blockedProcesses := Function.update sem.blockedProcesses (last % MAX_PROC) pid })
  | .enqueueCmpxchg last =>
    if sem.blockedLast = last then
      some (c.goto p .recheckXchg { sem with blockedLast := add64 last 1 })
    else some (c.goto p .enqueueLast sem)
  | .recheckXchg =>
    some (c.goto p (if sem.lock = 0 then .recheckValue else .waitXchg) { sem with lock := 1 })
  | .recheckValue => some (c.goto p (if sem.value > 0 then .dequeueLast else .recheckUnlock) sem)
  | .recheckUnlock => some (c.goto p .waitXchg { sem with lock := 0 })
  | .dequeueLast => some (c.goto p (.dequeueFirst sem.blockedLast) sem)
  | .dequeueFirst last =>
    some (c.goto p (if sub64 last sem.blockedFirst > 0 then .dequeueCmpxchg last else .decRead) sem)
  | .dequeueCmpxchg last =>
    if sem.blockedLast = last then
      some (c.goto p .decRead { sem with blockedLast := sub64 last 1 })
    else some (c.goto p .dequeueLast sem)
  | .decRead => some (c.goto p (.decWrite sem.value) sem)
  | .decWrite value => some (c.goto p .unlock { sem with value := sub64 value 1 })
  | .unlock =>
    some
      { c.goto p .idle { sem with lock := 0 } with
        waited := c.waited + 1, between := insert p c.between }
  | .postValue => some (c.goto p (.postCmpxchg sem.value) sem)
  | .postCmpxchg value =>
    if sem.value = value then
      some
        { c.goto p .updateLast { sem with value := add64 value 1 } with
          posted := c.posted + 1, between := c.between.erase p }
    else some (c.goto p .postValue sem)
  | .updateLast => some (c.goto p (.updateFirst sem.blockedLast) sem)
  | .updateFirst last =>
    if sub64 last sem.blockedFirst > 0 then
      some (c.goto p (.updateCmpxchg sem.blockedFirst) sem)
    else some (c.goto p .idle sem)
  | .updateCmpxchg idx =>
    if sem.blockedFirst = idx then
      some (c.goto p (.updatePid idx) { sem with blockedFirst := add64 idx 1 })
    else some (c.goto p .updateLast sem)
  | .updatePid _ => some (c.goto p .idle sem)

/-- One event, if the process can take it. -/
def step (pid : Proc → ℕ) (c : Config Proc) : Event Proc → Option (Config Proc)
  | .wait p => if c.pc p = .idle then some (c.goto p .waitXchg c.sem) else none
  | .post p => if c.pc p = .idle then some (c.goto p .postValue c.sem) else none
  | .access p => access (pid p) c p

/-! ## Safety -/

/-- Between winning the lock in `cond` and writing `sem->lock = 0`. -/
def Pc.holdsLock : Pc → Bool
  | .waitValue | .waitUnlock | .recheckValue | .recheckUnlock => true
  | .dequeueLast | .dequeueFirst _ | .dequeueCmpxchg _ => true
  | .decRead | .decWrite _ | .unlock => true
  | _ => false

/-- Behind a `cond` that was true and in front of the decrement. -/
def Pc.passed : Pc → Bool
  | .dequeueLast | .dequeueFirst _ | .dequeueCmpxchg _ | .decRead => true
  | _ => false

/-- The invariant: the lock is exclusive, only its holder lowers `value`, and `value` with the waits
behind their decrement stays below what was there plus the posts. -/
structure Safe (v : ℕ) (c : Config Proc) : Prop where
  exclusive : ∀ p q, (c.pc p).holdsLock → (c.pc q).holdsLock → p = q
  unlocked : c.sem.lock = 0 → ∀ p, ¬ (c.pc p).holdsLock
  passed : ∀ p, (c.pc p).passed → 1 ≤ c.sem.value
  decWrite : ∀ p value, c.pc p = .decWrite value → 1 ≤ value ∧ value ≤ c.sem.value
  total : c.sem.value + c.waited ≤ v + c.posted
  unlock : ∀ p, c.pc p = .unlock → c.sem.value + c.waited + 1 ≤ v + c.posted

variable {v : ℕ} {c c' : Config Proc} {p : Proc}

omit [DecidableEq Proc] in
theorem safe_start (sem : SemT) (hvalue : sem.value ≤ v) : Safe v (start Proc sem) where
  exclusive p q hp := absurd hp (by simp [start, Pc.holdsLock])
  unlocked _ p := by simp [start, Pc.holdsLock]
  passed p hp := absurd hp (by simp [start, Pc.passed])
  decWrite p value hp := absurd hp (by simp [start])
  total := by simpa [start] using hvalue
  unlock p hp := absurd hp (by simp [start])

/-- What an access of `p` must not break, for itself and for the others. -/
theorem Safe.move (h : Safe v c) {pc : Pc} (hpc : c'.pc = Function.update c.pc p pc)
    (hlock : pc.holdsLock → (c.pc p).holdsLock ∨ c.sem.lock = 0)
    (hunlock : c'.sem.lock = 0 → ¬ pc.holdsLock ∧ (c.sem.lock = 0 ∨ (c.pc p).holdsLock))
    (hvalue : c.sem.value ≤ c'.sem.value ∨ (c.pc p).holdsLock)
    (hpassed : pc.passed → 1 ≤ c'.sem.value)
    (hdec : ∀ value, pc = .decWrite value → 1 ≤ value ∧ value ≤ c'.sem.value)
    (htotal : c'.sem.value + c'.waited ≤ v + c'.posted)
    (hstay : (c.pc p).holdsLock ∨
      c'.sem.value + c'.waited + c.posted ≤ c.sem.value + c.waited + c'.posted)
    (hwritten : pc = .unlock → c'.sem.value + c'.waited + 1 ≤ v + c'.posted) : Safe v c' := by
  have hself : c'.pc p = pc := by rw [hpc, Function.update_self]
  have hother : ∀ q, q ≠ p → c'.pc q = c.pc q := fun q hq => by
    rw [hpc, Function.update_of_ne hq]
  -- while `p` holds the lock nobody else does
  have halone : (c.pc p).holdsLock → ∀ q, q ≠ p → ¬ (c.pc q).holdsLock := fun hp q hq hq' =>
    hq (h.exclusive q p hq' hp)
  have hnew : pc.holdsLock → ∀ q, q ≠ p → ¬ (c.pc q).holdsLock := fun hp q hq =>
    (hlock hp).elim (fun hp => halone hp q hq) fun h0 => h.unlocked h0 q
  refine ⟨fun q r hq hr => ?_, fun h0 q => ?_, fun q hq => ?_, fun q value hq => ?_, htotal,
    fun q hq => ?_⟩
  · by_cases hqp : q = p <;> by_cases hrp : r = p
    · rw [hqp, hrp]
    · subst hqp
      rw [hself] at hq
      rw [hother r hrp] at hr
      exact absurd hr (hnew hq r hrp)
    · subst hrp
      rw [hself] at hr
      rw [hother q hqp] at hq
      exact absurd hq (hnew hr q hqp)
    · rw [hother q hqp] at hq
      rw [hother r hrp] at hr
      exact h.exclusive q r hq hr
  · by_cases hqp : q = p
    · subst hqp
      rw [hself]
      exact (hunlock h0).1
    · rw [hother q hqp]
      rcases (hunlock h0).2 with h0 | hp
      · exact h.unlocked h0 q
      · exact halone hp q hqp
  · by_cases hqp : q = p
    · subst hqp
      exact hpassed (hself ▸ hq)
    · rw [hother q hqp] at hq
      have hlocked : (c.pc q).holdsLock := by
        cases hcq : c.pc q <;> rw [hcq] at hq <;> first | exact Bool.noConfusion hq | rfl
      rcases hvalue with hle | hp
      · exact (h.passed q hq).trans hle
      · exact absurd hlocked (halone hp q hqp)
  · by_cases hqp : q = p
    · subst hqp
      exact hdec value (hself ▸ hq)
    · rw [hother q hqp] at hq
      rcases hvalue with hle | hp
      · exact ⟨(h.decWrite q value hq).1, (h.decWrite q value hq).2.trans hle⟩
      · exact absurd (by rw [hq]; rfl) (halone hp q hqp)
  · by_cases hqp : q = p
    · subst hqp
      exact hwritten (hself ▸ hq)
    · rw [hother q hqp] at hq
      rcases hstay with hp | hle
      · exact absurd (by rw [hq]; rfl) (halone hp q hqp)
      · have := h.unlock q hq
        omega

/-- An access that leaves `lock` and `value` alone. -/
theorem Safe.quiet (h : Safe v c) {pc : Pc} {sem : SemT} (hlock : sem.lock = c.sem.lock)
    (hvalue : sem.value = c.sem.value) (hholds : pc.holdsLock = (c.pc p).holdsLock)
    (hpassed : pc.passed → 1 ≤ c.sem.value) (hdec : ∀ value, pc ≠ .decWrite value)
    (hunlock : pc ≠ .unlock) : Safe v (c.goto p pc sem) := by
  refine h.move rfl (fun hp => Or.inl (hholds ▸ hp)) (fun h0 => ?_) (Or.inl hvalue.ge)
    (fun hp => hvalue.symm ▸ hpassed hp) (fun value hp => absurd hp (hdec value)) ?_ (Or.inr ?_)
    fun hp => absurd hp hunlock
  · have h0' : c.sem.lock = 0 := hlock.symm.trans h0
    exact ⟨by rw [hholds]; exact h.unlocked h0' p, Or.inl h0'⟩
  · show sem.value + c.waited ≤ v + c.posted
    rw [hvalue]
    exact h.total
  · show sem.value + c.waited + c.posted ≤ c.sem.value + c.waited + c.posted
    rw [hvalue]

/-- `_xchg(&sem->lock, 1)`: whoever reads 0 holds the lock from now on. -/
theorem Safe.xchg (h : Safe v c) {won lost : Pc} (hlost : lost.holdsLock = false)
    (hwon : won.passed = false) (hlost' : lost.passed = false)
    (hwd : ∀ value, won ≠ .decWrite value) (hld : ∀ value, lost ≠ .decWrite value)
    (hwu : won ≠ .unlock) (hlu : lost ≠ .unlock) :
    Safe v (c.goto p (if c.sem.lock = 0 then won else lost) { c.sem with lock := 1 }) := by
  by_cases h0 : c.sem.lock = 0
  · rw [if_pos h0]
    exact h.move rfl (fun _ => Or.inr h0) (fun h1 => absurd h1 Nat.one_ne_zero) (Or.inl le_rfl)
      (fun hp => by rw [hwon] at hp; exact Bool.noConfusion hp)
      (fun value hp => absurd hp (hwd value)) h.total (Or.inr le_rfl) fun hp => absurd hp hwu
  · rw [if_neg h0]
    exact h.move rfl (fun hp => by rw [hlost] at hp; exact Bool.noConfusion hp)
      (fun h1 => absurd h1 Nat.one_ne_zero) (Or.inl le_rfl)
      (fun hp => by rw [hlost'] at hp; exact Bool.noConfusion hp)
      (fun value hp => absurd hp (hld value)) h.total (Or.inr le_rfl) fun hp => absurd hp hlu

/-- `sem->lock = 0` after a `cond` that found no value. -/
theorem Safe.giveUp (h : Safe v c) {pc : Pc} (hholds : (c.pc p).holdsLock)
    (hpc : pc.holdsLock = false) (hpassed : pc.passed = false)
    (hdec : ∀ value, pc ≠ .decWrite value)
    (hunlock : pc ≠ .unlock) : Safe v (c.goto p pc { c.sem with lock := 0 }) :=
  h.move rfl (fun hp => by rw [hpc] at hp; exact Bool.noConfusion hp)
    (fun _ => ⟨by rw [hpc]; exact Bool.false_ne_true, Or.inr hholds⟩) (Or.inl le_rfl)
    (fun hp => by rw [hpassed] at hp; exact Bool.noConfusion hp)
    (fun value hp => absurd hp (hdec value)) h.total (Or.inr le_rfl) fun hp => absurd hp hunlock

/-- The read of the decrement. -/
theorem Safe.decRead (h : Safe v c) (hp : c.pc p = .decRead) :
    Safe v (c.goto p (.decWrite c.sem.value) c.sem) := by
  have hpos := h.passed p (by rw [hp]; rfl)
  have hholds : (c.pc p).holdsLock := by rw [hp]; rfl
  refine h.move rfl (fun _ => Or.inl hholds) (fun h0 => absurd hholds (h.unlocked h0 p))
    (Or.inl le_rfl) (fun hp => Bool.noConfusion hp) (fun value hvalue => ?_) h.total (Or.inr le_rfl)
    fun hp => Pc.noConfusion hp
  obtain rfl := Pc.decWrite.inj hvalue
  exact ⟨hpos, le_rfl⟩

/-- The write of the decrement: the value read was at least 1 and is at most the present one. -/
theorem Safe.decStore (h : Safe v c) {value new : ℕ} (hp : c.pc p = .decWrite value)
    (hnew : 1 ≤ value → new + 1 = value) :
    Safe v (c.goto p .unlock { c.sem with value := new }) := by
  obtain ⟨hpos, hle⟩ := h.decWrite p value hp
  have htotal := h.total
  have hold := hnew hpos
  have hholds : (c.pc p).holdsLock := by rw [hp]; rfl
  refine h.move rfl (fun _ => Or.inl hholds) (fun h0 => absurd hholds (h.unlocked h0 p))
    (Or.inr hholds) (fun hp => Bool.noConfusion hp) (fun _ hvalue => Pc.noConfusion hvalue) ?_
    (Or.inl hholds) fun _ => ?_
  · show new + c.waited ≤ v + c.posted
    omega
  · show new + c.waited + 1 ≤ v + c.posted
    omega

/-- The end of `sem_wait`. -/
theorem Safe.finishWait (h : Safe v c) (hp : c.pc p = .unlock) :
    Safe v { c.goto p .idle { c.sem with lock := 0 } with
      waited := c.waited + 1, between := insert p c.between } := by
  have hunlock := h.unlock p hp
  have hholds : (c.pc p).holdsLock := by rw [hp]; rfl
  refine h.move rfl (fun hp => Bool.noConfusion hp)
    (fun _ => ⟨Bool.false_ne_true, Or.inr hholds⟩) (Or.inl le_rfl)
    (fun hp => Bool.noConfusion hp) (fun _ hvalue => Pc.noConfusion hvalue) ?_ (Or.inl hholds)
    fun hp => Pc.noConfusion hp
  show c.sem.value + (c.waited + 1) ≤ v + c.posted
  omega

/-- The increment of `sem_post`. -/
theorem Safe.increment (h : Safe v c) {new : ℕ} (hnew : new = c.sem.value + 1) :
    Safe v { c.goto p .updateLast { c.sem with value := new } with
      posted := c.posted + 1, between := c.between.erase p } := by
  have htotal := h.total
  refine h.move rfl (fun hp => Bool.noConfusion hp) (fun h0 => ⟨Bool.false_ne_true, Or.inl h0⟩)
    (Or.inl ?_) (fun hp => Bool.noConfusion hp) (fun _ hvalue => Pc.noConfusion hvalue) ?_
    (Or.inr ?_) fun hp => Pc.noConfusion hp
  · show c.sem.value ≤ new
    omega
  · show new + c.waited ≤ v + (c.posted + 1)
    omega
  · show new + c.waited + c.posted ≤ c.sem.value + c.waited + (c.posted + 1)
    omega

/-- A step at which the process neither holds the lock nor takes it. -/
theorem Safe.outside (h : Safe v c) {pc : Pc} {sem : SemT} (hlock : sem.lock = c.sem.lock)
    (hvalue : sem.value = c.sem.value) (hold : (c.pc p).holdsLock = false)
    (hnew : pc.holdsLock = false) : Safe v (c.goto p pc sem) := by
  refine h.quiet hlock hvalue (hnew.trans hold.symm) (fun hp => ?_) (fun value hp => ?_)
    fun hp => ?_
  · cases pc <;> first | exact Bool.noConfusion hp | exact Bool.noConfusion hnew
  · rw [hp] at hnew
    exact Bool.noConfusion hnew
  · rw [hp] at hnew
    exact Bool.noConfusion hnew

/-- A step of the holder between its successful `cond` and the decrement. -/
theorem Safe.inside (h : Safe v c) {pc : Pc} {sem : SemT} (hlock : sem.lock = c.sem.lock)
    (hvalue : sem.value = c.sem.value) (hold : (c.pc p).passed) (hnew : pc.passed) :
    Safe v (c.goto p pc sem) := by
  have hholds : ∀ {pc : Pc}, pc.passed → pc.holdsLock = true := fun {pc} hp => by
    cases pc <;> first | rfl | exact Bool.noConfusion hp
  refine h.quiet hlock hvalue ((hholds hnew).trans (hholds hold).symm) (fun _ => h.passed p hold)
    (fun value hp => ?_) fun hp => ?_
  · rw [hp] at hnew
    exact Bool.noConfusion hnew
  · rw [hp] at hnew
    exact Bool.noConfusion hnew

/-- `sem->value > 0` in `cond`. -/
theorem Safe.test (h : Safe v c) {yes no : Pc} (hold : (c.pc p).holdsLock) (hyes : yes.passed)
    (hyes' : yes.holdsLock) (hno : no.holdsLock) (hno' : no.passed = false)
    (hnodec : ∀ value, no ≠ .decWrite value) (hnounlock : no ≠ .unlock) :
    Safe v (c.goto p (if c.sem.value > 0 then yes else no) c.sem) := by
  by_cases hv : c.sem.value > 0
  · rw [if_pos hv]
    refine h.quiet rfl rfl (hyes'.trans hold.symm) (fun _ => hv) (fun value hp => ?_) fun hp => ?_
    · rw [hp] at hyes
      exact Bool.noConfusion hyes
    · rw [hp] at hyes
      exact Bool.noConfusion hyes
  · rw [if_neg hv]
    exact h.quiet rfl rfl (hno.trans hold.symm)
      (fun hp => by rw [hno'] at hp; exact Bool.noConfusion hp) hnodec hnounlock

/-- The next access of `p` is the increment of `sem_post`, and its `_cmpxchg` succeeds. -/
def Config.increments (c : Config Proc) (p : Proc) : Bool :=
  match c.pc p with
  | .postCmpxchg value => c.sem.value = value
  | _ => false

/-- An increment stays in the range of `value`. -/
def Roomy (c : Config Proc) : Event Proc → Prop
  | .access p => c.increments p → c.sem.value + 1 < 2 ^ 64
  | _ => True

/-- No access breaks the invariant, as long as the increments stay in the range of `value`. -/
theorem Safe.access (h : Safe v c) {pid : ℕ} (hacc : access pid c p = some c')
    (hfits : c.sem.value < 2 ^ 64) (hroom : Roomy c (.access p)) : Safe v c' := by
  unfold TronKernel.Sem.access at hacc
  cases hpc : c.pc p
  all_goals
    rw [hpc] at hacc
    simp only at hacc
    have hold : (c.pc p).holdsLock = _ := congrArg Pc.holdsLock hpc
    have hpassed : (c.pc p).passed = _ := congrArg Pc.passed hpc
  case idle => cases hacc
  case waitXchg =>
    obtain rfl := Option.some.inj hacc
    exact h.xchg rfl rfl rfl (by simp) (by simp) (by simp) (by simp)
  case waitValue =>
    obtain rfl := Option.some.inj hacc
    exact h.test hold rfl rfl rfl rfl (by simp) (by simp)
  case waitUnlock =>
    obtain rfl := Option.some.inj hacc
    exact h.giveUp hold rfl rfl (by simp) (by simp)
  case enqueueLast =>
    obtain rfl := Option.some.inj hacc
    exact h.outside rfl rfl hold rfl
  case enqueuePid last =>
    obtain rfl := Option.some.inj hacc
    exact h.outside rfl rfl hold rfl
  case enqueueCmpxchg last =>
    split_ifs at hacc with hlast
    all_goals
      obtain rfl := Option.some.inj hacc
      exact h.outside rfl rfl hold rfl
  case recheckXchg =>
    obtain rfl := Option.some.inj hacc
    exact h.xchg rfl rfl rfl (by simp) (by simp) (by simp) (by simp)
  case recheckValue =>
    obtain rfl := Option.some.inj hacc
    exact h.test hold rfl rfl rfl rfl (by simp) (by simp)
  case recheckUnlock =>
    obtain rfl := Option.some.inj hacc
    exact h.giveUp hold rfl rfl (by simp) (by simp)
  case dequeueLast =>
    obtain rfl := Option.some.inj hacc
    exact h.inside rfl rfl hpassed rfl
  case dequeueFirst last =>
    obtain rfl := Option.some.inj hacc
    split_ifs
    · exact h.inside rfl rfl hpassed rfl
    · exact h.inside rfl rfl hpassed rfl
  case dequeueCmpxchg last =>
    split_ifs at hacc with hlast
    all_goals
      obtain rfl := Option.some.inj hacc
      exact h.inside rfl rfl hpassed rfl
  case decRead =>
    obtain rfl := Option.some.inj hacc
    exact h.decRead hpc
  case decWrite value =>
    have hle := (h.decWrite p value hpc).2
    have hnew : 1 ≤ value → sub64 value 1 + 1 = value := fun hpos => by
      simp only [sub64]
      omega
    rw [← Option.some.inj hacc]
    exact h.decStore hpc hnew
  case unlock =>
    obtain rfl := Option.some.inj hacc
    exact h.finishWait hpc
  case postValue =>
    obtain rfl := Option.some.inj hacc
    exact h.outside rfl rfl hold rfl
  case postCmpxchg value =>
    split_ifs at hacc with hvalue
    · obtain rfl := Option.some.inj hacc
      refine h.increment ?_
      have hlt := hroom (by simp [Config.increments, hpc, hvalue])
      simp only [add64]
      omega
    · obtain rfl := Option.some.inj hacc
      exact h.outside rfl rfl hold rfl
  case updateLast =>
    obtain rfl := Option.some.inj hacc
    exact h.outside rfl rfl hold rfl
  case updateFirst last =>
    split_ifs at hacc
    all_goals
      obtain rfl := Option.some.inj hacc
      exact h.outside rfl rfl hold rfl
  case updateCmpxchg idx =>
    split_ifs at hacc
    all_goals
      obtain rfl := Option.some.inj hacc
      exact h.outside rfl rfl hold rfl
  case updatePid idx =>
    obtain rfl := Option.some.inj hacc
    exact h.outside rfl rfl hold rfl

/-! ## Waits and posts in pairs -/

/-- Inside `sem_wait`. -/
def Pc.inWait : Pc → Bool
  | .waitXchg | .waitValue | .waitUnlock => true
  | .enqueueLast | .enqueuePid _ | .enqueueCmpxchg _ => true
  | .recheckXchg | .recheckValue | .recheckUnlock => true
  | .dequeueLast | .dequeueFirst _ | .dequeueCmpxchg _ => true
  | .decRead | .decWrite _ | .unlock => true
  | _ => false

/-- Inside `sem_post` and in front of its increment. -/
def Pc.beforeIncrement : Pc → Bool
  | .postValue | .postCmpxchg _ => true
  | _ => false

/-- What an access does to the counts: nothing, unless it ends a wait or is the increment of a
post. -/
theorem access_cases {pid : ℕ} (hacc : access pid c p = some c') :
    (∃ pc sem, c' = c.goto p pc sem ∧ (pc.inWait → (c.pc p).inWait) ∧
        (pc.beforeIncrement → (c.pc p).beforeIncrement)) ∨
      (∃ sem, (c.pc p).inWait ∧ c' = { c.goto p .idle sem with
        waited := c.waited + 1, between := insert p c.between }) ∨
      ∃ sem, (c.pc p).beforeIncrement ∧ c' = { c.goto p .updateLast sem with
        posted := c.posted + 1, between := c.between.erase p } := by
  unfold access at hacc
  cases hpc : c.pc p
  all_goals
    rw [hpc] at hacc
    simp only at hacc
  case idle => cases hacc
  case unlock => exact Or.inr (Or.inl ⟨_, rfl, (Option.some.inj hacc).symm⟩)
  case postCmpxchg value =>
    split_ifs at hacc
    · exact Or.inr (Or.inr ⟨_, rfl, (Option.some.inj hacc).symm⟩)
    · exact Or.inl ⟨_, _, (Option.some.inj hacc).symm, fun h => h, fun h => h⟩
  all_goals
    left
    try split_ifs at hacc
    all_goals
      refine ⟨_, _, (Option.some.inj hacc).symm, ?_, ?_⟩
      all_goals first | exact fun _ => rfl | exact fun h => h

theorem posted_le_of_step {pid : Proc → ℕ} {e : Event Proc} (hstep : step pid c e = some c') :
    c.posted ≤ c'.posted := by
  cases e with
  | wait p =>
    rw [step] at hstep
    split_ifs at hstep
    exact (congrArg Config.posted (Option.some.inj hstep)).le
  | post p =>
    rw [step] at hstep
    split_ifs at hstep
    exact (congrArg Config.posted (Option.some.inj hstep)).le
  | access p =>
    rcases access_cases hstep with ⟨pc, sem, rfl, -⟩ | ⟨sem, -, rfl⟩ | ⟨sem, -, rfl⟩
    · exact le_rfl
    · exact le_rfl
    · exact Nat.le_succ _

/-- A process waits when it holds nothing and posts when it has waited. -/
def Paired (c : Config Proc) : Event Proc → Prop
  | .wait p => p ∉ c.between
  | .post p => p ∈ c.between
  | .access _ => True

/-- With waits and posts in pairs, the surplus of waits is the number of processes in between. -/
structure InPairs (c : Config Proc) : Prop where
  count : c.waited = c.posted + c.between.card
  waiting : ∀ p, (c.pc p).inWait → p ∉ c.between
  posting : ∀ p, (c.pc p).beforeIncrement → p ∈ c.between

omit [DecidableEq Proc] in
theorem inPairs_start (sem : SemT) : InPairs (start Proc sem) where
  count := by simp [start]
  waiting p hp := absurd hp (by simp [start, Pc.inWait])
  posting p hp := absurd hp (by simp [start, Pc.beforeIncrement])

theorem InPairs.goto (h : InPairs c) {pc : Pc} {sem : SemT} (hwait : pc.inWait → p ∉ c.between)
    (hpost : pc.beforeIncrement → p ∈ c.between) : InPairs (c.goto p pc sem) := by
  refine ⟨h.count, fun q hq => ?_, fun q hq => ?_⟩
  all_goals
    by_cases hqp : q = p
    · subst hqp
      simp only [Config.goto, Function.update_self] at hq
      first | exact hwait hq | exact hpost hq
    · simp only [Config.goto, Function.update_of_ne hqp] at hq
      first | exact h.waiting q hq | exact h.posting q hq

theorem InPairs.step (h : InPairs c) {pid : Proc → ℕ} {e : Event Proc} (he : Paired c e)
    (hstep : step pid c e = some c') : InPairs c' := by
  cases e with
  | wait p =>
    rw [TronKernel.Sem.step] at hstep
    split_ifs at hstep
    rw [← Option.some.inj hstep]
    exact h.goto (fun _ => he) fun hp => Bool.noConfusion hp
  | post p =>
    rw [TronKernel.Sem.step] at hstep
    split_ifs at hstep
    rw [← Option.some.inj hstep]
    exact h.goto (fun hp => Bool.noConfusion hp) fun _ => he
  | access p =>
    rcases access_cases hstep with ⟨pc, sem, rfl, hwait, hpost⟩ | ⟨sem, hin, rfl⟩ | ⟨sem, hin, rfl⟩
    · exact h.goto (fun hp => h.waiting p (hwait hp)) fun hp => h.posting p (hpost hp)
    · -- the end of a wait: the process is in between now
      have hnot := h.waiting p hin
      refine ⟨?_, fun q hq => ?_, fun q hq => ?_⟩
      · show c.waited + 1 = c.posted + (insert p c.between).card
        rw [Finset.card_insert_of_notMem hnot, h.count, Nat.add_assoc]
      · by_cases hqp : q = p
        · subst hqp
          simp [Config.goto, Pc.inWait] at hq
        · simp only [Config.goto, Function.update_of_ne hqp] at hq
          simpa [hqp] using h.waiting q hq
      · by_cases hqp : q = p
        · subst hqp
          simp [Config.goto, Pc.beforeIncrement] at hq
        · simp only [Config.goto, Function.update_of_ne hqp] at hq
          exact Finset.mem_insert_of_mem (h.posting q hq)
    · -- the increment of a post: the process is not in between any more
      have hmem := h.posting p hin
      refine ⟨?_, fun q hq => ?_, fun q hq => ?_⟩
      · show c.waited = c.posted + 1 + (c.between.erase p).card
        have hcard := Finset.card_erase_add_one hmem
        have hcount := h.count
        omega
      · by_cases hqp : q = p
        · subst hqp
          simp [Config.goto, Pc.inWait] at hq
        · simp only [Config.goto, Function.update_of_ne hqp] at hq
          exact fun hmem => h.waiting q hq (Finset.mem_of_mem_erase hmem)
      · by_cases hqp : q = p
        · subst hqp
          simp [Config.goto, Pc.beforeIncrement] at hq
        · simp only [Config.goto, Function.update_of_ne hqp] at hq
          exact Finset.mem_erase_of_ne_of_mem hqp (h.posting q hq)

/-! ## Runs -/

open Runs

theorem posted_of_increments {pid : ℕ} (hacc : access pid c p = some c') (hinc : c.increments p) :
    c'.posted = c.posted + 1 := by
  cases hpc : c.pc p with
  | postCmpxchg value =>
    have hvalue : c.sem.value = value := by simpa [Config.increments, hpc] using hinc
    simp only [TronKernel.Sem.access, hpc, if_pos hvalue] at hacc
    exact (congrArg Config.posted (Option.some.inj hacc)).symm
  | _ => simp [Config.increments, hpc] at hinc

/-- Posts within the range of `value` leave room for their increments. -/
theorem Safe.roomy (h : Safe v c) {pid : Proc → ℕ} {e : Event Proc} (hstep : step pid c e = some c')
    (hbound : v + c'.posted < 2 ^ 64) : c.sem.value < 2 ^ 64 ∧ Roomy c e := by
  have hle := posted_le_of_step hstep
  have htotal := h.total
  refine ⟨by omega, ?_⟩
  cases e with
  | wait p => trivial
  | post p => trivial
  | access p =>
    intro hinc
    have := posted_of_increments hstep hinc
    omega

theorem Safe.step (h : Safe v c) {pid : Proc → ℕ} {e : Event Proc} (hstep : step pid c e = some c')
    (hfits : c.sem.value < 2 ^ 64) (hroom : Roomy c e) : Safe v c' := by
  cases e with
  | wait p =>
    rw [TronKernel.Sem.step] at hstep
    split_ifs at hstep with hidle
    rw [← Option.some.inj hstep]
    exact h.outside rfl rfl (by rw [hidle]; rfl) rfl
  | post p =>
    rw [TronKernel.Sem.step] at hstep
    split_ifs at hstep with hidle
    rw [← Option.some.inj hstep]
    exact h.outside rfl rfl (by rw [hidle]; rfl) rfl
  | access p => exact h.access hstep hfits hroom

/-- In every interleaving: one holder of the lock at a time, a decrement finds at least 1, and no
more waits return than the value and the posts allow. With value 1 and waits and posts in pairs, at
most one process is in between. -/
theorem semaphore_safe (pid : Proc → ℕ) (sem : SemT) (es : List (Event Proc)) (c : Config Proc)
    (hrun : run (step pid) (start Proc sem) es = some c)
    (hbound : sem.value + c.posted < 2 ^ 64) :
    (∀ p q, (c.pc p).holdsLock → (c.pc q).holdsLock → p = q) ∧
      (∀ p, c.pc p = .decRead → 1 ≤ c.sem.value) ∧
      c.waited ≤ sem.value + c.posted ∧
      (sem.value = 1 → Throughout (step pid) Paired (start Proc sem) es →
        ∀ p ∈ c.between, ∀ q ∈ c.between, p = q) := by
  have hsafe : Safe sem.value c := by
    refine run_preserves (I := fun c : Config Proc => sem.value + c.posted < 2 ^ 64 →
      Safe sem.value c) (P := fun _ _ => True) (fun _ => safe_start sem le_rfl)
      (throughout_of_forall fun _ _ => trivial) (fun c e c' hc _ hstep hbound => ?_) hrun hbound
    have hle := posted_le_of_step hstep
    have hsafe := hc (by omega)
    obtain ⟨hfits, hroom⟩ := hsafe.roomy hstep hbound
    exact hsafe.step hstep hfits hroom
  refine ⟨hsafe.exclusive, fun p hp => hsafe.passed p (by rw [hp]; rfl), ?_,
    fun hone hpaired p hp q hq => ?_⟩
  · have := hsafe.total
    omega
  · have hpairs : InPairs c :=
      run_preserves (inPairs_start sem) hpaired (fun _ _ _ hc he hstep => hc.step he hstep) hrun
    have htotal := hsafe.total
    have hcount := hpairs.count
    have hcard : c.between.card ≤ 1 := by omega
    exact Finset.card_le_one.mp hcard p hp q hq

instance (c : Config Proc) : (e : Event Proc) → Decidable (Paired c e)
  | .wait p => inferInstanceAs (Decidable (p ∉ c.between))
  | .post p => inferInstanceAs (Decidable (p ∈ c.between))
  | .access _ => isTrue trivial

/-- Two processes on a semaphore of value 1: the first one takes it, the second one finds the value
0, and the first one posts. -/
theorem semaphore_safe_two :
    ∃ c : Config Bool,
      run (step fun p => if p then 1 else 2) (start Bool { zeroTable 0 with value := 1 })
        [.wait true, .access true, .access true, .access true, .access true, .access true,
          .wait false, .access false, .access false, .access false, .post true, .access true,
          .access true] = some c ∧
      (∀ p q, (c.pc p).holdsLock → (c.pc q).holdsLock → p = q) ∧
      (∀ p, c.pc p = .decRead → 1 ≤ c.sem.value) ∧ c.waited ≤ 1 + c.posted ∧
      ∀ p ∈ c.between, ∀ q ∈ c.between, p = q := by
  set pid : Bool → ℕ := fun p => if p then 1 else 2
  set sem : SemT := { zeroTable 0 with value := 1 }
  set es : List (Event Bool) :=
    [.wait true, .access true, .access true, .access true, .access true, .access true,
      .wait false, .access false, .access false, .access false, .post true, .access true,
      .access true]
  have hposted : (run (step pid) (start Bool sem) es).map Config.posted = some 1 := by
    decide +kernel
  have hpaired : Throughout (step pid) Paired (start Bool sem) es := by decide +kernel
  obtain ⟨c, hrun, hone⟩ := Option.map_eq_some_iff.mp hposted
  obtain ⟨hexclusive, hpositive, hcount, hbetween⟩ :=
    semaphore_safe pid sem es c hrun (by rw [hone]; decide)
  exact ⟨c, hrun, hexclusive, hpositive, hcount, hbetween rfl hpaired⟩

end TronKernel.Sem
