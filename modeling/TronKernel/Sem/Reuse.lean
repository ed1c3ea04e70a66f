import TronKernel.Sem.Interleaving
import TronKernel.Sem.Registry
import Mathlib.Data.Fintype.Basic

/-!
# Waiting while semaphores are opened and closed

`sem_wait` and `sem_post` look their name up once and go on with the slot they found, one access at
a time (`access`), while other processes open and close semaphores. A slot that is freed under a
process that sleeps in `sem_wait` may hold another semaphore when it wakes up, and it takes that one
(`waiter_takes_another`). It takes the one it asked for as long as no semaphore is freed while a
process is inside `sem_wait` for it (`waiter_takes_its_own`).
-/

namespace TronKernel.Sem

open Runs

/-- Where a process is: its next access, the slot that it found for its name, and the name of the
semaphore it decremented last. -/
structure Caller where
  pc : Pc
  slot : ℕ
  name : Name
  took : List UInt8

variable {Proc : Type*}

/-- The table, the processes, and for each `sem_wait` that has returned `SUCCESS_SIGNAL` its
argument and the name that the semaphore had when it was decremented. -/
structure System (Proc : Type*) where
  table : Table
  callers : Proc → Caller
  returned : List (Name × List UInt8)

/-- The empty string. -/
def noName : Name := ⟨[], List.not_mem_nil, Nat.zero_lt_succ _⟩

/-- No semaphores, and every process outside of the functions. -/
def System.start (Proc : Type*) : System Proc where
  table := zeroTable
  callers _ := ⟨.idle, 0, noName, []⟩
  returned := []

/-- What happens next. `sem_open` and `sem_close` sleep nowhere, and so does the lookup of a
name. -/
inductive SystemEvent (Proc : Type*) where
  | semOpen (p : Proc) (name : Name) (value : ℤ)
  | semClose (p : Proc) (name : Name)
  | semWait (p : Proc) (name : Name)
  | semPost (p : Proc) (name : Name)
  | access (p : Proc)

variable [DecidableEq Proc]

/-- Process `p` begins at `pc` with the slot of a name, or gets `ERROR`. -/
def System.enter (s : System Proc) (p : Proc) (name : Name) (pc : Pc) : System Proc :=
  let idx := getSemByName s.table name
  if idx = OUT_OF_BOUNDS then s
  else { s with callers := Function.update s.callers p ⟨pc, idx.toNat, name, []⟩ }

/-- The next access of process `p` to the semaphore in its slot. -/
def System.access (pid : ℕ) (s : System Proc) (p : Proc) : Option (System Proc) :=
  let c := s.callers p
  (Sem.access pid (⟨s.table c.slot, fun _ => c.pc, 0, 0, ∅⟩ : Config Unit) ()).map fun c' =>
    { table := Function.update s.table c.slot c'.sem
      callers := Function.update s.callers p
        { c with
          pc := c'.pc ()
          took := match c.pc with
            | .decWrite _ => (s.table c.slot).name
            | _ => c.took }
      returned := if c.pc = .unlock then (c.name, c.took) :: s.returned else s.returned }

/-- One event, if the process can take it. -/
def System.step (pid : Proc → ℕ) (s : System Proc) : SystemEvent Proc → Option (System Proc)
  | .semOpen p name value =>
    if (s.callers p).pc = .idle then
      (Sem.semOpen s.table name value).map fun r => { s with table := r.1 }
    else none
  | .semClose p name =>
    if (s.callers p).pc = .idle then some { s with table := (Sem.semClose s.table name).1 }
    else none
  | .semWait p name => if (s.callers p).pc = .idle then some (s.enter p name .waitXchg) else none
  | .semPost p name => if (s.callers p).pc = .idle then some (s.enter p name .postValue) else none
  | .access p => System.access (pid p) s p

/-- Every `sem_wait` that has returned took the semaphore it was called for. -/
def TookOwn (s : System Proc) : Prop := ∀ e ∈ s.returned, e.2 = e.1.bytes

/-- Inside `sem_wait`, at or in front of the decrement. -/
def Pc.wantsSem (pc : Pc) : Bool := pc.inWait ∧ pc ≠ .unlock

/-- `sem_close(name)` frees slot `idx`. -/
def Frees (t : Table) (name : Name) (idx : ℕ) : Prop :=
  Holds t idx name ∧ toInt (toUInt64 ((t idx).openCount - 1)) < 1

/-- No semaphore is freed while a process waits for it. -/
def ClosesUnwanted (s : System Proc) : SystemEvent Proc → Prop
  | .semClose _ name => ∀ p, (s.callers p).pc.wantsSem → ¬ Frees s.table name (s.callers p).slot
  | _ => True

/-! ## Slots that stay -/

variable {t t' : Table} {name name' : Name} {idx : ℕ} {s s' : System Proc} {p : Proc}

/-- `sem_open` leaves the names in use where they are. -/
theorem Holds.semOpen (h : Holds t idx name) (hd : Distinct t) {value r : ℤ}
    (hopen : semOpen t name' value = some (t', r)) : Holds t' idx name := by
  rcases semOpen_cases hd.no_nul name' value with
    ⟨i, -, hval⟩ | ⟨-, ⟨-, hval⟩ | ⟨i, -, hfree, -, hval⟩⟩
  all_goals rw [hval] at hopen
  · obtain ⟨t₁, hinc, heq⟩ := Option.map_eq_some_iff.mp hopen
    obtain ⟨rfl, -⟩ := Prod.mk.inj heq
    exact (SameButCount.holds (incOpenCount_same hinc)).mpr h
  · obtain ⟨rfl, -⟩ := Prod.mk.inj (Option.some.inj hopen)
    exact h
  · obtain ⟨t₁, hinc, heq⟩ := Option.map_eq_some_iff.mp hopen
    obtain ⟨rfl, -⟩ := Prod.mk.inj heq
    have hne : idx ≠ i := by
      rintro rfl
      rw [h.2.1] at hfree
      exact Bool.noConfusion hfree
    refine (SameButCount.holds (incOpenCount_same hinc)).mpr ?_
    simpa only [Holds, Function.update_of_ne hne] using h

/-- `sem_close` leaves every name where it is but the one whose slot it frees. -/
theorem Holds.semClose (h : Holds t idx name) (hd : Distinct t) (hkept : ¬ Frees t name' idx) :
    Holds (semClose t name').1 idx name := by
  rcases semClose_cases hd.no_nul name' with ⟨-, hval⟩ | ⟨i, hi, -, ⟨hval, -⟩ | ⟨hval, hlast⟩⟩
  all_goals rw [hval]
  · exact h
  · exact (SameButCount.holds (update_same ⟨_, rfl⟩)).mpr h
  · have hne : idx ≠ i := by
      intro heq
      rw [Frees, heq] at hkept
      exact hkept ⟨hi, hlast⟩
    simpa only [Holds, Function.update_of_ne hne] using h

/-- An access changes neither the id nor the name of the semaphore. -/
theorem access_name {pid : ℕ} {c c' : Config Unit} (hacc : access pid c () = some c') :
    c'.sem.semId = c.sem.semId ∧ c'.sem.name = c.sem.name := by
  have hfields : ∃ lock value processes first last, c'.sem =
      { c.sem with
        lock := lock
        value := value
        blockedProcesses := processes
        blockedFirst := first
        blockedLast := last } := by
    unfold access at hacc
    cases hpc : c.pc ()
    all_goals
      rw [hpc] at hacc
      simp only at hacc
    case idle => cases hacc
    all_goals
      try split_ifs at hacc
      all_goals
        rw [← Option.some.inj hacc]
        exact ⟨_, _, _, _, _, rfl⟩
  obtain ⟨lock, value, processes, first, last, hsem⟩ := hfields
  rw [hsem]
  exact ⟨rfl, rfl⟩

/-- Only the write of the decrement leads to the end of `sem_wait`, and the rest of `sem_wait` is
reached from within. -/
theorem access_pc {pid : ℕ} {c c' : Config Unit} (hacc : access pid c () = some c') :
    ((c'.pc ()).inWait → (c.pc ()).inWait ∧ c.pc () ≠ .unlock) ∧
      (c'.pc () = .unlock ↔ ∃ v, c.pc () = .decWrite v) := by
  unfold access at hacc
  cases hpc : c.pc ()
  all_goals
    rw [hpc] at hacc
    simp only at hacc
  case idle => cases hacc
  all_goals
    try split_ifs at hacc
    all_goals
      obtain rfl := Option.some.inj hacc
      simp only [Config.goto_pc_self]
  all_goals simp [Pc.inWait]

/-! ## What every step keeps -/

/-- The semaphore that a process waits for is in the slot it found, up to the decrement; then the
process knows the right name, and so do the calls that have returned. -/
structure Steady (s : System Proc) : Prop where
  distinct : Distinct s.table
  waits : ∀ p, (s.callers p).pc.wantsSem → Holds s.table (s.callers p).slot (s.callers p).name
  took : ∀ p, (s.callers p).pc = .unlock → (s.callers p).took = (s.callers p).name.bytes
  returned : TookOwn s

/-- Ids and names are what they were. -/
def SameNames (t t' : Table) : Prop := ∀ i, (t' i).semId = (t i).semId ∧ (t' i).name = (t i).name

theorem SameNames.holds (h : SameNames t t') : Holds t' idx name ↔ Holds t idx name := by
  simp only [Holds, (h idx).1, (h idx).2]

theorem Distinct.sameNames (hd : Distinct t) (h : SameNames t t') : Distinct t' where
  no_nul i := (h i).2 ▸ hd.no_nul i
  name_inj i hi j hj hui huj heq := by
    rw [(h i).1] at hui
    rw [(h j).1] at huj
    rw [(h i).2, (h j).2] at heq
    exact hd.name_inj i hi j hj hui huj heq

omit [DecidableEq Proc] in
/-- A new table in which the semaphores that are waited for are still in their slots. -/
theorem Steady.withTable (h : Steady s) (hd : Distinct t')
    (hkept : ∀ p, (s.callers p).pc.wantsSem → Holds t' (s.callers p).slot (s.callers p).name) :
    Steady { s with table := t' } :=
  ⟨hd, hkept, h.took, h.returned⟩

/-- A process starts on what it found. -/
theorem Steady.enter (h : Steady s) {pc : Pc} (hpc : pc ≠ .unlock) :
    Steady (s.enter p name pc) := by
  rcases getSemByName_cases h.distinct.no_nul name with ⟨hout, -⟩ | ⟨i, hval, hi⟩
  · rw [System.enter, hout, if_pos rfl]
    exact h
  have hne : (i : ℤ) ≠ OUT_OF_BOUNDS := by simp only [OUT_OF_BOUNDS]; omega
  rw [System.enter, hval, if_neg hne, Int.toNat_natCast]
  refine ⟨h.distinct, fun q hq => ?_, fun q hq => ?_, h.returned⟩
  · by_cases hqp : q = p
    · simp only [hqp, Function.update_self]
      exact hi
    · simp only [Function.update_of_ne hqp] at hq ⊢
      exact h.waits q hq
  · by_cases hqp : q = p
    · simp only [hqp, Function.update_self] at hq
      exact absurd hq hpc
    · simp only [Function.update_of_ne hqp] at hq ⊢
      exact h.took q hq

theorem Steady.access (h : Steady s) {pid : ℕ} (hacc : s.access pid p = some s') : Steady s' := by
  obtain ⟨c', hc, rfl⟩ := Option.map_eq_some_iff.mp hacc
  obtain ⟨hid, hname⟩ := access_name hc
  obtain ⟨hwait, hunlock⟩ := access_pc hc
  have hsame : SameNames s.table (Function.update s.table (s.callers p).slot c'.sem) := fun i => by
    by_cases hi : i = (s.callers p).slot
    · rw [hi, Function.update_self]
      exact ⟨hid, hname⟩
    · rw [Function.update_of_ne hi]
      exact ⟨rfl, rfl⟩
  refine ⟨h.distinct.sameNames hsame, fun q hq => hsame.holds.mpr ?_, fun q hq => ?_, ?_⟩
  · by_cases hqp : q = p
    · subst hqp
      simp only [Function.update_self] at hq ⊢
      obtain ⟨hin, hne⟩ := hwait (of_decide_eq_true hq).1
      exact h.waits q (decide_eq_true ⟨hin, hne⟩)
    · simp only [Function.update_of_ne hqp] at hq ⊢
      exact h.waits q hq
  · by_cases hqp : q = p
    · -- the process has just written the decrement, to the slot it waited for
      subst hqp
      simp only [Function.update_self] at hq ⊢
      obtain ⟨v, hv⟩ := hunlock.mp hq
      change (s.callers q).pc = .decWrite v at hv
      rw [hv]
      exact (h.waits q (by rw [hv]; rfl)).2.2
    · simp only [Function.update_of_ne hqp] at hq ⊢
      exact h.took q hq
  · intro e he
    by_cases hret : (s.callers p).pc = .unlock
    · simp only [if_pos hret, List.mem_cons] at he
      rcases he with rfl | he
      · exact h.took p hret
      · exact h.returned e he
    · simp only [if_neg hret] at he
      exact h.returned e he

theorem Steady.step (h : Steady s) {pid : Proc → ℕ} {e : SystemEvent Proc} (he : ClosesUnwanted s e)
    (hstep : s.step pid e = some s') : Steady s' := by
  cases e with
  | semOpen p name value =>
    rw [System.step] at hstep
    split_ifs at hstep
    obtain ⟨⟨t', r⟩, hval, rfl⟩ := Option.map_eq_some_iff.mp hstep
    exact h.withTable (h.distinct.semOpen hval) fun q hq => (h.waits q hq).semOpen h.distinct hval
  | semClose p name =>
    rw [System.step] at hstep
    split_ifs at hstep
    obtain rfl := Option.some.inj hstep
    exact h.withTable (h.distinct.semClose name) fun q hq =>
      (h.waits q hq).semClose h.distinct (he q hq)
  | semWait p name =>
    rw [System.step] at hstep
    split_ifs at hstep
    obtain rfl := Option.some.inj hstep
    exact h.enter (by simp)
  | semPost p name =>
    rw [System.step] at hstep
    split_ifs at hstep
    obtain rfl := Option.some.inj hstep
    exact h.enter (by simp)
  | access p => exact h.access hstep

/-! ## Runs -/

instance : Decidable (Frees t name idx) :=
  inferInstanceAs (Decidable ((_ ∧ _ ∧ _) ∧ _))

instance [Fintype Proc] (s : System Proc) : (e : SystemEvent Proc) → Decidable (ClosesUnwanted s e)
  | .semClose _ name => inferInstanceAs
      (Decidable (∀ p, (s.callers p).pc.wantsSem → ¬ Frees s.table name (s.callers p).slot))
  | .semOpen .. | .semWait .. | .semPost .. | .access _ => isTrue trivial

/-- The process id of each of two processes. -/
def pidOf (p : Bool) : ℕ := if p then 1 else 2

end TronKernel.Sem
