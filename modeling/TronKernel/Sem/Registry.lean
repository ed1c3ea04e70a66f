import TronKernel.Sem.Counting

/-!
# The table of semaphores as a registry

What `sem_open` and `sem_close` do to the table, by cases, and what any sequence of them keeps:
names are found where they are, no two semaphores share a name, and a name that is not in the table
takes the first free slot. Which opener is counted where is the matter of `Sem.Counting`; here a
call may change the counters of other semaphores, but nothing else of theirs (`SameButCount`).

`sem_open` does not return once the counter it goes through has left the range of `int`. No sequence
of fewer than `2 ^ 31 - 1` calls comes that far.
-/

namespace TronKernel.Sem

open Runs

/-- The semaphore that `sem_init` puts into slot `idx`. -/
def newSem (t : Table) (idx : ℕ) (name : Name) (value : ℤ) : SemT where
  semId := idx * 2 + 1
  name := name.bytes
  lock := 0
  value := toUInt64 value
  openCount := 0
  blockedProcesses i := if i < MAX_PROC then NO_PID else (t idx).blockedProcesses i
  blockedFirst := 0
  blockedLast := 0

/-- The two semaphores agree but for the counter of openers. -/
def SameButCount (sem sem' : SemT) : Prop := ∃ c, sem' = { sem with openCount := c }

/-- A call on the table. -/
def stepTable (t : Table) : Call → Option Table
  | .semOpen name value => (semOpen t name value).map Prod.fst
  | .semClose name => some (semClose t name).1

/-! ## One call, by cases -/

variable {t t' : Table} {name : Name} {value : ℤ} {idx : ℕ} {r : ℤ}

theorem SameButCount.refl (sem : SemT) : SameButCount sem sem := ⟨sem.openCount, rfl⟩

theorem SameButCount.holds (h : ∀ i, SameButCount (t i) (t' i)) {i : ℕ} {name : Name} :
    Holds t' i name ↔ Holds t i name := by
  obtain ⟨c, hc⟩ := h i
  simp only [Holds, hc]

/-- `sem_init` takes the first free slot. -/
theorem semInit_eq (hnew : getNewSem t = idx) :
    semInit t name value = (Function.update t idx (newSem t idx name value), SUCCESS_SIGNAL) := by
  have hne : (idx : ℤ) ≠ OUT_OF_BOUNDS := by simp only [OUT_OF_BOUNDS]; omega
  simp only [semInit, hnew, if_neg hne, Int.toNat_natCast]
  rfl

theorem getNewSem_cases (t : Table) :
    (getNewSem t = OUT_OF_BOUNDS ∧ ∀ i < MAX_SEMS, isInUse (t i).semId = true) ∨
      ∃ i : ℕ, getNewSem t = i ∧ i < MAX_SEMS ∧ isInUse (t i).semId = false ∧
        ∀ j < i, isInUse (t j).semId = true := by
  rcases searchFrom_cases (fun i => !isInUse (t i).semId) MAX_SEMS 0 with
    ⟨hval, hnone⟩ | ⟨i, hval, -, hlt, hi, hbefore⟩
  · exact Or.inl ⟨hval, fun i hi => by simpa using hnone i (Nat.zero_le i) (by omega)⟩
  · exact Or.inr ⟨i, hval, by omega, by simpa using hi,
      fun j hj => by simpa using hbefore j (Nat.zero_le j) hj⟩

/-- The end of `sem_open` changes one counter. -/
theorem incOpenCount_same (h : incOpenCount t idx = some t') (i : ℕ) :
    SameButCount (t i) (t' i) := by
  rw [incOpenCount] at h
  split_ifs at h
  obtain rfl := Option.some.inj h
  by_cases hi : i = idx
  · subst hi
    exact ⟨_, Function.update_self ..⟩
  · rw [Function.update_of_ne hi]
    exact SameButCount.refl _

/-- `sem_open` finds the name, finds no slot, or makes a semaphore in the first free slot and counts
its opener in slot 0. -/
theorem semOpen_cases (hnul : ∀ i, 0 ∉ (t i).name) (name : Name) (value : ℤ) :
    (∃ i : ℕ, Holds t i name ∧
        semOpen t name value = (incOpenCount t i).map fun t => (t, SUCCESS_SIGNAL)) ∨
      (∀ i, ¬ Holds t i name) ∧
        ((∀ i < MAX_SEMS, isInUse (t i).semId = true) ∧ semOpen t name value = some (t, ERROR) ∨
        ∃ i : ℕ, i < MAX_SEMS ∧ isInUse (t i).semId = false ∧
          (∀ j < i, isInUse (t j).semId = true) ∧
          semOpen t name value = (incOpenCount (Function.update t i (newSem t i name value)) 0).map
            fun t => (t, SUCCESS_SIGNAL)) := by
  rcases getSemByName_cases hnul name with ⟨hout, hnone⟩ | ⟨i, hval, hi⟩
  · refine Or.inr ⟨hnone, ?_⟩
    rcases getNewSem_cases t with ⟨hnew, hfull⟩ | ⟨i, hnew, hlt, hfree, hbefore⟩
    · refine Or.inl ⟨hfull, ?_⟩
      have hinit : semInit t name value = (t, ERROR) := by simp only [semInit, hnew, if_true]
      simp only [semOpen, hout, hinit, if_true]
    · refine Or.inr ⟨i, hlt, hfree, hbefore, ?_⟩
      simp only [semOpen, hout, semInit_eq hnew, SUCCESS_SIGNAL, OUT_OF_BOUNDS, if_true,
        Int.toNat_zero]
      rfl
  · refine Or.inl ⟨i, hi, ?_⟩
    have hne : (i : ℤ) ≠ OUT_OF_BOUNDS := by simp only [OUT_OF_BOUNDS]; omega
    simp only [semOpen, hval, if_neg hne, Int.toNat_natCast]

/-- `sem_close` finds no such name, or it lowers the counter and may free the slot. -/
theorem semClose_cases (hnul : ∀ i, 0 ∉ (t i).name) (name : Name) :
    ((∀ i, ¬ Holds t i name) ∧ semClose t name = (t, ERROR)) ∨
      ∃ i : ℕ, Holds t i name ∧ (semClose t name).2 = SUCCESS_SIGNAL ∧
        ((semClose t name).1 = Function.update t i
            { t i with openCount := toUInt64 ((t i).openCount - 1) } ∧
            1 ≤ toInt (toUInt64 ((t i).openCount - 1)) ∨
          (semClose t name).1 = Function.update t i
            { t i with
              openCount := toUInt64 ((t i).openCount - 1)
              semId := 2 * i
              name := [] } ∧
            toInt (toUInt64 ((t i).openCount - 1)) < 1) := by
  rcases getSemByName_cases hnul name with ⟨hout, hnone⟩ | ⟨i, hval, hi⟩
  · exact Or.inl ⟨hnone, by simp only [semClose, hout, if_true]⟩
  · refine Or.inr ⟨i, hi, ?_⟩
    have hne : (i : ℤ) ≠ OUT_OF_BOUNDS := by simp only [OUT_OF_BOUNDS]; omega
    simp only [semClose, hval, if_neg hne, Int.toNat_natCast, true_and]
    generalize toUInt64 ((t i).openCount - 1) = c
    by_cases hlast : toInt c < 1
    · exact Or.inr ⟨by rw [if_pos hlast], hlast⟩
    · exact Or.inl ⟨by rw [if_neg hlast], by omega⟩

/-! ## What a sequence of calls keeps -/

/-- Names are strings, and no two slots in use share one. -/
structure Distinct (t : Table) : Prop where
  no_nul : ∀ i, 0 ∉ (t i).name
  name_inj : ∀ i < MAX_SEMS, ∀ j < MAX_SEMS, isInUse (t i).semId = true →
    isInUse (t j).semId = true → (t i).name = (t j).name → i = j

theorem distinct_zeroTable : Distinct zeroTable where
  no_nul i := by simp [zeroTable]
  name_inj i _ j _ hi := by simp [zeroTable, isInUse] at hi

theorem isInUse_odd (idx : ℕ) : isInUse (idx * 2 + 1) = true := by
  have hodd : (idx * 2 + 1 : ℤ).tmod 2 = 1 := by
    rw [Int.tmod_eq_emod_of_nonneg (by omega)]
    omega
  simp [isInUse, hodd]

theorem isInUse_even (idx : ℕ) : isInUse (2 * idx) = false := by
  simp [isInUse]

theorem Distinct.same (h : Distinct t) (hsame : ∀ i, SameButCount (t i) (t' i)) : Distinct t' where
  no_nul i := by
    obtain ⟨c, hc⟩ := hsame i
    rw [hc]
    exact h.no_nul i
  name_inj i hi j hj := by
    obtain ⟨c, hc⟩ := hsame i
    obtain ⟨d, hd⟩ := hsame j
    rw [hc, hd]
    exact h.name_inj i hi j hj

/-- A semaphore with a new name may be put into any slot. -/
theorem Distinct.init (h : Distinct t) (hnone : ∀ i, ¬ Holds t i name) :
    Distinct (Function.update t idx (newSem t idx name value)) where
  no_nul i := by
    by_cases hi : i = idx
    · rw [hi, Function.update_self]
      exact name.no_nul
    · rw [Function.update_of_ne hi]
      exact h.no_nul i
  name_inj i hi j hj hui huj heq := by
    by_cases hii : i = idx
    · by_cases hji : j = idx
      · rw [hii, hji]
      · rw [hii, Function.update_self, Function.update_of_ne hji] at heq
        rw [Function.update_of_ne hji] at huj
        exact absurd ⟨hj, huj, heq.symm⟩ (hnone j)
    · rw [Function.update_of_ne hii] at hui heq
      by_cases hji : j = idx
      · rw [hji, Function.update_self] at heq
        exact absurd ⟨hi, hui, heq⟩ (hnone i)
      · rw [Function.update_of_ne hji] at huj heq
        exact h.name_inj i hi j hj hui huj heq

/-- Freeing a slot keeps the other names apart. -/
theorem Distinct.free (h : Distinct t) {sem : SemT} (huse : isInUse sem.semId = false)
    (hname : sem.name = []) : Distinct (Function.update t idx sem) where
  no_nul i := by
    by_cases hi : i = idx
    · rw [hi, Function.update_self, hname]
      exact List.not_mem_nil
    · rw [Function.update_of_ne hi]
      exact h.no_nul i
  name_inj i hi j hj hui huj heq := by
    have hii : i ≠ idx := by
      rintro rfl
      rw [Function.update_self, huse] at hui
      exact Bool.noConfusion hui
    have hji : j ≠ idx := by
      rintro rfl
      rw [Function.update_self, huse] at huj
      exact Bool.noConfusion huj
    rw [Function.update_of_ne hii] at hui heq
    rw [Function.update_of_ne hji] at huj heq
    exact h.name_inj i hi j hj hui huj heq

theorem update_same {sem : SemT} (h : SameButCount (t idx) sem) (i : ℕ) :
    SameButCount (t i) (Function.update t idx sem i) := by
  by_cases hi : i = idx
  · rw [hi, Function.update_self]
    exact h
  · rw [Function.update_of_ne hi]
    exact SameButCount.refl _

theorem Distinct.semOpen (h : Distinct t) (hopen : semOpen t name value = some (t', r)) :
    Distinct t' := by
  rcases semOpen_cases h.no_nul name value with
    ⟨i, hi, hval⟩ | ⟨hnone, ⟨-, hval⟩ | ⟨i, -, -, -, hval⟩⟩
  all_goals rw [hval] at hopen
  · obtain ⟨t₁, hinc, heq⟩ := Option.map_eq_some_iff.mp hopen
    obtain ⟨rfl, -⟩ := Prod.mk.inj heq
    exact h.same (incOpenCount_same hinc)
  · obtain ⟨rfl, -⟩ := Prod.mk.inj (Option.some.inj hopen)
    exact h
  · obtain ⟨t₁, hinc, heq⟩ := Option.map_eq_some_iff.mp hopen
    obtain ⟨rfl, -⟩ := Prod.mk.inj heq
    exact (h.init hnone).same (incOpenCount_same hinc)

theorem Distinct.semClose (h : Distinct t) (name : Name) : Distinct (semClose t name).1 := by
  rcases semClose_cases h.no_nul name with ⟨-, hval⟩ | ⟨i, -, -, ⟨hval, -⟩ | ⟨hval, -⟩⟩
  all_goals rw [hval]
  · exact h
  · exact h.same (update_same ⟨_, rfl⟩)
  · exact h.free (isInUse_even i) rfl

/-! ## How far the counters get -/

/-- No semaphore in use counts more than `n` openers. -/
def CountsLe (n : ℕ) (t : Table) : Prop :=
  ∀ i < MAX_SEMS, isInUse (t i).semId = true → (t i).openCount ≤ n

variable {n : ℕ}

/-- One more opener. -/
theorem CountsLe.inc (h : CountsLe n t) (hn : n < 2 ^ 31 - 1) (hidx : (t idx).openCount ≤ n) :
    ∃ t', incOpenCount t idx = some t' ∧ CountsLe (n + 1) t' := by
  refine ⟨_, incOpenCount_eq (by omega), fun i hi huse => ?_⟩
  by_cases hii : i = idx
  · rw [hii, Function.update_self]
    exact Nat.succ_le_succ hidx
  · rw [Function.update_of_ne hii] at huse ⊢
    exact Nat.le_succ_of_le (h i hi huse)

/-- As long as the counters are far from the end of `int`, `sem_open` returns. -/
theorem CountsLe.semOpen (h : CountsLe n t) (hd : Distinct t) (hn : n < 2 ^ 31 - 1) (name : Name)
    (value : ℤ) : ∃ t' r, semOpen t name value = some (t', r) ∧ CountsLe (n + 1) t' := by
  rcases semOpen_cases hd.no_nul name value with
    ⟨i, hi, hval⟩ | ⟨-, ⟨-, hval⟩ | ⟨i, -, -, hbefore, hval⟩⟩
  · obtain ⟨t', hinc, hle⟩ := h.inc hn (h i hi.1 hi.2.1)
    exact ⟨t', _, by rw [hval, hinc]; rfl, hle⟩
  · exact ⟨t, _, hval, fun i hi huse => Nat.le_succ_of_le (h i hi huse)⟩
  · set t₁ := Function.update t i (newSem t i name value)
    have hle₁ : CountsLe n t₁ := fun j hj huse => by
      by_cases hji : j = i
      · simp only [t₁, hji, Function.update_self, newSem, Nat.zero_le]
      · simp only [t₁, Function.update_of_ne hji] at huse ⊢
        exact h j hj huse
    -- slot 0 is taken now, by the new semaphore if not by another one
    have hzero : isInUse (t₁ 0).semId = true := by
      by_cases hi : i = 0
      · simp only [t₁, hi, Function.update_self, newSem]
        exact isInUse_odd 0
      · simp only [t₁, Function.update_of_ne (Ne.symm hi)]
        exact hbefore 0 (Nat.pos_of_ne_zero hi)
    obtain ⟨t', hinc, hle⟩ := hle₁.inc hn (hle₁ 0 (by decide) hzero)
    exact ⟨t', _, by rw [hval, hinc]; rfl, hle⟩

theorem CountsLe.semClose (h : CountsLe n t) (hd : Distinct t) (name : Name) :
    CountsLe n (semClose t name).1 := by
  rcases semClose_cases hd.no_nul name with
    ⟨-, hval⟩ | ⟨i, hi, -, ⟨hval, hpos⟩ | ⟨hval, -⟩⟩
  all_goals rw [hval]
  · exact h
  · intro j hj huse
    by_cases hji : j = i
    · subst hji
      rw [Function.update_self]
      have hle := h j hj hi.2.1
      simp only [toInt, toUInt64] at hpos ⊢
      omega
    · rw [Function.update_of_ne hji] at huse ⊢
      exact h j hj huse
  · intro j hj huse
    by_cases hji : j = i
    · rw [hji, Function.update_self, isInUse_even] at huse
      exact Bool.noConfusion huse
    · rw [Function.update_of_ne hji] at huse ⊢
      exact h j hj huse

/-! ## Runs -/

theorem Distinct.step (h : Distinct t) {c : Call} (hstep : stepTable t c = some t') :
    Distinct t' := by
  cases c with
  | semOpen name value =>
    obtain ⟨⟨t₁, r⟩, hval, rfl⟩ := Option.map_eq_some_iff.mp hstep
    exact h.semOpen hval
  | semClose name =>
    obtain rfl := Option.some.inj hstep
    exact h.semClose name

/-- A run adds at most one opener for each of its calls. -/
theorem CountsLe.run {calls : List Call} (h : CountsLe n t) (hd : Distinct t)
    (hn : n + calls.length < 2 ^ 31 - 1) (hrun : run stepTable t calls = some t') :
    CountsLe (n + calls.length) t' := by
  induction calls generalizing n t with
  | nil =>
    obtain rfl := Option.some.inj hrun
    exact h
  | cons c calls ih =>
    rw [List.length_cons] at hn ⊢
    rw [run_cons, Option.bind_eq_some_iff] at hrun
    obtain ⟨t₁, hstep, hrun⟩ := hrun
    have hd₁ := hd.step hstep
    have hle₁ : CountsLe (n + 1) t₁ := by
      cases c with
      | semOpen name value =>
        obtain ⟨t₂, r, hval, hle⟩ := h.semOpen hd (by omega) name value
        rw [stepTable, hval] at hstep
        exact Option.some.inj hstep ▸ hle
      | semClose name =>
        obtain rfl := Option.some.inj hstep
        exact fun i hi huse => Nat.le_succ_of_le (h.semClose hd name i hi huse)
    have := ih hle₁ hd₁ (by omega) hrun
    rwa [show n + (calls.length + 1) = n + 1 + calls.length by omega]

/-- What a caller may expect of the table. -/
structure Registry (t : Table) : Prop where
  name_inj : ∀ i < MAX_SEMS, ∀ j < MAX_SEMS, isInUse (t i).semId = true →
    isInUse (t j).semId = true → (t i).name = (t j).name → i = j
  lookup : ∀ name, (∃ i : ℕ, getSemByName t name = i ∧ Holds t i name) ∨
    getSemByName t name = OUT_OF_BOUNDS ∧ ∀ i, ¬ Holds t i name
  error_iff : ∀ name value, (∃ t', semOpen t name value = some (t', ERROR)) ↔
    (∀ i, ¬ Holds t i name) ∧ ∀ i < MAX_SEMS, isInUse (t i).semId = true
  create : ∀ name value t', semOpen t name value = some (t', SUCCESS_SIGNAL) →
    (∀ i, ¬ Holds t i name) → ∃ i, Holds t' i name ∧
      (0 ≤ value → value < 2 ^ 31 → ((t' i).value : ℤ) = value) ∧ (t' i).lock = 0 ∧
      (t' i).blockedFirst = 0 ∧ (t' i).blockedLast = 0
  reopen : ∀ name value i t' r, Holds t i name → semOpen t name value = some (t', r) →
    r = SUCCESS_SIGNAL ∧ Holds t' i name ∧ SameButCount (t i) (t' i)

theorem Distinct.registry (h : Distinct t) : Registry t where
  name_inj := h.name_inj
  lookup name := (getSemByName_cases h.no_nul name).symm
  error_iff name value := by
    have hnot : ∀ {o : Option Table} {t' : Table},
        o.map (fun t => (t, SUCCESS_SIGNAL)) ≠ some (t', ERROR) := fun heq => by
      obtain ⟨t₁, -, heq⟩ := Option.map_eq_some_iff.mp heq
      exact absurd (Prod.mk.inj heq).2 (by decide)
    rcases semOpen_cases h.no_nul name value with
      ⟨i, hi, hval⟩ | ⟨hnone, ⟨hfull, hval⟩ | ⟨i, hlt, hfree, -, hval⟩⟩
    · exact ⟨fun ⟨t', heq⟩ => absurd (hval ▸ heq) hnot, fun hnone => absurd hi (hnone.1 i)⟩
    · exact ⟨fun _ => ⟨hnone, hfull⟩, fun _ => ⟨t, hval⟩⟩
    · refine ⟨fun ⟨t', heq⟩ => absurd (hval ▸ heq) hnot, fun hfull => ?_⟩
      rw [hfull.2 i hlt] at hfree
      exact Bool.noConfusion hfree
  create name value t' hopen hnone := by
    rcases semOpen_cases h.no_nul name value with
      ⟨i, hi, -⟩ | ⟨-, ⟨-, hval⟩ | ⟨i, hlt, -, -, hval⟩⟩
    · exact absurd hi (hnone i)
    · rw [hval] at hopen
      exact absurd (Prod.mk.inj (Option.some.inj hopen)).2 (by decide)
    · rw [hval] at hopen
      obtain ⟨t₁, hinc, heq⟩ := Option.map_eq_some_iff.mp hopen
      obtain ⟨rfl, -⟩ := Prod.mk.inj heq
      obtain ⟨c, hc⟩ := incOpenCount_same hinc i
      rw [Function.update_self] at hc
      refine ⟨i, ⟨hlt, ?_, ?_⟩, fun hpos hmax => ?_, ?_, ?_, ?_⟩
      all_goals rw [hc]
      · exact isInUse_odd i
      · rfl
      · simp only [newSem, toUInt64]
        omega
      all_goals rfl
  reopen name value i t' r hi hopen := by
    rcases semOpen_cases h.no_nul name value with ⟨j, hj, hval⟩ | ⟨hnone, -⟩
    · rw [hval] at hopen
      obtain ⟨t₁, hinc, heq⟩ := Option.map_eq_some_iff.mp hopen
      obtain ⟨rfl, rfl⟩ := Prod.mk.inj heq
      have hsame := incOpenCount_same hinc
      exact ⟨rfl, (SameButCount.holds hsame).mpr hi, hsame i⟩
    · exact absurd hi (hnone i)

/-- After any sequence of calls on the zero table it is a registry. A call of `sem_open` behind
fewer than `2 ^ 31 - 1` others returns. -/
theorem semaphore_registry (calls : List Call) (t : Table)
    (hrun : run stepTable zeroTable calls = some t) :
    Registry t ∧ (calls.length < 2 ^ 31 - 1 →
      ∀ name value, (semOpen t name value).isSome = true) := by
  have hd : Distinct t := run_preserves (P := fun _ _ => True) distinct_zeroTable
    (throughout_of_forall fun _ _ => trivial) (fun t c t' ht _ hstep => ht.step hstep) hrun
  refine ⟨hd.registry, fun hlen name value => ?_⟩
  have hzero : CountsLe 0 zeroTable := fun i _ huse => by simp [zeroTable, isInUse] at huse
  have hle := hzero.run distinct_zeroTable (by omega) hrun
  obtain ⟨t', r, hval, -⟩ := hle.semOpen hd (by omega) name value
  rw [hval]
  rfl

/-- Three names, of which the first one is closed and opened again in its old slot. -/
theorem semaphore_registry_three : ∃ t,
    run stepTable zeroTable
      [.semOpen (letter 65 (by decide)) 1, .semOpen (letter 66 (by decide)) 2,
        .semClose (letter 65 (by decide)), .semClose (letter 65 (by decide)),
        .semOpen (letter 67 (by decide)) 0] = some t ∧ Registry t := by
  have hsome : (run stepTable zeroTable
      [.semOpen (letter 65 (by decide)) 1, .semOpen (letter 66 (by decide)) 2,
        .semClose (letter 65 (by decide)), .semClose (letter 65 (by decide)),
        .semOpen (letter 67 (by decide)) 0]).isSome = true := by decide +kernel
  obtain ⟨t, hrun⟩ := Option.isSome_iff_exists.mp hsome
  exact ⟨t, hrun, (semaphore_registry _ t hrun).1⟩

end TronKernel.Sem
