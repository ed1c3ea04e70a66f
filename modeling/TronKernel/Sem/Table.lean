import Mathlib.Data.Nat.Basic
import Mathlib.Data.List.Basic
import Mathlib.Logic.Function.Basic
import Mathlib.Tactic.Ring

/-!
# `Kernel/semaphore.c`: the table of semaphores

`sem_open`, `sem_close` and the functions they use, for calls that run to their end one after the
other. Names are the bytes in front of the terminating NUL; a `Name` is one that fits into the
table. The functions return `int`s as the code does: a slot's index, `SUCCESS_SIGNAL`, `ERROR` or
`OUT_OF_BOUNDS`. 64-bit fields are reduced modulo `2 ^ 64`.
-/

namespace TronKernel.Sem

abbrev MAX_PROC : ℕ := 50

abbrev MAX_SEMS : ℕ := 256

abbrev NAME_CHAR_LIMIT : ℕ := 1024

abbrev OUT_OF_BOUNDS : ℤ := -1

abbrev ERROR : ℤ := -1

abbrev SUCCESS_SIGNAL : ℤ := 0

/-- `(uint64_t)v` of an `int` or a 64-bit number. -/
def toUInt64 (v : ℤ) : ℕ := (v % 2 ^ 64).toNat

/-- `(int)v`. -/
def toInt (v : ℤ) : ℤ := (v + 2 ^ 31) % 2 ^ 32 - 2 ^ 31

/-- `NO_PID`, as stored in `blocked_processes`. -/
def NO_PID : ℕ := toUInt64 (-1)

/-- A name without NUL that fits into `name`. -/
structure Name where
  bytes : List UInt8
  no_nul : 0 ∉ bytes
  length_lt : bytes.length < NAME_CHAR_LIMIT
deriving DecidableEq

/-- `strcmp`: the end of a string is its NUL. -/
def strcmp : List UInt8 → List UInt8 → ℤ
  | [], [] => 0
  | [], b :: _ => -b.toNat
  | a :: _, [] => a.toNat
  | a :: s, b :: t => if a = b then strcmp s t else a.toNat - b.toNat

/-- `sem_ts`. -/
structure SemT where
  semId : ℤ
  name : List UInt8
  lock : ℕ
  value : ℕ
  openCount : ℕ
  blockedProcesses : ℕ → ℕ
  blockedFirst : ℕ
  blockedLast : ℕ

/-- The array `semaphores`. -/
abbrev Table := ℕ → SemT

/-- The array before any call: all bytes are zero. -/
def zeroTable : Table := fun _ =>
  { semId := 0, name := [], lock := 0, value := 0, openCount := 0, blockedProcesses := fun _ => 0,
    blockedFirst := 0, blockedLast := 0 }

/-- `is_in_use`: an even id marks a semaphore that is not initialised. -/
def isInUse (semId : ℤ) : Bool := semId.tmod 2 ≠ 0

/-- `for (int idx = 0; idx < MAX_SEMS; idx++) if (test(idx)) return idx;` for the remaining
slots. -/
def searchFrom (test : ℕ → Bool) : ℕ → ℕ → ℤ
  | 0, _ => OUT_OF_BOUNDS
  | slots + 1, idx => if test idx then idx else searchFrom test slots (idx + 1)

/-- `get_sem_by_name`. -/
def getSemByName (t : Table) (name : Name) : ℤ :=
  searchFrom (fun idx => strcmp (t idx).name name.bytes = 0 ∧ isInUse (t idx).semId) MAX_SEMS 0

/-- `get_new_sem`. -/
def getNewSem (t : Table) : ℤ := searchFrom (fun idx => !isInUse (t idx).semId) MAX_SEMS 0

/-- `sem_init`: the new semaphore's slot is not what it returns. -/
def semInit (t : Table) (name : Name) (value : ℤ) : Table × ℤ :=
  let idx := getNewSem t
  if idx = OUT_OF_BOUNDS then (t, ERROR)
  else
    (Function.update t idx.toNat
      { semId := idx * 2 + 1
        name := name.bytes
        lock := 0
        value := toUInt64 value
        openCount := 0
        blockedProcesses := fun i =>
          if i < MAX_PROC then NO_PID else (t idx.toNat).blockedProcesses i
        blockedFirst := 0
        blockedLast := 0 }, SUCCESS_SIGNAL)

/-- The end of `sem_open`. `count` is an `int`: the exchange succeeds at once if it holds the 64-bit
counter, and otherwise never. -/
def incOpenCount (t : Table) (idx : ℕ) : Option Table :=
  let count := toInt (t idx).openCount
  if toUInt64 count = (t idx).openCount then
    some (Function.update t idx { t idx with openCount := toUInt64 (toInt (count + 1)) })
  else none

/-- `sem_open`. -/
def semOpen (t : Table) (name : Name) (value : ℤ) : Option (Table × ℤ) :=
  let idx := getSemByName t name
  if idx = OUT_OF_BOUNDS then
    let (t, idx) := semInit t name value
    if idx = OUT_OF_BOUNDS then some (t, ERROR)
    else (incOpenCount t idx.toNat).map fun t => (t, SUCCESS_SIGNAL)
  else (incOpenCount t idx.toNat).map fun t => (t, SUCCESS_SIGNAL)

/-- `sem_close`. -/
def semClose (t : Table) (name : Name) : Table × ℤ :=
  let idx := getSemByName t name
  if idx = OUT_OF_BOUNDS then (t, ERROR)
  else
    let c := toUInt64 ((t idx.toNat).openCount - 1)
    let sem := { t idx.toNat with openCount := c }
    let sem := if toInt c < 1 then { sem with semId := 2 * idx, name := [] } else sem
    (Function.update t idx.toNat sem, SUCCESS_SIGNAL)

/-! ## Looking a name up -/

variable {t : Table} {name : Name} {idx : ℕ}

/-- The search returns the first slot that passes the test, or none does. -/
theorem searchFrom_cases (test : ℕ → Bool) (slots start : ℕ) :
    (searchFrom test slots start = OUT_OF_BOUNDS ∧
        ∀ i, start ≤ i → i < start + slots → test i = false) ∨
      ∃ i : ℕ, searchFrom test slots start = i ∧ start ≤ i ∧ i < start + slots ∧ test i = true ∧
        ∀ j, start ≤ j → j < i → test j = false := by
  induction slots generalizing start with
  | zero => exact Or.inl ⟨rfl, fun i h₁ h₂ => by omega⟩
  | succ slots ih =>
    rw [searchFrom]
    by_cases htest : test start = true
    · rw [if_pos htest]
      exact Or.inr ⟨start, rfl, le_rfl, by omega, htest, fun j h₁ h₂ => by omega⟩
    rw [if_neg htest]
    have hstart : test start = false := by simpa using htest
    rcases ih (start + 1) with ⟨hval, hnone⟩ | ⟨i, hval, hge, hlt, hi, hbefore⟩
    · refine Or.inl ⟨hval, fun i h₁ h₂ => ?_⟩
      by_cases his : i = start
      · rw [his]; exact hstart
      · exact hnone i (by omega) (by omega)
    · refine Or.inr ⟨i, hval, by omega, by omega, hi, fun j h₁ h₂ => ?_⟩
      by_cases hjs : j = start
      · rw [hjs]; exact hstart
      · exact hbefore j (by omega) h₂

/-- Strings without NUL compare equal only if they are. -/
theorem strcmp_eq_zero_iff : ∀ {s u : List UInt8}, 0 ∉ s → 0 ∉ u → (strcmp s u = 0 ↔ s = u)
  | [], [], _, _ => by simp [strcmp]
  | [], b :: u, _, hu => by
    have hb : b.toNat ≠ 0 :=
      fun h0 => hu (by simp [UInt8.toNat_inj.mp (h0.trans UInt8.toNat_zero.symm)])
    simp only [strcmp, reduceCtorEq, iff_false]
    omega
  | a :: s, [], hs, _ => by
    have ha : a.toNat ≠ 0 :=
      fun h0 => hs (by simp [UInt8.toNat_inj.mp (h0.trans UInt8.toNat_zero.symm)])
    simp only [strcmp, reduceCtorEq, iff_false]
    omega
  | a :: s, b :: u, hs, hu => by
    rw [strcmp]
    by_cases hab : a = b
    · rw [if_pos hab, strcmp_eq_zero_iff (fun h => hs (List.mem_cons_of_mem _ h))
        fun h => hu (List.mem_cons_of_mem _ h), hab]
      simp
    · have hne : a.toNat ≠ b.toNat := fun h => hab (UInt8.toNat_inj.mp h)
      rw [if_neg hab]
      simp only [List.cons.injEq, hab, false_and, iff_false]
      omega

end TronKernel.Sem
