import TronKernel.Sem.Table
import TronKernel.Lib.Runs

/-!
# Counting the openers of a semaphore

A run of `sem_open` and `sem_close` calls keeps, for each name, the number of opens and closes since
the name was last created. `open_count` should be their difference. It is as long as every creation
finds slot 0 free (`open_count_tracks_opens`): `sem_init` returns `SUCCESS_SIGNAL`, not the slot of
the new semaphore, and `sem_open` uses what it returns as an index, so it counts the first opener of
every name in slot 0 (`second_name_miscounted`). The other bound is the `int` that the counter goes
through.
-/

namespace TronKernel.Sem

open Runs

/-- A call of the interface. -/
inductive Call where
  | semOpen (name : Name) (value : ℤ)
  | semClose (name : Name)

/-- The name that a call is about. -/
def Call.name : Call → Name
  | .semOpen name _ => name
  | .semClose name => name

/-- The table, and the opens that succeeded and the closes of each name since it was created. -/
structure Session where
  table : Table
  opens : Name → ℕ
  closes : Name → ℕ

/-- Nothing has been called yet. -/
def Session.initial : Session := ⟨zeroTable, fun _ => 0, fun _ => 0⟩

/-- One call. A name is created when it is opened without being in the table. -/
def Session.step (s : Session) : Call → Option Session
  | .semOpen name value => (semOpen s.table name value).map fun r =>
      if r.2 = ERROR then { s with table := r.1 }
      else if getSemByName s.table name = OUT_OF_BOUNDS then
        { table := r.1
          opens := Function.update s.opens name 1
          closes := Function.update s.closes name 0 }
      else { s with table := r.1, opens := Function.update s.opens name (s.opens name + 1) }
  | .semClose name => some
      { s with
        table := (semClose s.table name).1
        closes := Function.update s.closes name (s.closes name + 1) }

/-- The slot holds a semaphore of that name. -/
def Holds (t : Table) (idx : ℕ) (name : Name) : Prop :=
  idx < MAX_SEMS ∧ isInUse (t idx).semId = true ∧ (t idx).name = name.bytes

/-- Each name is in the table exactly if it has openers left, and their number is its count. -/
structure Counted (s : Session) : Prop where
  in_use_iff : ∀ name, (∃ idx, Holds s.table idx name) ↔ s.closes name < s.opens name
  open_count_eq : ∀ name idx, Holds s.table idx name →
    (s.table idx).openCount = s.opens name - s.closes name

/-- A call leaves the counts of all other names alone. -/
def OthersKept (s : Session) (c : Call) (s' : Session) : Prop :=
  ∀ name idx, name ≠ c.name → Holds s.table idx name →
    (s'.table idx).openCount = (s.table idx).openCount

/-- The call returns and keeps the counts of all names. -/
def Counts (s : Session) (c : Call) : Prop :=
  ∃ s', s.step c = some s' ∧ Counted s' ∧ OthersKept s c s'

/-- A new name finds slot 0 free, and an old one has fewer than `2 ^ 31 - 1` openers. -/
def OpensInSlotZero (s : Session) : Call → Prop
  | .semOpen name _ =>
    if getSemByName s.table name = OUT_OF_BOUNDS then getNewSem s.table = 0
    else (s.table (getSemByName s.table name).toNat).openCount < 2 ^ 31 - 1
  | .semClose _ => True

/-! ## One call -/

variable {t : Table} {name : Name} {idx : ℕ}

/-- `get_sem_by_name` finds a slot that holds the name if there is one. -/
theorem getSemByName_cases (hnul : ∀ i, 0 ∉ (t i).name) (name : Name) :
    (getSemByName t name = OUT_OF_BOUNDS ∧ ∀ i, ¬ Holds t i name) ∨
      ∃ i : ℕ, getSemByName t name = i ∧ Holds t i name := by
  have htest : ∀ i, decide (strcmp (t i).name name.bytes = 0 ∧ isInUse (t i).semId = true) = true ↔
      (t i).name = name.bytes ∧ isInUse (t i).semId = true := fun i => by
    rw [decide_eq_true_eq, strcmp_eq_zero_iff (hnul i) name.no_nul]
  rcases searchFrom_cases (fun i => strcmp (t i).name name.bytes = 0 ∧ isInUse (t i).semId)
      MAX_SEMS 0 with ⟨hval, hnone⟩ | ⟨i, hval, -, hlt, hi, -⟩
  · refine Or.inl ⟨hval, fun i ⟨hlt, huse, hname⟩ => ?_⟩
    have := hnone i (Nat.zero_le i) (by omega)
    rw [(htest i).mpr ⟨hname, huse⟩] at this
    exact Bool.noConfusion this
  · obtain ⟨hname, huse⟩ := (htest i).mp hi
    exact Or.inr ⟨i, hval, by omega, huse, hname⟩

theorem incOpenCount_eq (h : (t idx).openCount < 2 ^ 31 - 1) :
    incOpenCount t idx =
      some (Function.update t idx { t idx with openCount := (t idx).openCount + 1 }) := by
  have hcount : toInt (t idx).openCount = (t idx).openCount := by simp only [toInt]; omega
  have hback : toUInt64 (t idx).openCount = (t idx).openCount := by simp only [toUInt64]; omega
  have hnext : toUInt64 (toInt ((t idx).openCount + 1)) = (t idx).openCount + 1 := by
    simp only [toUInt64, toInt]; omega
  simp only [incOpenCount, hcount, hback, hnext, if_true]

/-- As long as only slot 0 is used, it tells which names have openers. -/
structure SlotZeroOnly (s : Session) : Prop where
  no_nul : ∀ i, 0 ∉ (s.table i).name
  others_free : ∀ i, 1 ≤ i → i < MAX_SEMS → isInUse (s.table i).semId = false
  slot : (isInUse (s.table 0).semId = false ∧ ∀ n, s.opens n ≤ s.closes n) ∨
    ∃ n, Holds s.table 0 n ∧ s.closes n + (s.table 0).openCount = s.opens n ∧
      1 ≤ (s.table 0).openCount ∧ (s.table 0).openCount < 2 ^ 31 ∧
      ∀ m, m ≠ n → s.opens m ≤ s.closes m

variable {s : Session}

theorem Name.ext_bytes {n m : Name} (h : n.bytes = m.bytes) : n = m := by
  cases n; cases m; simpa using h

/-- No other slot holds a name. -/
theorem SlotZeroOnly.holds_zero (h : SlotZeroOnly s) (hh : Holds s.table idx name) : idx = 0 := by
  by_contra hne
  have := h.others_free idx (by omega) hh.1
  rw [hh.2.1] at this
  exact Bool.noConfusion this

theorem Holds.name_eq {n m : Name} (h : Holds t idx n) (h' : Holds t idx m) : n = m :=
  Name.ext_bytes (h.2.2.symm.trans h'.2.2)

theorem SlotZeroOnly.counted (h : SlotZeroOnly s) : Counted s := by
  rcases h.slot with ⟨hfree, hle⟩ | ⟨n, hn, hcount, hpos, -, hle⟩
  · have hnone : ∀ m i, ¬ Holds s.table i m := fun m i hm => by
      obtain rfl := h.holds_zero hm
      rw [hm.2.1] at hfree
      exact Bool.noConfusion hfree
    exact ⟨fun m => ⟨fun ⟨i, hi⟩ => absurd hi (hnone m i), fun hlt => absurd (hle m) (by omega)⟩,
      fun m i hm => absurd hm (hnone m i)⟩
  · refine ⟨fun m => ⟨fun ⟨i, hi⟩ => ?_, fun hlt => ?_⟩, fun m i hm => ?_⟩
    · obtain rfl := h.holds_zero hi
      obtain rfl := hi.name_eq hn
      omega
    · by_cases hmn : m = n
      · exact ⟨0, hmn ▸ hn⟩
      · have := hle m hmn
        omega
    · obtain rfl := h.holds_zero hm
      obtain rfl := hm.name_eq hn
      omega

theorem slotZeroOnly_initial : SlotZeroOnly Session.initial where
  no_nul i := by simp [Session.initial, zeroTable]
  others_free i _ _ := by simp [Session.initial, zeroTable, isInUse]
  slot := Or.inl ⟨by simp [Session.initial, zeroTable, isInUse], fun _ => le_rfl⟩

/-- With slot 0 free, opening a name creates it there with one opener. -/
theorem SlotZeroOnly.create (h : SlotZeroOnly s) (value : ℤ)
    (hout : getSemByName s.table name = OUT_OF_BOUNDS) (hnew : getNewSem s.table = 0)
    (hle : ∀ n, s.opens n ≤ s.closes n) :
    ∃ s', s.step (.semOpen name value) = some s' ∧ SlotZeroOnly s' := by
  set t₁ := (semInit s.table name value).1 with ht₁
  have hinit : semInit s.table name value = (t₁, SUCCESS_SIGNAL) := by
    rw [ht₁, semInit, hnew]; rfl
  have hval₁ : t₁ = Function.update s.table 0 (t₁ 0) := by
    rw [ht₁, semInit, hnew]
    simp [OUT_OF_BOUNDS]
  have hslot : (t₁ 0).openCount = 0 ∧ (t₁ 0).semId = 1 ∧ (t₁ 0).name = name.bytes := by
    rw [ht₁, semInit, hnew]
    simp [OUT_OF_BOUNDS]
  have hinc : incOpenCount t₁ 0 =
      some (Function.update t₁ 0 { t₁ 0 with openCount := (t₁ 0).openCount + 1 }) :=
    incOpenCount_eq (by rw [hslot.1]; decide)
  have hopen : semOpen s.table name value =
      some (Function.update t₁ 0 { t₁ 0 with openCount := 1 }, SUCCESS_SIGNAL) := by
    simp only [semOpen, hout, if_true, hinit, SUCCESS_SIGNAL, OUT_OF_BOUNDS, Int.toNat_zero, hinc,
      hslot.1]
    rfl
  refine ⟨_, by simp only [Session.step, hopen]; rfl, ?_⟩
  simp only [SUCCESS_SIGNAL, ERROR, hout, if_true]
  rw [if_neg (by decide), hval₁]
  refine ⟨fun i => ?_, fun i hge hlt => ?_, Or.inr ⟨name, ⟨by decide, ?_, ?_⟩, ?_⟩⟩
  · by_cases hi : i = 0
    · subst hi
      simpa [hslot.2.2] using name.no_nul
    · simpa [hi] using h.no_nul i
  · simpa [show i ≠ 0 by omega] using h.others_free i hge hlt
  · simp [hslot.2.1, isInUse]
  · simp [hslot.2.2]
  · refine ⟨by simp, by simp, by simp, fun m hm => ?_⟩
    simpa [hm] using hle m

/-- Opening the name in slot 0 once more. -/
theorem SlotZeroOnly.reopen (h : SlotZeroOnly s) (value : ℤ) (hn : Holds s.table 0 name)
    (hidx : getSemByName s.table name = 0) (hlt : (s.table 0).openCount < 2 ^ 31 - 1) :
    ∃ s', s.step (.semOpen name value) = some s' ∧ SlotZeroOnly s' := by
  have hopen : semOpen s.table name value =
      some (Function.update s.table 0
        { s.table 0 with openCount := (s.table 0).openCount + 1 }, SUCCESS_SIGNAL) := by
    simp only [semOpen, hidx, OUT_OF_BOUNDS, Int.toNat_zero, incOpenCount_eq hlt]
    rfl
  refine ⟨_, by simp only [Session.step, hopen]; rfl, ?_⟩
  simp only [SUCCESS_SIGNAL, ERROR, hidx, OUT_OF_BOUNDS]
  rw [if_neg (by decide), if_neg (by decide)]
  obtain ⟨huse, hname⟩ := hn.2
  refine ⟨fun i => ?_, fun i hge hlt' => ?_, Or.inr ⟨name, ⟨by decide, ?_, ?_⟩, ?_⟩⟩
  · by_cases hi : i = 0
    · subst hi
      simpa using h.no_nul 0
    · simpa [hi] using h.no_nul i
  · simpa [show i ≠ 0 by omega] using h.others_free i hge hlt'
  · simpa using huse
  · simpa using hname
  · rcases h.slot with ⟨hfree, -⟩ | ⟨n, hn', hcount, hpos, -, hle⟩
    · rw [huse] at hfree
      exact Bool.noConfusion hfree
    obtain rfl := hn.name_eq hn'
    refine ⟨by simp only [Function.update_self]; omega, by simp, ?_, fun m hm => ?_⟩
    · simp only [Function.update_self]; omega
    · simpa [hm] using hle m hm

/-- Closing the name in slot 0, which frees the slot if no opener is left. -/
theorem SlotZeroOnly.close (h : SlotZeroOnly s) (hn : Holds s.table 0 name)
    (hidx : getSemByName s.table name = 0) :
    ∃ s', s.step (.semClose name) = some s' ∧ SlotZeroOnly s' := by
  refine ⟨_, rfl, ?_⟩
  obtain ⟨huse, hname⟩ := hn.2
  rcases h.slot with ⟨hfree, -⟩ | ⟨n, hn', hcount, hpos, hbound, hle⟩
  · rw [huse] at hfree
    exact Bool.noConfusion hfree
  obtain rfl := hn.name_eq hn'
  have hc : toUInt64 ((s.table 0).openCount - 1) = (s.table 0).openCount - 1 := by
    simp only [toUInt64]; omega
  have hint : toInt ((s.table 0).openCount - 1 : ℕ) = ((s.table 0).openCount - 1 : ℕ) := by
    simp only [toInt]; omega
  have hothers : ∀ m, m ≠ name →
      s.opens m ≤ Function.update s.closes name (s.closes name + 1) m := fun m hm => by
    simpa [hm] using hle m hm
  simp only [semClose, hidx, OUT_OF_BOUNDS, Int.toNat_zero, hc, hint]
  rw [if_neg (by decide)]
  by_cases hlast : (s.table 0).openCount = 1
  · rw [if_pos (by omega)]
    refine ⟨fun i => ?_, fun i hge hlt => ?_, Or.inl ⟨by simp [isInUse], fun m => ?_⟩⟩
    · by_cases hi : i = 0
      · simp [hi]
      · simpa [hi] using h.no_nul i
    · simpa [show i ≠ 0 by omega] using h.others_free i hge hlt
    · by_cases hm : m = name
      · subst hm
        simp only [Function.update_self]; omega
      · exact hothers m hm
  · rw [if_neg (by omega)]
    refine ⟨fun i => ?_, fun i hge hlt => ?_,
      Or.inr ⟨name, ⟨by decide, ?_, ?_⟩, ?_, ?_, ?_, hothers⟩⟩
    · by_cases hi : i = 0
      · subst hi
        simpa using h.no_nul 0
      · simpa [hi] using h.no_nul i
    · simpa [show i ≠ 0 by omega] using h.others_free i hge hlt
    · simpa using huse
    · simpa using hname
    all_goals simp only [Function.update_self]; omega

/-- A close of a name that is in no slot only counts as a close. -/
theorem SlotZeroOnly.close_absent (h : SlotZeroOnly s)
    (hout : getSemByName s.table name = OUT_OF_BOUNDS) (hnone : ∀ i, ¬ Holds s.table i name) :
    ∃ s', s.step (.semClose name) = some s' ∧ s'.table = s.table ∧ SlotZeroOnly s' := by
  have htable : (semClose s.table name).1 = s.table := by simp only [semClose, hout, if_true]
  have hmono : ∀ m, s.closes m ≤ Function.update s.closes name (s.closes name + 1) m := fun m => by
    by_cases hm : m = name
    · subst hm; simp
    · simp [hm]
  refine ⟨_, rfl, htable, ?_⟩
  rw [htable]
  refine ⟨h.no_nul, h.others_free, ?_⟩
  rcases h.slot with ⟨hfree, hle⟩ | ⟨n, hn, hcount, hpos, hbound, hle⟩
  · exact Or.inl ⟨hfree, fun m => Nat.le_trans (hle m) (hmono m)⟩
  · have hne : n ≠ name := fun heq => hnone 0 (heq ▸ hn)
    refine Or.inr ⟨n, hn, ?_, hpos, hbound, fun m hm => Nat.le_trans (hle m hm) (hmono m)⟩
    simpa [hne] using hcount

/-- A call that meets the condition keeps slot 0 the only one in use, and the other names' counts
with it. -/
theorem SlotZeroOnly.step (h : SlotZeroOnly s) {c : Call} (hc : OpensInSlotZero s c) :
    ∃ s', s.step c = some s' ∧ SlotZeroOnly s' ∧ OthersKept s c s' := by
  -- no name but the call's own is in slot 0, or the call leaves the table alone
  have hkept : ∀ {s'}, (Holds s.table 0 c.name ∨ (∀ i n, ¬ Holds s.table i n) ∨
      s'.table = s.table) → OthersKept s c s' := by
    rintro s' (hn | hnone | htable) m i hm hh
    · obtain rfl := h.holds_zero hh
      exact absurd (hh.name_eq hn) hm
    · exact absurd hh (hnone i m)
    · rw [htable]
  have hfound : ∀ {i : ℕ} {n : Name}, getSemByName s.table n = i → Holds s.table i n →
      getSemByName s.table n = 0 ∧ Holds s.table 0 n := fun hval hn => by
    obtain rfl := h.holds_zero hn
    exact ⟨hval, hn⟩
  cases c with
  | semOpen name value =>
    rcases getSemByName_cases h.no_nul name with ⟨hout, hnone⟩ | ⟨i, hval, hn⟩
    · rw [OpensInSlotZero, if_pos hout] at hc
      rcases h.slot with ⟨hfree, hle⟩ | ⟨n, hn, -⟩
      · obtain ⟨s', hval, hs'⟩ := h.create value hout hc hle
        refine ⟨s', hval, hs', hkept (Or.inr (Or.inl fun i n hn => ?_))⟩
        obtain rfl := h.holds_zero hn
        rw [hn.2.1] at hfree
        exact Bool.noConfusion hfree
      · -- slot 0 is taken, so the new semaphore would go elsewhere
        rcases searchFrom_cases (fun idx => !isInUse (s.table idx).semId) MAX_SEMS 0 with
          ⟨hval, -⟩ | ⟨i, hval, -, -, hi, -⟩
        · rw [getNewSem, hval] at hc
          exact absurd hc (by decide)
        · rw [getNewSem, hval] at hc
          obtain rfl : i = 0 := by exact_mod_cast hc
          rw [hn.2.1] at hi
          exact Bool.noConfusion hi
    · obtain ⟨hidx, hn⟩ := hfound hval hn
      rw [OpensInSlotZero, if_neg (by rw [hidx]; decide), hidx, Int.toNat_zero] at hc
      obtain ⟨s', hval, hs'⟩ := h.reopen value hn hidx hc
      exact ⟨s', hval, hs', hkept (Or.inl hn)⟩
  | semClose name =>
    rcases getSemByName_cases h.no_nul name with ⟨hout, hnone⟩ | ⟨i, hval, hn⟩
    · obtain ⟨s', hval, htable, hs'⟩ := h.close_absent hout hnone
      exact ⟨s', hval, hs', hkept (Or.inr (Or.inr htable))⟩
    · obtain ⟨hidx, hn⟩ := hfound hval hn
      obtain ⟨s', hval, hs'⟩ := h.close hn hidx
      exact ⟨s', hval, hs', hkept (Or.inl hn)⟩

/-! ## Runs -/

/-- As long as every new name finds slot 0 free, and no counter reaches the bound of `int`, the
counts are right after every call and no call disturbs another name. -/
theorem open_count_tracks_opens (calls : List Call)
    (hslot : Throughout Session.step OpensInSlotZero Session.initial calls) :
    Throughout Session.step Counts Session.initial calls := by
  refine Throughout.of_invariant slotZeroOnly_initial hslot fun s c hs hc => ?_
  obtain ⟨s', hval, hs', hkept⟩ := hs.step hc
  refine ⟨⟨s', hval, hs'.counted, hkept⟩, fun s'' hval' => ?_⟩
  rw [hval] at hval'
  exact Option.some.inj hval' ▸ hs'

instance (s : Session) : (c : Call) → Decidable (OpensInSlotZero s c)
  | .semOpen name _ =>
    inferInstanceAs (Decidable (if getSemByName s.table name = OUT_OF_BOUNDS then _ else _))
  | .semClose _ => isTrue trivial

/-- A name of one letter. -/
def letter (b : UInt8) (h : b ≠ 0) : Name :=
  ⟨[b], by simpa using h.symm, show 1 < NAME_CHAR_LIMIT by decide⟩

/-- A name opened twice, closed twice and then another name in its place. -/
theorem open_count_tracks_one_at_a_time :
    Throughout Session.step Counts Session.initial
      [.semOpen (letter 65 (by decide)) 1, .semOpen (letter 65 (by decide)) 1,
        .semClose (letter 65 (by decide)), .semClose (letter 65 (by decide)),
        .semOpen (letter 66 (by decide)) 3] :=
  open_count_tracks_opens _ (by decide +kernel)

/-- Two names: the opener of the second one is counted for the first. -/
theorem second_name_miscounted :
    ¬ Throughout Session.step Counts Session.initial
      [.semOpen (letter 65 (by decide)) 1, .semOpen (letter 66 (by decide)) 1] := by
  intro h
  obtain ⟨s₁, h₁, -⟩ := h.1
  obtain ⟨⟨s₂, h₂, hcounted, -⟩, -⟩ := h.2 s₁ h₁
  have hrun : (run Session.step Session.initial
      [.semOpen (letter 65 (by decide)) 1, .semOpen (letter 66 (by decide)) 1]).map
        (fun s => ((s.table 0).semId, (s.table 0).name, (s.table 0).openCount,
          s.opens (letter 65 (by decide)), s.closes (letter 65 (by decide))))
      = some (1, [65], 2, 1, 0) := by
    decide +kernel
  rw [run_cons, h₁, Option.bind_some, run_cons, h₂] at hrun
  simp only [Option.bind_some, run_nil, Option.map_some, Option.some.injEq, Prod.mk.injEq] at hrun
  obtain ⟨hid, hname, hcount, hopens, hcloses⟩ := hrun
  have hheld : Holds s₂.table 0 (letter 65 (by decide)) := ⟨by decide, by rw [hid]; decide, hname⟩
  have := hcounted.open_count_eq _ 0 hheld
  rw [hcount, hopens, hcloses] at this
  exact absurd this (by decide)

end TronKernel.Sem
