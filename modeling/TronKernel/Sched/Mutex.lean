import TronKernel.Sched.Access

/-!
# The kernel's own semaphores

`newProcess`, `add_process` and `destroy_node` take a semaphore and give it back. While nobody else
uses it, `sem_wait` succeeds at once and `sem_post` restores the table (`semWait_free`,
`semPost_held`). A name that is not in the table protects nothing and changes nothing.
-/

namespace TronKernel.Sched

open Programs Sem

variable {H : Type} {s : Kernel H} {t t' : Sem.Table} {name : List UInt8}

theorem schedulerDisable_eq {back next : ℕ} (hback : toUInt64 (toInt s.disableCount) = back)
    (hnext : toUInt64 (toInt (toInt s.disableCount + 1)) = next) :
    schedulerDisable s = if back = s.disableCount then .ok () { s with disableCount := next }
      else .error .diverges s := by
  unfold schedulerDisable
  rw [get_bind]
  generalize toUInt64 (toInt (toInt s.disableCount + 1)) = n at *
  generalize toUInt64 (toInt s.disableCount) = b at *
  rw [hback, hnext, get_bind]
  split_ifs <;> rfl

theorem schedulerDisable_ok (h : s.disableCount < 2 ^ 31 - 1) :
    schedulerDisable s = .ok () { s with disableCount := s.disableCount + 1 } := by
  have hback : toUInt64 (toInt s.disableCount) = s.disableCount := by
    simp only [toUInt64, toInt]; omega
  have hnext : toUInt64 (toInt (toInt s.disableCount + 1)) = s.disableCount + 1 := by
    simp only [toUInt64, toInt]; omega
  rw [schedulerDisable_eq hback hnext, if_pos rfl]

/-- Past the range of an `int` the exchange may never succeed. -/
theorem schedulerDisable_cases (s : Kernel H) :
    (∃ d, schedulerDisable s = .ok () { s with disableCount := d } ∧
        (s.disableCount < 2 ^ 31 - 1 → d = s.disableCount + 1)) ∨
      (2 ^ 31 - 1 ≤ s.disableCount ∧ schedulerDisable s = .error .diverges s) := by
  rcases Nat.lt_or_ge s.disableCount (2 ^ 31 - 1) with hlt | hge
  · exact Or.inl ⟨_, schedulerDisable_ok hlt, fun _ => rfl⟩
  · have hnot : ¬ s.disableCount < 2 ^ 31 - 1 := Nat.not_lt.mpr hge
    have heq := schedulerDisable_eq (s := s) rfl rfl
    by_cases hback : toUInt64 (toInt s.disableCount) = s.disableCount
    · exact Or.inl ⟨_, heq.trans (if_pos hback), fun h => absurd h hnot⟩
    · exact Or.inr ⟨hge, heq.trans (if_neg hback)⟩

theorem schedulerEnable_ok :
    schedulerEnable s = .ok () { s with disableCount := s.disableCount - 1 } := by
  rw [schedulerEnable, modify_apply]
  by_cases h : 0 < s.disableCount
  · rw [if_pos h]
  · rw [if_neg h, show s.disableCount - 1 = s.disableCount by omega]

theorem semIndex_congr (h : ∀ i, (t' i).name = (t i).name ∧ (t' i).semId = (t i).semId) :
    semIndex t' name = semIndex t name := by
  unfold semIndex
  congr 1
  funext i
  rw [(h i).1, (h i).2]

/-- The semaphore of that name is not held, if there is one, and nobody waits for it. -/
def MutexFree (t : Sem.Table) (name : List UInt8) : Prop :=
  semIndex t name ≠ OUT_OF_BOUNDS →
    (t (semIndex t name).toNat).lock = 0 ∧ 0 < (t (semIndex t name).toNat).value ∧
      (t (semIndex t name).toNat).value < 2 ^ 64 ∧
      (t (semIndex t name).toNat).blockedLast = (t (semIndex t name).toNat).blockedFirst

instance (t : Sem.Table) (name : List UInt8) : Decidable (MutexFree t name) :=
  inferInstanceAs (Decidable (_ → _))

/-- The semaphore of that name is not held, if there is one. -/
def Takeable (t : Sem.Table) (name : List UInt8) : Prop :=
  semIndex t name ≠ OUT_OF_BOUNDS →
    (t (semIndex t name).toNat).lock = 0 ∧ 0 < (t (semIndex t name).toNat).value ∧
      (t (semIndex t name).toNat).value < 2 ^ 64

instance (t : Sem.Table) (name : List UInt8) : Decidable (Takeable t name) :=
  inferInstanceAs (Decidable (_ → _))

/-- The semaphore of that name is not held and its value is not 0, if there is one. -/
def Unlocked (t : Sem.Table) (name : List UInt8) : Prop :=
  semIndex t name ≠ OUT_OF_BOUNDS →
    (t (semIndex t name).toNat).lock = 0 ∧ 0 < (t (semIndex t name).toNat).value

theorem Takeable.unlocked (h : Takeable t name) : Unlocked t name := fun hidx =>
  ⟨(h hidx).1, (h hidx).2.1⟩

theorem Unlocked.takeable (h : Unlocked t name) (hvalue : ∀ i, (t i).value < 2 ^ 64) :
    Takeable t name := fun hidx => ⟨(h hidx).1, (h hidx).2, hvalue _⟩

theorem MutexFree.takeable (h : MutexFree t name) : Takeable t name := fun hidx =>
  ⟨(h hidx).1, (h hidx).2.1, (h hidx).2.2.1⟩

/-- The table while the semaphore is held. -/
def held (t : Sem.Table) (name : List UInt8) : Sem.Table :=
  if semIndex t name = OUT_OF_BOUNDS then t
  else Function.update t (semIndex t name).toNat
    { t (semIndex t name).toNat with value := (t (semIndex t name).toNat).value - 1 }

/-- The table that `sem_wait` leaves. -/
def taken (t : Sem.Table) (name : List UInt8) : Sem.Table :=
  if semIndex t name = OUT_OF_BOUNDS then t
  else Function.update t (semIndex t name).toNat
    { t (semIndex t name).toNat with value := decr64 (t (semIndex t name).toNat).value }

theorem taken_eq_held (h : Takeable t name) : taken t name = held t name := by
  rw [taken, held]
  split_ifs with hidx
  · rfl
  · rw [decr64_of_pos (h hidx).2.1 (h hidx).2.2]

theorem semIndex_held (t : Sem.Table) (name other : List UInt8) :
    semIndex (held t name) other = semIndex t other := by
  refine semIndex_congr fun i => ?_
  unfold held
  split
  · exact ⟨rfl, rfl⟩
  · by_cases hi : i = (semIndex t name).toNat
    · simp [hi]
    · simp [hi]

/-- Giving the semaphore back restores the table. -/
theorem update_held (h : Takeable t name) (hidx : semIndex t name ≠ OUT_OF_BOUNDS) :
    Function.update (held t name) (semIndex t name).toNat
      { held t name (semIndex t name).toNat with
        value := incr64 (held t name (semIndex t name).toNat).value } = t := by
  obtain ⟨hlock, hpos, hlt⟩ := h hidx
  have hincr : incr64 ((t (semIndex t name).toNat).value - 1) =
      (t (semIndex t name).toNat).value := by
    rw [incr64_of_lt (by omega), Nat.sub_add_cancel hpos]
  rw [held, if_neg hidx, Function.update_self, Function.update_idem]
  simp only [hincr, Function.update_eq_self]

theorem editSem_ok (idx : ℕ) (f : SemT → SemT) :
    editSem idx f s =
      .ok () { s with semaphores := Function.update s.semaphores idx (f (s.semaphores idx)) } := rfl

theorem semAt_ok (idx : ℕ) : semAt idx s = .ok (s.semaphores idx) s := rfl

theorem takeLock_free {idx : ℕ} (hlock : (s.semaphores idx).lock = 0)
    (hvalue : 0 < (s.semaphores idx).value) :
    takeLock idx s = .ok true
      { s with
        semaphores := Function.update s.semaphores idx { s.semaphores idx with lock := 1 } } := by
  rw [takeLock, bind_of_ok (semAt_ok idx), bind_of_ok (editSem_ok idx _), if_neg (by simp [hlock]),
    if_pos hvalue]
  rfl

theorem ends_schedulerDisable {E : Stop → Kernel H → Prop} {Q : Unit → Kernel H → Prop}
    (hE : Lenient E) (h : ∀ d, (s.disableCount < 2 ^ 31 - 1 → d = s.disableCount + 1) →
      Q () { s with disableCount := d }) : Ends Q E schedulerDisable s := by
  have hcases := schedulerDisable_cases s
  rw [Ends]
  generalize schedulerDisable s = result at hcases ⊢
  rcases hcases with ⟨d, rfl, hd⟩ | ⟨hge, rfl⟩
  · exact h d hd
  · exact hE _ _ (by simp)

variable (force : Op H Unit)

/-- `sem_wait` for a semaphore that is not locked. -/
theorem semWait_unlocked (h : Unlocked s.semaphores name) :
    ∃ r, semWait force name s = .ok r { s with semaphores := taken s.semaphores name } := by
  by_cases hidx : semIndex s.semaphores name = OUT_OF_BOUNDS
  · refine ⟨ERROR, ?_⟩
    rw [semWait, get_bind, if_pos hidx, taken, if_pos hidx]
    rfl
  · obtain ⟨hlock, hpos⟩ := h hidx
    set idx := (semIndex s.semaphores name).toNat with hi
    have hloop : semWaitLoop force idx (2 ^ 64 - 1 + 1) s =
        .ok () { s with
          semaphores := Function.update s.semaphores idx { s.semaphores idx with lock := 1 } } := by
      rw [semWaitLoop, bind_of_ok (takeLock_free hlock hpos), if_pos rfl]
      rfl
    refine ⟨SUCCESS_SIGNAL, ?_⟩
    rw [semWait, get_bind, if_neg hidx, ← hi, show 2 ^ 64 = 2 ^ 64 - 1 + 1 from rfl,
      bind_of_ok hloop, semTake, bind_of_ok (editSem_ok idx _), taken, if_neg hidx, ← hi]
    simp only [Function.update_self, Function.update_idem, hlock, pure_apply]

/-- `sem_wait` for a semaphore that can be taken at once. -/
theorem semWait_takeable (h : Takeable s.semaphores name) :
    ∃ r, semWait force name s = .ok r { s with semaphores := held s.semaphores name } := by
  rw [← taken_eq_held h]
  exact semWait_unlocked force h.unlocked

/-- `sem_wait` for a semaphore that is free. -/
theorem semWait_free (h : MutexFree s.semaphores name) :
    ∃ r, semWait force name s = .ok r { s with semaphores := held s.semaphores name } :=
  semWait_takeable force h.takeable

/-- `sem_post` for a semaphore that `sem_wait` has just taken, however often the scheduler is
disabled. -/
theorem semPost_held_cases (h : MutexFree t name) (ht : s.semaphores = held t name) :
    (∃ r d, semPost name s = .ok r { s with semaphores := t, disableCount := d } ∧
        (s.disableCount < 2 ^ 31 - 1 → d = s.disableCount)) ∨
      (2 ^ 31 - 1 ≤ s.disableCount ∧ semPost name s = .error .diverges s) := by
  have hsame : semIndex s.semaphores name = semIndex t name := by rw [ht, semIndex_held]
  by_cases hidx : semIndex t name = OUT_OF_BOUNDS
  · refine Or.inl ⟨ERROR, s.disableCount, ?_, fun _ => rfl⟩
    rw [semPost, get_bind, hsame, if_pos hidx, ← show held t name = t from if_pos hidx, ← ht]
    rfl
  · have hqueue := (h hidx).2.2.2
    have hback := update_held h.takeable hidx
    rw [← ht] at hback
    have hquiet : ∀ s₁ : Kernel H, s₁.semaphores = t →
        updateSemProcesses (semIndex t name).toNat s₁ = .ok () s₁ := by
      intro s₁ h₁
      rw [updateSemProcesses,
        bind_of_ok (show semAt (semIndex t name).toNat s₁ = .ok (s₁.semaphores _) s₁ from rfl), h₁,
        if_neg (by simp [hqueue])]
      rfl
    rcases schedulerDisable_cases s with ⟨d, hdisable, hd⟩ | ⟨hge, hdisable⟩
    · refine Or.inl ⟨SUCCESS_SIGNAL, d - 1, ?_, fun hlt => by rw [hd hlt, Nat.add_sub_cancel]⟩
      rw [semPost, get_bind, hsame, if_neg hidx, bind_of_ok hdisable, bind_of_ok (editSem_ok _ _)]
      simp only [hback]
      rw [bind_of_ok (hquiet _ rfl), bind_of_ok schedulerEnable_ok]
      rfl
    · refine Or.inr ⟨hge, ?_⟩
      rw [semPost, get_bind, hsame, if_neg hidx, bind_of_error hdisable]

theorem ends_semPost_held {E : Stop → Kernel H → Prop} {Q : ℤ → Kernel H → Prop} (hE : Lenient E)
    (hmutex : MutexFree t name) (ht : s.semaphores = held t name)
    (h : ∀ r d, (s.disableCount < 2 ^ 31 - 1 → d = s.disableCount) →
      Q r { s with semaphores := t, disableCount := d }) : Ends Q E (semPost name) s := by
  rcases semPost_held_cases hmutex ht with ⟨r, d, hpost, hd⟩ | ⟨hge, hpost⟩
  · exact ends_of_ok hpost (h r d hd)
  · exact ends_of_error hpost (hE _ _ (by simp))

/-- `sem_post` for a semaphore that `sem_wait` has just taken. -/
theorem semPost_held (h : MutexFree t name) (ht : s.semaphores = held t name)
    (hd : s.disableCount < 2 ^ 31 - 1) :
    ∃ r, semPost name s = .ok r { s with semaphores := t } := by
  rcases semPost_held_cases h ht with ⟨r, d, hpost, hsame⟩ | ⟨hge, -⟩
  · exact ⟨r, by rw [hpost, hsame hd]⟩
  · exact absurd hd (Nat.not_lt.mpr hge)

end TronKernel.Sched
