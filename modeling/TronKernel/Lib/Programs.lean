import Mathlib.Init

/-!
# Programs with a state that may stop

Rules for `EStateM` programs. A step whose result is known is run by rewriting with `bind_of_ok` or
`bind_of_error`. `Ends Q E m` is the precondition under which `m` ends in a result with `Q` or stops
in one with `E`; its rules follow the program. `Returns m` says that `m` is not stopped.
`Keeps R m` is the frame rule for a relation `R` on states, whatever the program starts from, and
`KeepsAt K R m` the one for programs that may be stopped.
-/

namespace TronKernel.Programs

variable {ε σ α β : Type} {m : EStateM ε σ α} {f : α → EStateM ε σ β} {s s' : σ} {a : α} {e : ε}

theorem bind_of_ok (h : m s = .ok a s') : (m >>= f) s = f a s' := by
  show EStateM.bind m f s = _
  rw [EStateM.bind, h]

/-- Two programs that end alike, each from its own state, go on alike. -/
theorem bind_congr_at {m' : EStateM ε σ α} (h : m s = m' s') : (m >>= f) s = (m' >>= f) s' := by
  show EStateM.bind m f s = EStateM.bind m' f s'
  rw [EStateM.bind, EStateM.bind, h]

theorem bind_of_error (h : m s = .error e s') : (m >>= f) s = .error e s' := by
  show EStateM.bind m f s = _
  rw [EStateM.bind, h]

@[simp] theorem pure_apply : (pure a : EStateM ε σ α) s = .ok a s := rfl

@[simp] theorem get_apply : (get : EStateM ε σ σ) s = .ok s s := rfl

@[simp] theorem throw_apply : (throw e : EStateM ε σ α) s = .error e s := rfl

@[simp] theorem modify_apply {g : σ → σ} :
    (modify g : EStateM ε σ Unit) s = .ok () (g s) := rfl

theorem get_bind {f : σ → EStateM ε σ β} : (get >>= f) s = f s s := rfl

theorem modify_bind {g : σ → σ} {f : Unit → EStateM ε σ β} : (modify g >>= f) s = f () (g s) := rfl

/-- From `s` the program ends in a result with `Q` or stops in one with `E`. -/
def Ends (Q : α → σ → Prop) (E : ε → σ → Prop) (m : EStateM ε σ α) (s : σ) : Prop :=
  match m s with
  | .ok a s' => Q a s'
  | .error e s' => E e s'

variable {Q Q' : α → σ → Prop} {E E' : ε → σ → Prop}

theorem Ends.mono (h : Ends Q E m s) (hQ : ∀ a s, Q a s → Q' a s) (hE : ∀ e s, E e s → E' e s) :
    Ends Q' E' m s := by
  unfold Ends at h ⊢
  split at h
  · exact hQ _ _ h
  · exact hE _ _ h

theorem ends_of_ok (h : m s = .ok a s') (hQ : Q a s') : Ends Q E m s := by
  rw [Ends, h]
  exact hQ

theorem ends_of_error (h : m s = .error e s') (hE : E e s') : Ends Q E m s := by
  rw [Ends, h]
  exact hE

@[simp] theorem ends_pure : Ends Q E (pure a) s ↔ Q a s := Iff.rfl

@[simp] theorem ends_get {Q : σ → σ → Prop} : Ends Q E get s ↔ Q s s := Iff.rfl

@[simp] theorem ends_throw : Ends Q E (throw e) s ↔ E e s := Iff.rfl

@[simp] theorem ends_modify {Q : Unit → σ → Prop} {g : σ → σ} :
    Ends Q E (modify g) s ↔ Q () (g s) := Iff.rfl

/-- The rule of sequential composition. -/
theorem ends_bind {R : β → σ → Prop} :
    Ends R E (m >>= f) s ↔ Ends (fun a s => Ends R E (f a) s) E m s := by
  cases h : m s with
  | ok a s' => simp only [Ends, bind_of_ok h, h]
  | error e s' => simp only [Ends, bind_of_error h, h]

theorem Ends.bind {R : β → σ → Prop} (h : Ends (fun a s => Ends R E (f a) s) E m s) :
    Ends R E (m >>= f) s :=
  ends_bind.mpr h

/-- What holds of the end of a program that has ended. -/
theorem Ends.of_ok (h : Ends Q E m s) (hm : m s = .ok a s') : Q a s' := by
  rw [Ends, hm] at h
  exact h

theorem Ends.of_error (h : Ends Q E m s) (hm : m s = .error e s') : E e s' := by
  rw [Ends, hm] at h
  exact h

/-- Sequential composition, where the first part is known to have ended in this way. -/
theorem ends_bind_of_ok {R : β → σ → Prop}
    (h : Ends (fun a t => m s = .ok a t → Ends R E (f a) t) E m s) : Ends R E (m >>= f) s := by
  rw [ends_bind]
  cases hm : m s with
  | ok a t => exact ends_of_ok hm (h.of_ok hm hm)
  | error e t => exact ends_of_error hm (h.of_error hm)

/-! ## Programs that return -/

/-- From `s` the program returns. -/
def Returns (m : EStateM ε σ α) (s : σ) : Prop := ∃ a s', m s = .ok a s'

theorem returns_of_ok (h : m s = .ok a s') : Returns m s := ⟨a, s', h⟩

/-- Behind a part that returns, the rest decides. -/
theorem returns_bind_of_ok (h : m s = .ok a s') : Returns (m >>= f) s ↔ Returns (f a) s' := by
  rw [Returns, Returns, bind_of_ok h]

theorem Returns.of_bind (h : Returns (m >>= f) s) : Returns m s := by
  obtain ⟨b, t, hrun⟩ := h
  cases hm : m s with
  | ok a s' => exact ⟨a, s', hm⟩
  | error e s' =>
    rw [bind_of_error hm] at hrun
    cases hrun

/-- What can only be stopped does not return. -/
theorem Ends.not_returns (h : Ends (fun _ _ => False) E m s) : ¬ Returns m s := by
  rintro ⟨a, s', hrun⟩
  exact h.of_ok hrun

/-! ## Frames -/

/-- Where the program returns, its end is related to its start. -/
def Keeps (R : σ → σ → Prop) (m : EStateM ε σ α) : Prop :=
  ∀ s, Ends (fun _ s' => R s s') (fun _ _ => True) m s

variable {R : σ → σ → Prop}

theorem keeps_throw (e : ε) : Keeps R (throw e : EStateM ε σ α) := fun _ => trivial

theorem keeps_pure (hrefl : ∀ s, R s s) (a : α) : Keeps R (pure a : EStateM ε σ α) :=
  fun s => hrefl s

theorem keeps_modify {g : σ → σ} (h : ∀ s, R s (g s)) :
    Keeps R (modify g : EStateM ε σ Unit) := h

theorem Keeps.bind (htrans : ∀ {s s₁ s₂}, R s s₁ → R s₁ s₂ → R s s₂) (hm : Keeps R m)
    (hf : ∀ a, Keeps R (f a)) : Keeps R (m >>= f) := by
  intro s
  rw [ends_bind]
  refine (hm s).mono (fun a s₁ h => ?_) fun _ _ h => h
  exact (hf a s₁).mono (fun _ s₂ h' => htrans h h') fun _ _ h => h

theorem keeps_get_bind {f : σ → EStateM ε σ β} (hf : ∀ s, Keeps R (f s)) : Keeps R (get >>= f) := by
  intro s
  rw [ends_bind, ends_get]
  exact hf s s

/-! ## Frames of programs that may be stopped -/

/-- Where the program returns, or stops for a reason in `K`, its end is related to its start. -/
def KeepsAt (K : ε → Prop) (R : σ → σ → Prop) (m : EStateM ε σ α) : Prop :=
  ∀ s, Ends (fun _ s' => R s s') (fun e s' => K e → R s s') m s

variable {K : ε → Prop}

theorem keepsAt_throw (hrefl : ∀ s, R s s) (e : ε) : KeepsAt K R (throw e : EStateM ε σ α) :=
  fun s _ => hrefl s

theorem keepsAt_pure (hrefl : ∀ s, R s s) (a : α) : KeepsAt K R (pure a : EStateM ε σ α) :=
  fun s => hrefl s

theorem keepsAt_modify {g : σ → σ} (h : ∀ s, R s (g s)) :
    KeepsAt K R (modify g : EStateM ε σ Unit) := h

theorem keepsAt_get_bind {f : σ → EStateM ε σ β} (hf : ∀ s, KeepsAt K R (f s)) :
    KeepsAt K R (get >>= f) := by
  intro s
  rw [ends_bind, ends_get]
  exact hf s s

theorem KeepsAt.bind (htrans : ∀ {s s₁ s₂}, R s s₁ → R s₁ s₂ → R s s₂) (hm : KeepsAt K R m)
    (hf : ∀ a, KeepsAt K R (f a)) : KeepsAt K R (m >>= f) := by
  intro s
  rw [ends_bind]
  refine (hm s).mono (fun a s₁ h => ?_) fun _ _ h => h
  exact (hf a s₁).mono (fun _ s₂ h' => htrans h h') fun _ s₂ h' hK => htrans h (h' hK)

end TronKernel.Programs
