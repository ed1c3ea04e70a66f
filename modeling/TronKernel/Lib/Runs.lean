import Mathlib.Data.List.Basic

/-!
# Runs of a step function

A system that takes one event after the other, where a step may fail. `run` folds the step function
over a list of events, `Throughout` says that each step of the run meets a condition in the state it
starts from. An invariant is shown once for one step and holds after every run: `run_total` when the
steps cannot fail, `run_preserves` when they can. `run_simulation` runs a second system next to the
first one, on the events it can see.
-/

namespace TronKernel.Runs

variable {σ τ ε δ : Type*} {step : σ → ε → Option σ} {s s' : σ} {es : List ε}

/-- The state after all events, `none` if a step fails. -/
def run (step : σ → ε → Option σ) : σ → List ε → Option σ
  | s, [] => some s
  | s, e :: es => (step s e).bind fun s' => run step s' es

@[simp] theorem run_nil : run step s [] = some s := rfl

theorem run_cons {e : ε} : run step s (e :: es) = (step s e).bind fun s' => run step s' es := rfl

theorem run_append {fs : List ε} :
    run step s (es ++ fs) = (run step s es).bind fun s' => run step s' fs := by
  induction es generalizing s with
  | nil => rfl
  | cons e es ih =>
    simp only [List.cons_append, run_cons, Option.bind_assoc, ih]

/-- Every step of the run meets the condition in the state it starts from. -/
def Throughout (step : σ → ε → Option σ) (P : σ → ε → Prop) : σ → List ε → Prop
  | _, [] => True
  | s, e :: es => P s e ∧ ∀ s', step s e = some s' → Throughout step P s' es

instance throughoutDecidable {P : σ → ε → Prop} [∀ s e, Decidable (P s e)] :
    (s : σ) → (es : List ε) → Decidable (Throughout step P s es)
  | _, [] => isTrue trivial
  | s, e :: es =>
    haveI : Decidable (∀ s', step s e = some s' → Throughout step P s' es) :=
      match step s e with
      | none => isTrue (fun _ h => absurd h (by simp))
      | some s' =>
        haveI := throughoutDecidable (P := P) s' es
        decidable_of_iff (Throughout step P s' es)
          ⟨fun h _ hs => Option.some.inj hs ▸ h, fun h => h s' rfl⟩
    inferInstanceAs (Decidable (P s e ∧ _))

/-- The state after all events, `none` if a step fails or does not meet the condition. -/
def runIf (step : σ → ε → Option σ) (P : σ → ε → Prop) [∀ s e, Decidable (P s e)] :
    σ → List ε → Option σ
  | s, [] => some s
  | s, e :: es => if P s e then (step s e).bind fun s' => runIf step P s' es else none

theorem run_of_runIf {P : σ → ε → Prop} [∀ s e, Decidable (P s e)]
    (h : runIf step P s es = some s') : run step s es = some s' ∧ Throughout step P s es := by
  induction es generalizing s with
  | nil => exact ⟨h, trivial⟩
  | cons e es ih =>
    rw [runIf] at h
    split_ifs at h with hP
    obtain ⟨s₁, h₁, h⟩ := Option.bind_eq_some_iff.mp h
    obtain ⟨hrun, hthrough⟩ := ih h
    refine ⟨by rw [run_cons, h₁, Option.bind_some, hrun], hP, fun s' h' => ?_⟩
    exact Option.some.inj (h₁.symm.trans h') ▸ hthrough

/-- An invariant that no step loses holds at the end, and the run does not fail. -/
theorem run_total {I : σ → Prop} {P : σ → ε → Prop} (hs : I s) (hP : Throughout step P s es)
    (hstep : ∀ s e, I s → P s e → ∃ s', step s e = some s' ∧ I s') :
    ∃ s', run step s es = some s' ∧ I s' := by
  induction es generalizing s with
  | nil => exact ⟨s, rfl, hs⟩
  | cons e es ih =>
    obtain ⟨s₁, h₁, hI⟩ := hstep s e hs hP.1
    obtain ⟨s', h', hI'⟩ := ih hI (hP.2 s₁ h₁)
    exact ⟨s', by rw [run_cons, h₁, Option.bind_some, h'], hI'⟩

/-- An invariant that no step loses holds at the end of every run that does not fail. -/
theorem run_preserves {I : σ → Prop} {P : σ → ε → Prop} (hs : I s) (hP : Throughout step P s es)
    (hstep : ∀ s e s', I s → P s e → step s e = some s' → I s')
    (hrun : run step s es = some s') : I s' := by
  induction es generalizing s with
  | nil =>
    obtain rfl := Option.some.inj hrun
    exact hs
  | cons e es ih =>
    rw [run_cons, Option.bind_eq_some_iff] at hrun
    obtain ⟨s₁, h₁, hrun⟩ := hrun
    exact ih (hstep s e s₁ hs hP.1 h₁) (hP.2 s₁ h₁) hrun

/-- A condition that every step meets holds throughout. -/
theorem throughout_of_forall {P : σ → ε → Prop} (h : ∀ s e, P s e) : Throughout step P s es := by
  induction es generalizing s with
  | nil => trivial
  | cons e es ih => exact ⟨h s e, fun s' _ => ih⟩

/-- A condition that every step meets from a state with the invariant holds throughout. -/
theorem Throughout.of_invariant {I : σ → Prop} {P Q : σ → ε → Prop} (hs : I s)
    (hP : Throughout step P s es)
    (hstep : ∀ s e, I s → P s e → Q s e ∧ ∀ s', step s e = some s' → I s') :
    Throughout step Q s es := by
  induction es generalizing s with
  | nil => trivial
  | cons e es ih =>
    obtain ⟨hQ, hI⟩ := hstep s e hs hP.1
    exact ⟨hQ, fun s' h' => ih (hI s' h') (hP.2 s' h')⟩

/-- A run meets every weaker condition. -/
theorem Throughout.mono {P Q : σ → ε → Prop} (hP : Throughout step P s es)
    (h : ∀ s e, P s e → Q s e) : Throughout step Q s es :=
  hP.of_invariant (I := fun _ => True) trivial fun s e _ he => ⟨h s e he, fun _ _ => trivial⟩

/-- The condition of a run is met by its first part. -/
theorem Throughout.of_prefix {P : σ → ε → Prop} {es₁ : List ε} (hpre : es₁ <+: es)
    (h : Throughout step P s es) : Throughout step P s es₁ := by
  induction es₁ generalizing s es with
  | nil => trivial
  | cons e es₁ ih =>
    obtain ⟨rest, rfl⟩ := hpre
    exact ⟨h.1, fun s' h' => ih (List.prefix_append es₁ rest) (h.2 s' h')⟩

/-- The condition of a run is met by its second part, from the state in between. -/
theorem Throughout.split {P : σ → ε → Prop} {es₁ es₂ : List ε}
    (h : Throughout step P s (es₁ ++ es₂)) (hrun : run step s es₁ = some s') :
    Throughout step P s es₁ ∧ Throughout step P s' es₂ := by
  refine ⟨h.of_prefix (List.prefix_append es₁ es₂), ?_⟩
  induction es₁ generalizing s with
  | nil =>
    obtain rfl := Option.some.inj hrun
    exact h
  | cons e es₁ ih =>
    rw [run_cons, Option.bind_eq_some_iff] at hrun
    obtain ⟨s₁, h₁, hrun⟩ := hrun
    exact ih (h.2 s₁ h₁) hrun

/-- Where `P` says of each step exactly if it keeps `I`, all states of a run have `I` if and only if
all its steps meet `P`. The invariant `G` is kept in any case. -/
theorem always_iff_throughout {G I : σ → Prop} {P : σ → ε → Prop} (hG : G s) (hI : I s)
    (hguard : ∀ s e s', G s → step s e = some s' → G s')
    (hkeep : ∀ s e s', G s → I s → step s e = some s' → (I s' ↔ P s e))
    (hstuck : ∀ s e, G s → step s e = none → P s e) :
    (∀ es₁ s₁, es₁ <+: es → run step s es₁ = some s₁ → I s₁) ↔ Throughout step P s es := by
  constructor
  · intro h
    induction es generalizing s with
    | nil => trivial
    | cons e es ih =>
      have hfirst : ∀ s', step s e = some s' → I s' := by
        intro s' h'
        apply h [e] s' (List.prefix_append [e] es)
        rw [run_cons, h']
        rfl
      refine ⟨?_, ?_⟩
      · cases hs : step s e with
        | none => exact hstuck s e hG hs
        | some s' => exact (hkeep s e s' hG hI hs).mp (hfirst s' hs)
      · intro s' h'
        apply ih (hguard s e s' hG h') (hfirst s' h')
        intro es₁ s₁ hpre hrun
        apply h (e :: es₁) s₁ (List.cons_prefix_cons.mpr ⟨rfl, hpre⟩)
        rwa [run_cons, h']
  · intro h es₁ s₁ hpre hrun
    refine (run_preserves (I := fun s => G s ∧ I s) ⟨hG, hI⟩ (h.of_prefix hpre) ?_ hrun).2
    intro s e s' hs hP h'
    exact ⟨hguard s e s' hs.1 h', (hkeep s e s' hs.1 hs.2 h').mpr hP⟩

/-- A second system that takes a step of its own on some of the events stays related to the
first. -/
theorem run_simulation {step' : τ → δ → Option τ} {see : ε → Option δ} {R : σ → τ → Prop}
    {P : σ → ε → Prop} {t : τ} (hs : R s t) (hP : Throughout step P s es)
    (hstep : ∀ s t e, R s t → P s e →
      ∃ s' t', step s e = some s' ∧ run step' t (see e).toList = some t' ∧ R s' t') :
    ∃ s' t', run step s es = some s' ∧ run step' t (es.filterMap see) = some t' ∧ R s' t' := by
  induction es generalizing s t with
  | nil => exact ⟨s, t, rfl, rfl, hs⟩
  | cons e es ih =>
    obtain ⟨s₁, t₁, h₁, h₁', hR⟩ := hstep s t e hs hP.1
    obtain ⟨s', t', h, h', hR'⟩ := ih hR (hP.2 s₁ h₁)
    refine ⟨s', t', by rw [run_cons, h₁, Option.bind_some, h], ?_, hR'⟩
    have hsee : (e :: es).filterMap see = (see e).toList ++ es.filterMap see := by
      cases hd : see e <;> simp [hd]
    rw [hsee, run_append, h₁', Option.bind_some, h']

/-- A second system that makes every step of the first one follows its runs. -/
theorem run_follows {step' : τ → ε → Option τ} {R : σ → τ → Prop} {t : τ} (hs : R s t)
    (hrun : run step s es = some s')
    (hstep : ∀ s t e s', R s t → step s e = some s' → ∃ t', step' t e = some t' ∧ R s' t') :
    ∃ t', run step' t es = some t' ∧ R s' t' := by
  induction es generalizing s t with
  | nil =>
    obtain rfl := Option.some.inj hrun
    exact ⟨t, rfl, hs⟩
  | cons e es ih =>
    rw [run_cons, Option.bind_eq_some_iff] at hrun
    obtain ⟨s₁, hfirst, hrest⟩ := hrun
    obtain ⟨t₁, hfirst', hR⟩ := hstep s t e s₁ hs hfirst
    obtain ⟨t', hrest', hR'⟩ := ih hR hrest
    exact ⟨t', by rw [run_cons, hfirst', Option.bind_some, hrest'], hR'⟩

end TronKernel.Runs
