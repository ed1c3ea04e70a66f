import TronKernel.Sem.Interleaving

/-!
# What becomes of a post

`sem->value--` is a read followed by a write, and `sem_post` increments `value` without taking the
lock. An increment between the two accesses is overwritten. `Deficit` accounts for the posts lost in
this way, at every program counter; `no_post_lost` says that the semaphore's books balance exactly
when no increment falls between the read and the write of a decrement.
-/

namespace TronKernel.Sem

open Runs

variable {Proc : Type*}

/-- Between the read and the write of `sem->value--`. -/
def Pc.decrementing : Pc → Bool
  | .decWrite _ => true
  | _ => false

/-- Inside of the decrement: `value` has been read, and the `sem_wait` has not returned. -/
def Pc.inDecrement : Pc → Bool
  | .decWrite _ | .unlock => true
  | _ => false

/-- Inside `sem_post` and behind its increment. -/
def Pc.afterIncrement : Pc → Bool
  | .updateLast | .updateFirst _ | .updateCmpxchg _ | .updatePid _ => true
  | _ => false

/-- Inside `sem_post`. -/
def Pc.inPost (pc : Pc) : Bool := pc.beforeIncrement || pc.afterIncrement

/-- The increment of a post does not fall between the read and the write of a decrement. -/
def Undisturbed (c : Config Proc) : Event Proc → Prop
  | .access p => c.increments p → ∀ q, ¬ (c.pc q).decrementing
  | _ => True

variable [DecidableEq Proc] {v d : ℕ} {c c' : Config Proc} {p : Proc}

/-! ## The effect of one access on the books -/

/-- An access does nothing to `value` and the counts, unless it is one of the accesses of the
decrement, the end of a wait or the increment of a post. -/
theorem access_effect {pid : ℕ} (hacc : access pid c p = some c') :
    (∃ pc sem, c' = c.goto p pc sem ∧ sem.value = c.sem.value ∧ pc.inDecrement = false ∧
        (c.pc p).inDecrement = false ∧ c.increments p = false ∧
        (pc.afterIncrement = (c.pc p).afterIncrement ∨ (c.pc p).afterIncrement ∧ pc = .idle) ∧
        ((c.pc p).beforeIncrement → pc ≠ .idle)) ∨
      (c.pc p = .decRead ∧ c' = c.goto p (.decWrite c.sem.value) c.sem ∧
        c.increments p = false) ∨
      (∃ value new, c.pc p = .decWrite value ∧ c.increments p = false ∧ new = sub64 value 1 ∧
        c' = c.goto p .unlock { c.sem with value := new }) ∨
      (c.pc p = .unlock ∧ c.increments p = false ∧
        c' = { c.goto p .idle { c.sem with lock := 0 } with
          waited := c.waited + 1, between := insert p c.between }) ∨
      (∃ new, (c.pc p).inDecrement = false ∧ c.increments p = true ∧ new = add64 c.sem.value 1 ∧
        c' = { c.goto p .updateLast { c.sem with value := new } with
          posted := c.posted + 1, between := c.between.erase p }) := by
  unfold access at hacc
  cases hpc : c.pc p
  all_goals
    rw [hpc] at hacc
    simp only at hacc
  case idle => cases hacc
  case decRead =>
    exact Or.inr (Or.inl ⟨rfl, (Option.some.inj hacc).symm, by simp [Config.increments, hpc]⟩)
  case decWrite value =>
    exact Or.inr (Or.inr (Or.inl ⟨value, _, rfl, by simp [Config.increments, hpc], rfl,
      (Option.some.inj hacc).symm⟩))
  case unlock =>
    exact Or.inr (Or.inr (Or.inr (Or.inl ⟨rfl, by simp [Config.increments, hpc],
      (Option.some.inj hacc).symm⟩)))
  case postCmpxchg value =>
    split_ifs at hacc with hvalue
    · subst hvalue
      exact Or.inr (Or.inr (Or.inr (Or.inr ⟨_, rfl, by simp [Config.increments, hpc], rfl,
        (Option.some.inj hacc).symm⟩)))
    · exact Or.inl ⟨_, _, (Option.some.inj hacc).symm, rfl, rfl, rfl,
        by simp [Config.increments, hpc, hvalue], Or.inl rfl, fun _ => Pc.noConfusion⟩
  all_goals
    left
    try split_ifs at hacc
    all_goals
      exact ⟨_, _, (Option.some.inj hacc).symm, rfl, rfl, rfl, by simp [Config.increments, hpc],
        by simp [Pc.afterIncrement], by simp [Pc.beforeIncrement]⟩

/-! ## Lost posts -/

/-- The books of a semaphore created with `v` after `d` posts have been lost. A decrement has read
what `value` was before the posts that it is about to overwrite. -/
structure Deficit (v d : ℕ) (c : Config Proc) : Prop where
  settled : (∀ p, ¬ (c.pc p).inDecrement) → c.sem.value + c.waited + d = v + c.posted
  reading : ∀ p value, c.pc p = .decWrite value → value + c.waited + d = v + c.posted
  written : ∀ p, c.pc p = .unlock → c.sem.value + c.waited + 1 + d = v + c.posted

omit [DecidableEq Proc] in
theorem deficit_start (sem : SemT) : Deficit sem.value 0 (start Proc sem) where
  settled _ := rfl
  reading p value hp := absurd hp (by simp [start])
  written p hp := absurd hp (by simp [start])

omit [DecidableEq Proc] in
/-- Only the holder of the lock is inside of a decrement. -/
theorem Safe.eq_of_inDecrement (h : Safe v c) {q : Proc} (hp : (c.pc p).holdsLock)
    (hq : (c.pc q).inDecrement) : q = p := by
  refine h.exclusive q p ?_ hp
  cases hpc : c.pc q <;> rw [hpc] at hq <;> first | rfl | exact Bool.noConfusion hq

omit [DecidableEq Proc] in
theorem Deficit.of_settled (hnone : ∀ p, ¬ (c.pc p).inDecrement)
    (htotal : c.sem.value + c.waited + d = v + c.posted) : Deficit v d c where
  settled _ := htotal
  reading p value hp := absurd (by rw [hp]; rfl) (hnone p)
  written p hp := absurd (by rw [hp]; rfl) (hnone p)

/-- A process that moves between places outside of the decrement changes nobody's place inside. -/
theorem update_of_inDecrement {pc : Pc} (hnew : pc.inDecrement = false)
    (hold : (c.pc p).inDecrement = false) {q : Proc}
    (hq : (Function.update c.pc p pc q).inDecrement ∨ (c.pc q).inDecrement) :
    Function.update c.pc p pc q = c.pc q := by
  by_cases hqp : q = p
  · subst hqp
    rw [Function.update_self, hnew, hold] at hq
    exact absurd hq (by simp)
  · exact Function.update_of_ne hqp _ _

/-- A move between places outside of the decrement. -/
theorem Deficit.quiet (h : Deficit v d c) {pc : Pc} {sem : SemT} (hvalue : sem.value = c.sem.value)
    (hnew : pc.inDecrement = false) (hold : (c.pc p).inDecrement = false) :
    Deficit v d (c.goto p pc sem) := by
  have hkeep := fun {q : Proc} => update_of_inDecrement (c := c) (p := p) hnew hold (q := q)
  refine ⟨fun hnone => ?_, fun q value hq => ?_, fun q hq => ?_⟩
  · show sem.value + c.waited + d = v + c.posted
    rw [hvalue]
    exact h.settled fun q hq => hnone q (by
      show (Function.update c.pc p pc q).inDecrement
      rwa [hkeep (Or.inr hq)])
  · change Function.update c.pc p pc q = .decWrite value at hq
    exact h.reading q value ((hkeep (Or.inl (by rw [hq]; rfl))) ▸ hq)
  · change Function.update c.pc p pc q = .unlock at hq
    show sem.value + c.waited + 1 + d = v + c.posted
    rw [hvalue]
    exact h.written q ((hkeep (Or.inl (by rw [hq]; rfl))) ▸ hq)

/-- The read of the decrement. -/
theorem Deficit.decRead (h : Deficit v d c) (hsafe : Safe v c) (hp : c.pc p = .decRead) :
    Deficit v d (c.goto p (.decWrite c.sem.value) c.sem) := by
  have hnone : ∀ q, ¬ (c.pc q).inDecrement := fun q hq => by
    obtain rfl := hsafe.eq_of_inDecrement (by rw [hp]; rfl) hq
    rw [hp] at hq
    exact Bool.noConfusion hq
  have htotal := h.settled hnone
  refine ⟨fun _ => htotal, fun q value hq => ?_, fun q hq => ?_⟩
  · by_cases hqp : q = p
    · subst hqp
      simp only [Config.goto, Function.update_self, Pc.decWrite.injEq] at hq
      subst hq
      exact htotal
    · simp only [Config.goto, Function.update_of_ne hqp] at hq
      exact absurd (by rw [hq]; rfl) (hnone q)
  · by_cases hqp : q = p
    · subst hqp
      simp [Config.goto] at hq
    · simp only [Config.goto, Function.update_of_ne hqp] at hq
      exact absurd (by rw [hq]; rfl) (hnone q)

/-- The write of the decrement puts the value read, less one, over what is there. -/
theorem Deficit.decStore (h : Deficit v d c) (hsafe : Safe v c) {value new : ℕ}
    (hp : c.pc p = .decWrite value) (hnew : 1 ≤ value → new + 1 = value) :
    Deficit v d (c.goto p .unlock { c.sem with value := new }) := by
  have hread := h.reading p value hp
  have hold := hnew (hsafe.decWrite p value hp).1
  refine ⟨fun hnone => ?_, fun q value' hq => ?_, fun q hq => ?_⟩
  · refine absurd ?_ (hnone p)
    show (Function.update c.pc p Pc.unlock p).inDecrement
    rw [Function.update_self]
    rfl
  · have hqp : q ≠ p := fun hqp => by
      subst hqp
      simp [Config.goto] at hq
    simp only [Config.goto, Function.update_of_ne hqp] at hq
    exact absurd (hsafe.eq_of_inDecrement (p := p) (by rw [hp]; rfl) (by rw [hq]; rfl)) hqp
  · show new + c.waited + 1 + d = v + c.posted
    omega

/-- The end of `sem_wait`. -/
theorem Deficit.finishWait (h : Deficit v d c) (hsafe : Safe v c) (hp : c.pc p = .unlock) :
    Deficit v d { c.goto p .idle { c.sem with lock := 0 } with
      waited := c.waited + 1, between := insert p c.between } := by
  have hwritten := h.written p hp
  refine Deficit.of_settled (fun q hq => ?_) ?_
  · by_cases hqp : q = p
    · subst hqp
      simp [Config.goto, Pc.inDecrement] at hq
    · simp only [Config.goto, Function.update_of_ne hqp] at hq
      exact hqp (hsafe.eq_of_inDecrement (by rw [hp]; rfl) hq)
  · show c.sem.value + (c.waited + 1) + d = v + c.posted
    omega

/-- The increment of a post is lost if and only if a decrement is between its two accesses. -/
theorem Deficit.increment (h : Deficit v d c) (hsafe : Safe v c) {new : ℕ}
    (hnew : new = c.sem.value + 1) (hold : (c.pc p).inDecrement = false) :
    ∃ d', Deficit v d' { c.goto p .updateLast { c.sem with value := new } with
        posted := c.posted + 1, between := c.between.erase p } ∧
      d ≤ d' ∧ (d' = d ↔ ∀ q, ¬ (c.pc q).decrementing) := by
  have hkeep : ∀ {q : Proc}, (Function.update c.pc p Pc.updateLast q).inDecrement ∨
      (c.pc q).inDecrement → Function.update c.pc p .updateLast q = c.pc q :=
    fun hq => update_of_inDecrement rfl hold hq
  by_cases hnone : ∀ q, ¬ (c.pc q).decrementing
  · refine ⟨d, ⟨fun hout => ?_, fun q value hq => ?_, fun q hq => ?_⟩, le_rfl, by simpa using hnone⟩
    · have htotal := h.settled fun q hq => hout q (by
        show (Function.update c.pc p Pc.updateLast q).inDecrement
        rwa [hkeep (Or.inr hq)])
      show new + c.waited + d = v + (c.posted + 1)
      omega
    · change Function.update c.pc p Pc.updateLast q = .decWrite value at hq
      rw [hkeep (Or.inl (by rw [hq]; rfl))] at hq
      exact absurd (by rw [hq]; rfl) (hnone q)
    · change Function.update c.pc p Pc.updateLast q = .unlock at hq
      rw [hkeep (Or.inl (by rw [hq]; rfl))] at hq
      have hwritten := h.written q hq
      show new + c.waited + 1 + d = v + (c.posted + 1)
      omega
  · -- the decrement of `r` is going to overwrite this increment
    push Not at hnone
    obtain ⟨r, hr⟩ := hnone
    obtain ⟨read, hread⟩ : ∃ read, c.pc r = .decWrite read := by
      cases hpc : c.pc r <;> rw [hpc] at hr <;> first | exact ⟨_, rfl⟩ | exact Bool.noConfusion hr
    have hin : (c.pc r).inDecrement := by rw [hread]; rfl
    refine ⟨d + 1, ⟨fun hout => ?_, fun q value hq => ?_, fun q hq => ?_⟩, Nat.le_succ d, ?_⟩
    · refine absurd ?_ (hout r)
      show (Function.update c.pc p Pc.updateLast r).inDecrement
      rwa [hkeep (Or.inr hin)]
    · change Function.update c.pc p Pc.updateLast q = .decWrite value at hq
      rw [hkeep (Or.inl (by rw [hq]; rfl))] at hq
      have htotal := h.reading q value hq
      show value + c.waited + (d + 1) = v + (c.posted + 1)
      omega
    · change Function.update c.pc p Pc.updateLast q = .unlock at hq
      rw [hkeep (Or.inl (by rw [hq]; rfl))] at hq
      obtain rfl := hsafe.eq_of_inDecrement (p := r) (q := q) (by rw [hread]; rfl) (by rw [hq]; rfl)
      rw [hq] at hread
      exact Pc.noConfusion hread
    · simp only [Nat.succ_ne_self, false_iff, not_forall, not_not]
      exact ⟨r, hr⟩

/-- What one event does to the books: it loses at most one post, and none if it is undisturbed. -/
theorem Deficit.step (h : Deficit v d c) (hsafe : Safe v c) {pid : Proc → ℕ} {e : Event Proc}
    (hstep : step pid c e = some c') (hfits : c.sem.value < 2 ^ 64) (hroom : Roomy c e) :
    ∃ d', Deficit v d' c' ∧ d ≤ d' ∧ (d' = d ↔ Undisturbed c e) := by
  cases e with
  | wait p =>
    rw [TronKernel.Sem.step] at hstep
    split_ifs at hstep with hidle
    rw [← Option.some.inj hstep]
    exact ⟨d, h.quiet rfl rfl (by rw [hidle]; rfl), le_rfl, by simp [Undisturbed]⟩
  | post p =>
    rw [TronKernel.Sem.step] at hstep
    split_ifs at hstep with hidle
    rw [← Option.some.inj hstep]
    exact ⟨d, h.quiet rfl rfl (by rw [hidle]; rfl), le_rfl, by simp [Undisturbed]⟩
  | access p =>
    have hnot : c.increments p = false → (d = d ↔ Undisturbed c (.access p)) := fun hinc => by
      simp [Undisturbed, hinc]
    rcases access_effect hstep with ⟨pc, sem, rfl, hvalue, hnew, hold, hinc, -⟩ | ⟨hp, rfl, hinc⟩ |
      ⟨value, new, hp, hinc, hnew, rfl⟩ | ⟨hp, hinc, rfl⟩ | ⟨new, hold, hinc, hnew, rfl⟩
    · exact ⟨d, h.quiet hvalue hnew hold, le_rfl, hnot hinc⟩
    · exact ⟨d, h.decRead hsafe hp, le_rfl, hnot hinc⟩
    · refine ⟨d, h.decStore hsafe hp (fun hpos => ?_), le_rfl, hnot hinc⟩
      have := (hsafe.decWrite p value hp).2
      rw [hnew]
      simp only [sub64]
      omega
    · exact ⟨d, h.finishWait hsafe hp, le_rfl, hnot hinc⟩
    · have hsucc : new = c.sem.value + 1 := by
        have := hroom hinc
        rw [hnew]
        simp only [add64]
        omega
      obtain ⟨d', hd', hle, hiff⟩ := h.increment hsafe hsucc hold
      exact ⟨d', hd', hle, by simpa [Undisturbed, hinc] using hiff⟩

theorem fits_of_step {pid : Proc → ℕ} {e : Event Proc} (hstep : step pid c e = some c')
    (hfits : c.sem.value < 2 ^ 64) : c'.sem.value < 2 ^ 64 := by
  cases e with
  | wait p =>
    rw [step] at hstep
    split_ifs at hstep
    exact Option.some.inj hstep ▸ hfits
  | post p =>
    rw [step] at hstep
    split_ifs at hstep
    exact Option.some.inj hstep ▸ hfits
  | access p =>
    rcases access_effect hstep with ⟨pc, sem, rfl, hvalue, -⟩ | ⟨-, rfl, -⟩ |
      ⟨value, new, -, -, hnew, rfl⟩ | ⟨-, -, rfl⟩ | ⟨new, -, -, hnew, rfl⟩
    · exact hvalue.trans_lt hfits
    · exact hfits
    · exact hnew.trans_lt (Nat.mod_lt _ (Nat.two_pow_pos 64))
    · exact hfits
    · exact hnew.trans_lt (Nat.mod_lt _ (Nat.two_pow_pos 64))

/-! ## Completed posts -/

/-- A configuration with the number of `sem_post`s that have returned. -/
structure Tally (Proc : Type*) where
  config : Config Proc
  returned : ℕ

/-- The event ends a `sem_post`. -/
def endsPost (c c' : Config Proc) : Event Proc → Bool
  | .access p => (c.pc p).inPost && c'.pc p = .idle
  | _ => false

/-- One event, with the returns counted. -/
def Tally.step (pid : Proc → ℕ) (t : Tally Proc) (e : Event Proc) : Option (Tally Proc) :=
  (TronKernel.Sem.step pid t.config e).map fun c =>
    ⟨c, t.returned + if endsPost t.config c e then 1 else 0⟩

/-- An access enters the part of `sem_post` behind the increment, returns from it, or neither. -/
theorem access_post {pid : ℕ} (hacc : access pid c p = some c') :
    (∀ q, q ≠ p → c'.pc q = c.pc q) ∧
      ((c'.posted = c.posted + 1 ∧ (c.pc p).afterIncrement = false ∧ c'.pc p = .updateLast) ∨
        (c'.posted = c.posted ∧ (c'.pc p).afterIncrement = (c.pc p).afterIncrement ∧
          endsPost c c' (.access p) = false) ∨
        (c'.posted = c.posted ∧ (c.pc p).afterIncrement ∧ c'.pc p = .idle)) := by
  rcases access_effect hacc with ⟨pc, sem, rfl, -, -, -, -, hafter, hbefore⟩ | ⟨hp, rfl, -⟩ |
    ⟨value, new, hp, -, -, rfl⟩ | ⟨hp, -, rfl⟩ | ⟨new, -, hinc, -, rfl⟩
  · refine ⟨fun q hq => c.goto_pc_of_ne pc sem hq, Or.inr ?_⟩
    simp only [Config.goto_pc_self, Config.goto_posted, endsPost, Pc.inPost, true_and]
    rcases hafter with hafter | hafter
    · refine Or.inl ⟨hafter, ?_⟩
      by_cases hidle : pc = .idle
      · subst hidle
        have hnot : (c.pc p).beforeIncrement = false := by simpa using fun h => hbefore h rfl
        rw [hnot, ← hafter]
        rfl
      · simp [hidle]
    · exact Or.inr hafter
  · exact ⟨fun q hq => c.goto_pc_of_ne _ _ hq, Or.inr (Or.inl (by
      simp [hp, Pc.afterIncrement, endsPost]))⟩
  · exact ⟨fun q hq => c.goto_pc_of_ne _ _ hq, Or.inr (Or.inl (by
      simp [hp, Pc.afterIncrement, endsPost]))⟩
  · refine ⟨fun q hq => c.goto_pc_of_ne .idle { c.sem with lock := 0 } hq, Or.inr (Or.inl ?_)⟩
    have hself := c.goto_pc_self p .idle { c.sem with lock := 0 }
    exact ⟨rfl, (congrArg Pc.afterIncrement hself).trans (by rw [hp]; rfl), by
      simp [hp, endsPost, Pc.inPost, Pc.beforeIncrement, Pc.afterIncrement]⟩
  · refine ⟨fun q hq => c.goto_pc_of_ne .updateLast { c.sem with value := new } hq,
      Or.inl ⟨rfl, ?_, c.goto_pc_self p .updateLast { c.sem with value := new }⟩⟩
    cases hpc : c.pc p <;> first | rfl | simp [Config.increments, hpc] at hinc

/-- The posts whose increment has happened are those that have returned and those that are behind
their increment. -/
def Balanced (t : Tally Proc) : Prop :=
  ∃ s : Finset Proc, (∀ p, p ∈ s ↔ (t.config.pc p).afterIncrement) ∧
    t.config.posted = t.returned + s.card

/-- What `access_post` and the calls say about an event, in one form. -/
theorem Balanced.step {pid : Proc → ℕ} {t t' : Tally Proc} {e : Event Proc} (h : Balanced t)
    (hstep : Tally.step pid t e = some t') : Balanced t' := by
  obtain ⟨c', hc', rfl⟩ := Option.map_eq_some_iff.mp hstep
  obtain ⟨s, hs, hcount⟩ := h
  cases e with
  | wait p =>
    rw [TronKernel.Sem.step] at hc'
    split_ifs at hc' with hidle
    rw [← Option.some.inj hc']
    refine ⟨s, fun q => ?_, hcount⟩
    by_cases hqp : q = p
    · subst hqp
      rw [hs, Config.goto_pc_self, hidle]
      rfl
    · rw [hs, Config.goto_pc_of_ne _ _ _ hqp]
  | post p =>
    rw [TronKernel.Sem.step] at hc'
    split_ifs at hc' with hidle
    rw [← Option.some.inj hc']
    refine ⟨s, fun q => ?_, hcount⟩
    by_cases hqp : q = p
    · subst hqp
      rw [hs, Config.goto_pc_self, hidle]
      rfl
    · rw [hs, Config.goto_pc_of_ne _ _ _ hqp]
  | access p =>
    obtain ⟨hother, ⟨hposted, hold, hnew⟩ | ⟨hposted, hsame, hends⟩ | ⟨hposted, hold, hnew⟩⟩ :=
      access_post hc'
    · -- the increment: one more process behind it
      have hends : endsPost t.config c' (.access p) = false := by simp [endsPost, hnew]
      refine ⟨insert p s, fun q => ?_, ?_⟩
      · by_cases hqp : q = p
        · subst hqp
          simp [hnew, Pc.afterIncrement]
        · rw [Finset.mem_insert, hs, hother q hqp]
          simp [hqp]
      · have hnot : p ∉ s := fun hp => by
          rw [hs, hold] at hp
          exact Bool.noConfusion hp
        simp only [hends, Finset.card_insert_of_notMem hnot]
        simp
        omega
    · refine ⟨s, fun q => ?_, ?_⟩
      · by_cases hqp : q = p
        · subst hqp
          rw [hs, hsame]
        · rw [hs, hother q hqp]
      · simp only [hends]
        simp
        omega
    · -- the return: one process less behind the increment
      have hends : endsPost t.config c' (.access p) = true := by
        simp [endsPost, hnew, Pc.inPost, hold]
      refine ⟨s.erase p, fun q => ?_, ?_⟩
      · by_cases hqp : q = p
        · subst hqp
          simp [hnew, Pc.afterIncrement]
        · rw [Finset.mem_erase, hs, hother q hqp]
          simp [hqp]
      · have hcard := Finset.card_erase_add_one ((hs p).mpr hold)
        simp only [hends]
        simp
        omega

/-! ## Runs -/

/-- Nobody is inside of a decrement or of `sem_post`. -/
def Settled (c : Config Proc) : Prop := ∀ p, ¬ (c.pc p).inDecrement ∧ ¬ (c.pc p).inPost

/-- What holds after every event: `d` posts have been lost so far. -/
structure Ledger (v d : ℕ) (t : Tally Proc) : Prop where
  safe : Safe v t.config
  fits : t.config.sem.value < 2 ^ 64
  deficit : Deficit v d t.config
  balanced : Balanced t

omit [DecidableEq Proc] in
theorem ledger_start (sem : SemT) (hfits : sem.value < 2 ^ 64) :
    Ledger sem.value 0 (⟨start Proc sem, 0⟩ : Tally Proc) where
  safe := safe_start sem le_rfl
  fits := hfits
  deficit := deficit_start sem
  balanced := ⟨∅, fun p => by simp [start, Pc.afterIncrement], rfl⟩

theorem Ledger.step {pid : Proc → ℕ} {t t' : Tally Proc} {e : Event Proc} (h : Ledger v d t)
    (hroom : Roomy t.config e) (hstep : Tally.step pid t e = some t') :
    ∃ d', Ledger v d' t' ∧ d ≤ d' ∧ (d' = d ↔ Undisturbed t.config e) := by
  obtain ⟨c', hc', ht'⟩ := Option.map_eq_some_iff.mp hstep
  obtain ⟨d', hd', hle, hiff⟩ := h.deficit.step h.safe hc' h.fits hroom
  subst ht'
  exact ⟨d', ⟨h.safe.step hc' h.fits hroom, fits_of_step hc' h.fits, hd', h.balanced.step hstep⟩,
    hle, hiff⟩

/-- A run loses posts if and only if one of its steps is disturbed. -/
theorem Ledger.run {pid : Proc → ℕ} {t t' : Tally Proc} {es : List (Event Proc)} (h : Ledger v d t)
    (hroom : Throughout (Tally.step pid) (fun t => Roomy t.config) t es)
    (hrun : Runs.run (Tally.step pid) t es = some t') :
    ∃ d', Ledger v d' t' ∧ d ≤ d' ∧
      (d' = d ↔ Throughout (Tally.step pid) (fun t => Undisturbed t.config) t es) := by
  induction es generalizing t d with
  | nil =>
    obtain rfl := Option.some.inj hrun
    exact ⟨d, h, le_rfl, by simp [Throughout]⟩
  | cons e es ih =>
    rw [run_cons, Option.bind_eq_some_iff] at hrun
    obtain ⟨t₁, h₁, hrun⟩ := hrun
    obtain ⟨d₁, hd₁, hle₁, hiff₁⟩ := h.step hroom.1 h₁
    obtain ⟨d', hd', hle, hiff⟩ := ih hd₁ (hroom.2 t₁ h₁) hrun
    refine ⟨d', hd', hle₁.trans hle, ?_⟩
    have hrest : Throughout (Tally.step pid) (fun t => Undisturbed t.config) t (e :: es) ↔
        Undisturbed t.config e ∧
          Throughout (Tally.step pid) (fun t => Undisturbed t.config) t₁ es :=
      and_congr_right fun _ => ⟨fun h => h t₁ h₁, fun h t₂ h₂ => by
        obtain rfl := Option.some.inj (h₁.symm.trans h₂)
        exact h⟩
    rw [hrest, ← hiff₁, ← hiff]
    constructor
    · intro heq
      omega
    · rintro ⟨h₁, h₂⟩
      omega

omit [DecidableEq Proc] in
/-- The books of a settled semaphore. -/
theorem Ledger.settled {t : Tally Proc} (h : Ledger v d t) (hsettled : Settled t.config) :
    t.config.sem.value + t.config.waited + d = v + t.returned := by
  obtain ⟨s, hs, hcount⟩ := h.balanced
  have hempty : s = ∅ := by
    refine Finset.eq_empty_of_forall_notMem fun p hp => (hsettled p).2 ?_
    rw [Pc.inPost, (hs p).mp hp, Bool.or_true]
  have htotal := h.deficit.settled fun p => (hsettled p).1
  rw [hempty, Finset.card_empty] at hcount
  omega

/-- Whenever nobody is inside of a decrement or of `sem_post`, the value and the completed waits
balance the initial value and the completed posts, if no increment has fallen between the read and
the write of a decrement; and only then. The increments stay in the range of `value`. -/
theorem no_post_lost (pid : Proc → ℕ) (sem : SemT) (hfits : sem.value < 2 ^ 64)
    (es : List (Event Proc)) (t : Tally Proc)
    (hrun : run (Tally.step pid) ⟨start Proc sem, 0⟩ es = some t) (hsettled : Settled t.config)
    (hroom : Throughout (Tally.step pid) (fun t => Roomy t.config) ⟨start Proc sem, 0⟩ es) :
    t.config.sem.value + t.config.waited = sem.value + t.returned ↔
      Throughout (Tally.step pid) (fun t => Undisturbed t.config) ⟨start Proc sem, 0⟩ es := by
  obtain ⟨d, hd, -, hiff⟩ := (ledger_start sem hfits).run hroom hrun
  have htotal := hd.settled hsettled
  rw [← hiff]
  omega

instance [Fintype Proc] (c : Config Proc) : Decidable (Settled c) :=
  inferInstanceAs (Decidable (∀ p, ¬ (c.pc p).inDecrement ∧ ¬ (c.pc p).inPost))

instance (c : Config Proc) : (e : Event Proc) → Decidable (Roomy c e)
  | .wait _ | .post _ => isTrue trivial
  | .access p => inferInstanceAs (Decidable (c.increments p → c.sem.value + 1 < 2 ^ 64))

instance [Fintype Proc] (c : Config Proc) : (e : Event Proc) → Decidable (Undisturbed c e)
  | .wait _ | .post _ => isTrue trivial
  | .access p => inferInstanceAs (Decidable (c.increments p → ∀ q, ¬ (c.pc q).decrementing))

/-- A wait, and a post in the middle of it but in front of the decrement. -/
theorem no_post_lost_early :
    ∃ t : Tally Bool,
      run (Tally.step fun p => if p then 1 else 2) ⟨start Bool { zeroTable 0 with value := 1 }, 0⟩
        [.wait true, .access true, .post false, .access false, .access false, .access false,
          .access false, .access true, .access true, .access true, .access true] = some t ∧
      Settled t.config ∧ t.config.sem.value + t.config.waited = 1 + t.returned := by
  set pid : Bool → ℕ := fun p => if p then 1 else 2
  set sem : SemT := { zeroTable 0 with value := 1 }
  set es : List (Event Bool) :=
    [.wait true, .access true, .post false, .access false, .access false, .access false,
      .access false, .access true, .access true, .access true, .access true]
  have hsettled : (run (Tally.step pid) ⟨start Bool sem, 0⟩ es).map
      (fun t => decide (Settled t.config)) = some true := by decide +kernel
  obtain ⟨t, hrun, ht⟩ := Option.map_eq_some_iff.mp hsettled
  refine ⟨t, hrun, of_decide_eq_true ht, ?_⟩
  exact (no_post_lost pid sem (by decide) es t hrun (of_decide_eq_true ht)
    (by decide +kernel)).mpr (by decide +kernel)

/-- A wait on the value 1, interrupted between the read and the write of `sem->value--` by a whole
`sem_post`: afterwards the value is 0. -/
theorem post_in_decrement_lost :
    ¬ ∀ (es : List (Event Bool)) (t : Tally Bool),
      run (Tally.step fun p => if p then 1 else 2) ⟨start Bool { zeroTable 0 with value := 1 }, 0⟩
        es = some t → Settled t.config →
      t.config.sem.value + t.config.waited = 1 + t.returned := by
  set pid : Bool → ℕ := fun p => if p then 1 else 2
  set sem : SemT := { zeroTable 0 with value := 1 }
  intro hclaim
  have hbooks : (run (Tally.step pid) ⟨start Bool sem, 0⟩
      [.wait true, .access true, .access true, .access true, .post false, .access false,
        .access false, .access false, .access false, .access true, .access true]).map
      (fun t => (decide (Settled t.config), t.config.sem.value, t.config.waited, t.returned)) =
      some (true, 0, 1, 1) := by decide +kernel
  obtain ⟨t, hrun, ht⟩ := Option.map_eq_some_iff.mp hbooks
  simp only [Prod.mk.injEq, decide_eq_true_eq] at ht
  have := hclaim _ t hrun ht.1
  omega

end TronKernel.Sem
