import TronKernel.Phylo.Forks

/-!
# One process for each philosopher

`removePhylo` takes the token that a philosopher puts into `think_unlock` after a round, marks the
philosopher LEAVING and gives the token back; the philosopher needs the token to go on and then sees
the mark. The token tells where the philosopher is while it is marked: it waits for it. Nothing
makes `addPhylo` wait until the mark was seen: it may write THINKING over it and start a second
process with the same id. In every run in which no mark is overwritten there is one process for each
id, and a process that was marked runs `take_fork` no more (`one_process_for_each_id`).
-/

namespace TronKernel.Phylo

open Runs

/-- The process can still run `take_fork`: it has not found itself LEAVING. -/
def Phil.live (f : Phil) : Bool :=
  match f.pc with
  | .leave | .gone => false
  | _ => true

/-- The process is in `take_fork`. -/
def At.inTake : At → Bool
  | .takeWait | .takeSet | .takeTest _ | .takePost | .takeLock => true
  | _ => false

/-- The process has its mark still to see. -/
def At.willSee : At → Bool
  | .thinkWait | .checkWait | .check => true
  | _ => false

/-- At most one process that can still run `take_fork` has an id. -/
def OnePerId (s : System) : Prop :=
  ∀ p q, (s.procs p).live = true → (s.procs q).live = true →
    (s.procs p).id = (s.procs q).id → p = q

/-- Where `addPhylo` is about to write THINKING, every process that had the id before has found
itself LEAVING. -/
def MarkSeen (s : System) : Event → Prop
  | .main => ∀ id, s.main = .addSet id → ∀ p, (s.procs p).id = id → (s.procs p).live = false
  | _ => True

/-- The tokens of `think_unlock[id]` that the main loop has taken. -/
def Main.held (m : Main) (id : ℕ) : ℕ :=
  match m with
  | .removeWait i | .removeSet i | .removeCount i | .removePost i | .removeUnlock i =>
    if i = id then 1 else 0
  | _ => 0

/-- The mark of the id stands: `count` does not reach it, or is about to. -/
def Marked (s : System) (id : ℕ) : Prop :=
  s.shared.count ≤ id ∨ s.main = .removeCount id

/-- A process with the id waits for its token. -/
def Waiting (s : System) (id : ℕ) : Prop := ∃ p, (s.procs p).id = id ∧ (s.procs p).pc = .thinkWait

/-- The token of a philosopher exists exactly while the philosopher waits for it, and who has lost
the id can only wait for the token and see the mark. -/
structure Settled (s : System) : Prop where
  guarded : Guarded s
  one : OnePerId s
  token : ∀ id, s.shared.thinkUnlock id + s.main.held id = 1 ∧ Waiting s id ∨
    s.shared.thinkUnlock id + s.main.held id = 0 ∧ ¬ Waiting s id
  marked : ∀ p, (s.procs p).live = true → Marked s (s.procs p).id →
    s.shared.state (s.procs p).id = .LEAVING ∧ (s.procs p).pc.willSee = true
  adding : ∀ id, s.main = .addCount id ∨ s.main = .addExec id →
    ∀ p, (s.procs p).id = id → (s.procs p).live = false

variable {s s' : System}

/-! ## A statement of a philosopher -/

theorem thinkUnlock_advance {t t' : Shared} {f : Phil} {pc : At} (h : advance t f = some (t', pc)) :
    (f.pc = .thinkPost ∧ pc = .thinkWait ∧
      t'.thinkUnlock = Function.update t.thinkUnlock f.id (t.thinkUnlock f.id + 1)) ∨
    (f.pc = .thinkWait ∧ pc = .checkWait ∧ 0 < t.thinkUnlock f.id ∧
      t'.thinkUnlock = Function.update t.thinkUnlock f.id (t.thinkUnlock f.id - 1)) ∨
    (f.pc ≠ .thinkWait ∧ pc ≠ .thinkWait ∧ t'.thinkUnlock = t.thinkUnlock) := by
  obtain ⟨id, pc₀⟩ := f
  cases pc₀ with
  | thinkPost => cases h; exact Or.inl ⟨rfl, rfl, rfl⟩
  | thinkWait =>
    obtain ⟨hwait, rfl⟩ := of_wait h
    obtain ⟨-, -, -, hpos, hunlock⟩ := Shared.waitThink_some hwait
    exact Or.inr (Or.inl ⟨rfl, rfl, hpos, hunlock⟩)
  | takeWait =>
    obtain ⟨hwait, rfl⟩ := of_wait h
    exact Or.inr (Or.inr ⟨by simp, by simp, (Shared.waitMutex_some hwait).2.2.2⟩)
  | putWait =>
    obtain ⟨hwait, rfl⟩ := of_wait h
    exact Or.inr (Or.inr ⟨by simp, by simp, (Shared.waitMutex_some hwait).2.2.2⟩)
  | checkWait =>
    obtain ⟨hwait, rfl⟩ := of_wait h
    exact Or.inr (Or.inr ⟨by simp, by simp, (Shared.waitMutex_some hwait).2.2.2⟩)
  | takeLock =>
    obtain ⟨hwait, rfl⟩ := of_wait h
    exact Or.inr (Or.inr ⟨by simp, by simp, (Shared.waitHungry_some hwait).2.2.2⟩)
  | takeTest t =>
    cases h
    exact Or.inr (Or.inr ⟨by simp, by cases (test _ _ t).2 <;> simp, thinkUnlock_test ..⟩)
  | putTestLeft target t =>
    cases h
    exact Or.inr (Or.inr ⟨by simp, by cases (test _ _ t).2 <;> simp, thinkUnlock_test ..⟩)
  | putTestRight target t =>
    cases h
    exact Or.inr (Or.inr ⟨by simp, by cases (test _ _ t).2 <;> simp, thinkUnlock_test ..⟩)
  | check =>
    cases h
    exact Or.inr (Or.inr ⟨by simp, by split_ifs <;> simp, rfl⟩)
  | gone => cases h
  | _ => cases h; exact Or.inr (Or.inr ⟨by simp, by simp, rfl⟩)

/-- A process that can still run `take_fork` could before. -/
theorem live_of_advance {t t' : Shared} {f : Phil} {pc : At} (h : advance t f = some (t', pc))
    (hlive : Phil.live ⟨f.id, pc⟩ = true) : f.live = true := by
  obtain ⟨id, pc₀⟩ := f
  cases pc₀ with
  | leave => cases h; cases hlive
  | gone => cases h
  | _ => rfl

/-- Who has the mark still to see goes on to see it, and writes nothing. -/
theorem advance_marked {t t' : Shared} {f : Phil} {pc : At} (h : advance t f = some (t', pc))
    (hsee : f.pc.willSee = true) (hmark : t.state f.id = .LEAVING)
    (hlive : Phil.live ⟨f.id, pc⟩ = true) : t'.state = t.state ∧ pc.willSee = true := by
  obtain ⟨id, pc₀⟩ := f
  cases pc₀ with
  | thinkWait =>
    obtain ⟨hwait, rfl⟩ := of_wait h
    exact ⟨(Shared.waitThink_some hwait).2.2.1, rfl⟩
  | checkWait =>
    obtain ⟨hwait, rfl⟩ := of_wait h
    exact ⟨(Shared.waitMutex_some hwait).2.2.1, rfl⟩
  | check =>
    simp only [advance, hmark, if_true] at h
    cases h
    cases hlive
  | _ => cases hsee

/-- The entry of a marked philosopher is not written by another process. -/
theorem state_advance {t t' : Shared} {f : Phil} {pc : At} {id : ℕ}
    (h : advance t f = some (t', pc)) (hlets : ∀ target, f.lets = some target → MayEat t target)
    (hmark : t.state id = .LEAVING) (hid : f.live = true → f.id ≠ id) :
    t'.state id = .LEAVING := by
  have heffect := advance_effect h
  cases heffect with
  | acquire hout hmutex hstate hlets => rw [hstate, hmark]
  | release hin hout hmutex hstate => rw [hstate, hmark]
  | outside hout hmutex hstate => rw [hstate, hmark]
  | look hin hmutex hstate hlets => rw [hstate, hmark]
  | write hin hpc hmutex value hvalue hstate hlets =>
    have hne : f.id ≠ id := by
      apply hid
      rcases hpc with hpc | hpc
      · rw [Phil.live, hpc]
      · rw [Phil.live, hpc]
    rw [hstate, Function.update_of_ne hne.symm, hmark]
  | eat hmutex target htarget hstate hnone =>
    -- who starts to eat is hungry
    have hne : id ≠ target := by
      rintro rfl
      have hhungry := (hlets id htarget).1
      rw [hmark] at hhungry
      cases hhungry
    rw [hstate, Function.update_of_ne hne, hmark]

@[simp] theorem goto_procs_self (s : System) (p : ℕ) (t : Shared) (pc : At) :
    (s.goto p t pc).procs p = ⟨(s.procs p).id, pc⟩ := Function.update_self ..

theorem goto_procs_of_ne {p q : ℕ} (t : Shared) (pc : At) (h : q ≠ p) :
    (s.goto p t pc).procs q = s.procs q := Function.update_of_ne h ..

@[simp] theorem goto_id (s : System) (p q : ℕ) (t : Shared) (pc : At) :
    ((s.goto p t pc).procs q).id = (s.procs q).id := by
  by_cases hq : q = p
  · rw [hq, goto_procs_self]
  · rw [goto_procs_of_ne t pc hq]

/-- No process comes to life by a statement of a process. -/
theorem live_of_goto {p q : ℕ} {t : Shared} {pc : At}
    (h : advance s.shared (s.procs p) = some (t, pc))
    (hlive : ((s.goto p t pc).procs q).live = true) : (s.procs q).live = true := by
  by_cases hq : q = p
  · subst hq
    rw [goto_procs_self] at hlive
    exact live_of_advance h hlive
  · rwa [goto_procs_of_ne t pc hq] at hlive

theorem live_of_thinkWait {f : Phil} (h : f.pc = .thinkWait) : f.live = true := by
  rw [Phil.live, h]

/-- Only one process with an id waits for its token. -/
theorem Settled.waits_alone (h : Settled s) {p q : ℕ} (hp : (s.procs p).live = true)
    (hid : (s.procs q).id = (s.procs p).id) (hq : (s.procs q).pc = .thinkWait) : q = p :=
  h.one q p (live_of_thinkWait hq) hp hid

/-- A statement of a process leaves the wait of the others alone. -/
theorem waiting_goto {p : ℕ} {t : Shared} {pc : At} {id : ℕ}
    (h : id ≠ (s.procs p).id ∨ ((s.procs p).pc ≠ .thinkWait ∧ pc ≠ .thinkWait)) :
    Waiting (s.goto p t pc) id ↔ Waiting s id := by
  have same : ∀ q, (s.procs q).id = id →
      (((s.goto p t pc).procs q).pc = .thinkWait ↔ (s.procs q).pc = .thinkWait) := by
    intro q hid
    by_cases hq : q = p
    · subst hq
      obtain ⟨hpc, hpc'⟩ := h.resolve_left (fun hne => hne hid.symm)
      rw [goto_procs_self]
      exact iff_of_false hpc' hpc
    · rw [goto_procs_of_ne t pc hq]
  unfold Waiting
  constructor
  · rintro ⟨q, hid, hq⟩
    rw [goto_id] at hid
    exact ⟨q, hid, (same q hid).mp hq⟩
  · rintro ⟨q, hid, hq⟩
    exact ⟨q, (goto_id ..).trans hid, (same q hid).mpr hq⟩

/-- The tokens after a statement of a philosopher. -/
theorem Settled.token_goto (h : Settled s) {p : ℕ} {t : Shared} {pc : At}
    (hadv : advance s.shared (s.procs p) = some (t, pc)) (id : ℕ) :
    t.thinkUnlock id + s.main.held id = 1 ∧ Waiting (s.goto p t pc) id ∨
      t.thinkUnlock id + s.main.held id = 0 ∧ ¬ Waiting (s.goto p t pc) id := by
  have htoken := h.token id
  rcases thinkUnlock_advance hadv with ⟨hpc, rfl, hunlock⟩ | ⟨hpc, rfl, hpos, hunlock⟩ |
    ⟨hpc, hpc', hunlock⟩
  · by_cases hid : id = (s.procs p).id
    · -- the philosopher puts its token down and waits
      have hlive : (s.procs p).live = true := by rw [Phil.live, hpc]
      have hnot : ¬ Waiting s id := by
        rintro ⟨q, hq, hwait⟩
        rw [h.waits_alone hlive (hq.trans hid) hwait, hpc] at hwait
        cases hwait
      obtain ⟨hzero, -⟩ := htoken.resolve_left fun hone => hnot hone.2
      refine Or.inl ⟨?_, p, (goto_id ..).trans hid.symm, by rw [goto_procs_self]⟩
      rw [hunlock, hid, Function.update_self]
      rw [hid] at hzero
      omega
    · rw [waiting_goto (Or.inl hid), hunlock, Function.update_of_ne hid]
      exact htoken
  · by_cases hid : id = (s.procs p).id
    · -- the philosopher takes its token back
      have hlive := live_of_thinkWait hpc
      have hwait : Waiting s id := ⟨p, hid.symm, hpc⟩
      obtain ⟨hone, -⟩ := htoken.resolve_right fun hzero => hzero.2 hwait
      refine Or.inr ⟨?_, ?_⟩
      · rw [hunlock, hid, Function.update_self]
        rw [hid] at hone
        omega
      · rintro ⟨q, hq, hqwait⟩
        rw [goto_id] at hq
        by_cases hqp : q = p
        · rw [hqp, goto_procs_self] at hqwait
          cases hqwait
        · rw [goto_procs_of_ne _ _ hqp] at hqwait
          exact hqp (h.waits_alone hlive (hq.trans hid) hqwait)
    · rw [waiting_goto (Or.inl hid), hunlock, Function.update_of_ne hid]
      exact htoken
  · rw [waiting_goto (Or.inr ⟨hpc, hpc'⟩), hunlock]
    exact htoken

theorem Settled.proc (h : Settled s) {p : ℕ} (hstep : step s (.proc p) = some s') :
    Settled s' := by
  have hguarded := h.guarded.proc hstep
  obtain ⟨t, pc, hadv, rfl⟩ := step_proc hstep
  have hcount : t.count = s.shared.count := count_advance hadv
  refine ⟨hguarded, ?_, h.token_goto hadv, ?_, ?_⟩
  · intro q r hq hr hid
    rw [goto_id, goto_id] at hid
    exact h.one q r (live_of_goto hadv hq) (live_of_goto hadv hr) hid
  · -- the marks
    intro q hlive hmarked
    rw [goto_id] at hmarked ⊢
    have hlive₀ := live_of_goto hadv hlive
    have hmarked₀ : Marked s (s.procs q).id := by
      refine hmarked.imp (fun hle => ?_) fun hm => hm
      exact hcount ▸ hle
    obtain ⟨hmark, hsee⟩ := h.marked q hlive₀ hmarked₀
    by_cases hq : q = p
    · subst hq
      rw [goto_procs_self] at hlive ⊢
      obtain ⟨hstate, hsee'⟩ := advance_marked hadv hsee hmark hlive
      refine ⟨?_, hsee'⟩
      rw [System.goto, hstate, hmark]
    · rw [goto_procs_of_ne t pc hq]
      refine ⟨state_advance hadv (h.guarded.lets p) hmark ?_, hsee⟩
      intro hp hid
      exact hq (h.one q p hlive₀ hp hid.symm)
  · intro id hm q hid
    rw [goto_id] at hid
    rw [Bool.eq_false_iff]
    intro hlive
    have hlive₀ := live_of_goto hadv hlive
    rw [h.adding id hm q hid] at hlive₀
    cases hlive₀

/-! ## A statement of the main loop -/

/-- The main loop takes a token from the table or gives it back. -/
theorem tokens_advanceMain {t t' : Shared} {m m' : Main} (h : advanceMain t m = some (t', m'))
    (id : ℕ) : t'.thinkUnlock id + m'.held id = t.thinkUnlock id + m.held id := by
  cases m with
  | key => cases h
  | addWait i =>
    obtain ⟨hwait, rfl⟩ := of_wait h
    rw [(Shared.waitMutex_some hwait).2.2.2]
    rfl
  | removeWait i =>
    obtain ⟨hwait, rfl⟩ := of_wait h
    rw [(Shared.waitMutex_some hwait).2.2.2]
    rfl
  | printWait =>
    obtain ⟨hwait, rfl⟩ := of_wait h
    rw [(Shared.waitMutex_some hwait).2.2.2]
    rfl
  | removeThink i =>
    obtain ⟨hwait, rfl⟩ := of_wait h
    obtain ⟨-, -, -, hpos, hunlock⟩ := Shared.waitThink_some hwait
    rw [hunlock]
    simp only [Main.held]
    by_cases hid : i = id
    · subst hid
      rw [Function.update_self, if_pos rfl]
      omega
    · rw [Function.update_of_ne (Ne.symm hid), if_neg hid]
  | removeUnlock i =>
    cases h
    simp only [Main.held, Shared.postThink]
    by_cases hid : i = id
    · subst hid
      rw [Function.update_self, if_pos rfl]
    · rw [Function.update_of_ne (Ne.symm hid), if_neg hid]
  | _ => cases h; rfl

/-- A mark that stands after a statement of the main loop was just made, or stood before and is
overwritten by `addPhylo` only. -/
theorem marked_advanceMain {t : Shared} {m : Main} {id : ℕ} (hok : MainOk s.shared s.main)
    (h : advanceMain s.shared s.main = some (t, m)) (hmarked : Marked (s.mainGoto t m) id) :
    (s.main = .removeSet id ∧ t.state id = .LEAVING) ∨
      Marked s id ∧ (t.state id = s.shared.state id ∨ s.main = .addSet id) := by
  obtain ⟨shared, main, procs, started⟩ := s
  have kept : t.count = shared.count → t.state = shared.state → m ≠ .removeCount id →
      Marked ⟨shared, main, procs, started⟩ id ∧
        (t.state id = shared.state id ∨ main = .addSet id) := by
    intro hcount hstate hm
    exact ⟨Or.inl (hcount ▸ hmarked.resolve_right hm), Or.inl (by rw [hstate])⟩
  cases main with
  | key => cases h
  | addWait i =>
    obtain ⟨hwait, rfl⟩ := of_wait h
    obtain ⟨-, hcount, hstate, -⟩ := Shared.waitMutex_some hwait
    exact Or.inr (kept hcount hstate (by simp))
  | removeWait i =>
    obtain ⟨hwait, rfl⟩ := of_wait h
    obtain ⟨-, hcount, hstate, -⟩ := Shared.waitMutex_some hwait
    exact Or.inr (kept hcount hstate (by simp))
  | printWait =>
    obtain ⟨hwait, rfl⟩ := of_wait h
    obtain ⟨-, hcount, hstate, -⟩ := Shared.waitMutex_some hwait
    exact Or.inr (kept hcount hstate (by simp))
  | removeThink i =>
    obtain ⟨hwait, rfl⟩ := of_wait h
    obtain ⟨-, hcount, hstate, -⟩ := Shared.waitThink_some hwait
    exact Or.inr (kept hcount hstate (by simp))
  | addSet i =>
    cases h
    refine Or.inr ⟨Or.inl (hmarked.resolve_right (by simp [System.mainGoto])), ?_⟩
    by_cases hid : id = i
    · exact Or.inr (by rw [hid])
    · exact Or.inl (Function.update_of_ne hid ..)
  | removeSet i =>
    cases h
    by_cases hid : id = i
    · subst hid
      exact Or.inl ⟨rfl, Function.update_self ..⟩
    · have hle : shared.count ≤ id := by
        refine hmarked.resolve_right fun hm => hid ?_
        simpa [System.mainGoto] using hm.symm
      exact Or.inr ⟨Or.inl hle, Or.inl (Function.update_of_ne hid ..)⟩
  | addCount i =>
    cases h
    have hle : shared.count + 1 ≤ id := hmarked.resolve_right (by simp [System.mainGoto])
    exact Or.inr ⟨Or.inl (Nat.le_of_succ_le hle), Or.inl rfl⟩
  | removeCount i =>
    cases h
    have hle : shared.count - 1 ≤ id := hmarked.resolve_right (by simp [System.mainGoto])
    have hcount : i + 1 = shared.count := hok.1
    refine Or.inr ⟨?_, Or.inl rfl⟩
    by_cases hid : id = i
    · exact Or.inr (by rw [hid])
    · exact Or.inl (show shared.count ≤ id by omega)
  | addExec i => cases h; exact Or.inr (kept rfl rfl (by simp))
  | addPost => cases h; exact Or.inr (kept rfl rfl (by simp))
  | removePost i => cases h; exact Or.inr (kept rfl rfl (by simp))
  | removeUnlock i => cases h; exact Or.inr (kept rfl rfl (by simp))
  | printPost => cases h; exact Or.inr (kept rfl rfl (by simp))

theorem Settled.mainGoto (h : Settled s) (hseen : MarkSeen s .main) {t : Shared} {m : Main}
    (hadv : advanceMain s.shared s.main = some (t, m)) : Settled (s.mainGoto t m) := by
  refine ⟨h.guarded.mainGoto hadv, h.one, ?_, ?_, ?_⟩
  · intro id
    show t.thinkUnlock id + m.held id = 1 ∧ Waiting s id ∨
      t.thinkUnlock id + m.held id = 0 ∧ ¬ Waiting s id
    rw [tokens_advanceMain hadv id]
    exact h.token id
  · intro p hlive hmarked
    rcases marked_advanceMain h.guarded.main hadv hmarked with ⟨hm, hleaving⟩ | ⟨hmarked₀, hstate⟩
    · -- the main loop holds the token, so the philosopher waits for it
      have hheld : s.main.held (s.procs p).id = 1 := by
        rw [hm]
        exact if_pos rfl
      obtain ⟨-, q, hid, hwait⟩ := (h.token (s.procs p).id).resolve_right fun hzero => by
        have := hzero.1
        omega
      rw [h.waits_alone hlive hid hwait] at hwait
      refine ⟨hleaving, ?_⟩
      show (s.procs p).pc.willSee = true
      rw [hwait]
      rfl
    · obtain ⟨hmark, hsee⟩ := h.marked p hlive hmarked₀
      refine ⟨?_, hsee⟩
      rcases hstate with hstate | hm
      · exact hstate.trans hmark
      · have hdead : (s.procs p).live = false := hseen _ hm p rfl
        rw [show (s.procs p).live = true from hlive] at hdead
        cases hdead
  · intro id hm p hid
    have hbefore : s.main = .addSet id ∨ s.main = .addCount id := by
      have hadv' := hadv
      revert hadv'
      generalize s.main = main
      intro hadv'
      cases main with
      | addSet i =>
        cases hadv'
        exact Or.inl (by simpa [System.mainGoto] using hm)
      | addCount i =>
        cases hadv'
        exact Or.inr (by simpa [System.mainGoto] using hm)
      | key => cases hadv'
      | addWait i =>
        obtain ⟨-, rfl⟩ := of_wait hadv'
        simp [System.mainGoto] at hm
      | removeThink i =>
        obtain ⟨-, rfl⟩ := of_wait hadv'
        simp [System.mainGoto] at hm
      | removeWait i =>
        obtain ⟨-, rfl⟩ := of_wait hadv'
        simp [System.mainGoto] at hm
      | printWait =>
        obtain ⟨-, rfl⟩ := of_wait hadv'
        simp [System.mainGoto] at hm
      | _ =>
        cases hadv'
        simp [System.mainGoto] at hm
    rcases hbefore with hset | hcount
    · exact hseen id hset p hid
    · exact h.adding id (Or.inl hcount) p hid

theorem exec_procs_of_ne {f : Phil} {p : ℕ} (h : p ≠ s.started) :
    (s.exec f).procs p = s.procs p := Function.update_of_ne h ..

theorem exec_procs_self (s : System) (f : Phil) : (s.exec f).procs s.started = f :=
  Function.update_self ..

/-- A process with an id that no live process has. -/
theorem Settled.exec (h : Settled s) {id : ℕ} (hmain : s.main = .addPost)
    (hdead : ∀ p, (s.procs p).id = id → (s.procs p).live = false) (hlt : id < s.shared.count) :
    Settled (s.exec ⟨id, .takeWait⟩) := by
  have hgone : (s.procs s.started).pc = .gone := h.guarded.fresh s.started (Nat.le_refl _)
  have alive : ∀ p, p ≠ s.started → ((s.exec ⟨id, .takeWait⟩).procs p).live = true →
      (s.procs p).live = true ∧ (s.procs p).id ≠ id := by
    intro p hp hlive
    rw [exec_procs_of_ne hp] at hlive
    refine ⟨hlive, fun hid => ?_⟩
    rw [hdead p hid] at hlive
    cases hlive
  refine ⟨h.guarded.exec rfl, ?_, ?_, ?_, ?_⟩
  · intro p q hp hq hid
    by_cases hpn : p = s.started
    · by_cases hqn : q = s.started
      · rw [hpn, hqn]
      · rw [hpn, exec_procs_self, exec_procs_of_ne hqn] at hid
        exact absurd hid.symm (alive q hqn hq).2
    · by_cases hqn : q = s.started
      · rw [hqn, exec_procs_self, exec_procs_of_ne hpn] at hid
        exact absurd hid (alive p hpn hp).2
      · rw [exec_procs_of_ne hpn, exec_procs_of_ne hqn] at hid
        exact h.one p q (alive p hpn hp).1 (alive q hqn hq).1 hid
  · intro i
    have same : Waiting (s.exec ⟨id, .takeWait⟩) i ↔ Waiting s i := by
      unfold Waiting
      constructor
      · rintro ⟨p, hid, hp⟩
        by_cases hpn : p = s.started
        · rw [hpn, exec_procs_self] at hp
          cases hp
        · rw [exec_procs_of_ne hpn] at hid hp
          exact ⟨p, hid, hp⟩
      · rintro ⟨p, hid, hp⟩
        have hpn : p ≠ s.started := by
          rintro rfl
          rw [hgone] at hp
          cases hp
        exact ⟨p, by rw [exec_procs_of_ne hpn, hid], by rw [exec_procs_of_ne hpn, hp]⟩
    rw [same]
    exact h.token i
  · intro p hlive hmarked
    by_cases hpn : p = s.started
    · rw [hpn, exec_procs_self] at hmarked
      rcases hmarked with hle | hm
      · exact absurd hlt (Nat.not_lt.mpr hle)
      · exact absurd (hmain.symm.trans hm) (by simp)
    · rw [exec_procs_of_ne hpn] at hlive hmarked ⊢
      exact h.marked p hlive hmarked
  · intro i hm
    rcases hm with hm | hm
    · exact absurd (hmain.symm.trans hm) (by simp)
    · exact absurd (hmain.symm.trans hm) (by simp)

/-- Every event that overwrites no mark keeps the tokens and the marks right. -/
theorem Settled.step (h : Settled s) {e : Event} (hseen : MarkSeen s e)
    (hstep : step s e = some s') : Settled s' := by
  cases e with
  | proc p => exact h.proc hstep
  | main =>
    obtain ⟨t, m, hadv, ⟨-, rfl⟩ | ⟨id, hexec, rfl⟩⟩ := step_main hstep
    · exact h.mainGoto hseen hadv
    · have hok : MainOk s.shared (.addExec id) := hexec ▸ h.guarded.main
      have hnext := h.mainGoto hseen hadv
      rw [hexec] at hadv
      cases hadv
      refine hnext.exec rfl (h.adding id (Or.inr hexec)) ?_
      exact Nat.lt_of_succ_le (Nat.le_of_eq hok)
  | key k =>
    have hguarded := h.guarded.step hstep
    rw [Phylo.step] at hstep
    split_ifs at hstep with hkey
    obtain rfl := Option.some.inj hstep
    have hheld : ∀ id, (pressed s.shared k).held id = s.main.held id := by
      intro id
      rw [hkey]
      cases k with
      | a => unfold pressed; split_ifs <;> rfl
      | r => unfold pressed; split_ifs <;> rfl
      | other => rfl
    have hnot : ∀ id, pressed s.shared k ≠ .removeCount id ∧ pressed s.shared k ≠ .addCount id ∧
        pressed s.shared k ≠ .addExec id := by
      intro id
      cases k with
      | a => unfold pressed; split_ifs <;> simp
      | r => unfold pressed; split_ifs <;> simp
      | other => simp [pressed]
    refine ⟨hguarded, h.one, ?_, ?_, ?_⟩
    · intro id
      have htoken := h.token id
      rw [← hheld id] at htoken
      exact htoken
    · intro p hlive hmarked
      exact h.marked p hlive (Or.inl (hmarked.resolve_right (hnot _).1))
    · intro id hm
      exact absurd hm (not_or.mpr (hnot id).2)

theorem settled_table {n : ℕ} (hmin : MIN ≤ n) (hmax : n ≤ MAX) : Settled (table n) := by
  have hid : ∀ p, ((table n).procs p).id = p := by
    intro p
    simp only [table]
    split_ifs <;> rfl
  have hpc : ∀ p, ((table n).procs p).pc ≠ .thinkWait := by
    intro p
    simp only [table]
    split_ifs <;> simp
  refine ⟨guarded_table hmin hmax, ?_, ?_, ?_, ?_⟩
  · intro p q _ _ heq
    rwa [hid, hid] at heq
  · intro id
    refine Or.inr ⟨rfl, ?_⟩
    rintro ⟨p, -, hp⟩
    exact hpc p hp
  · intro p hlive hmarked
    rw [hid] at hmarked
    have hle : n ≤ p := hmarked.resolve_right (by simp [table])
    simp only [table, if_neg (Nat.not_lt.mpr hle)] at hlive
    cases hlive
  · intro id hm
    rcases hm with hm | hm
    · cases hm
    · cases hm

/-! ## Who was marked -/

/-- The process has lost its id: it has found itself LEAVING or its mark stands. -/
def Doomed (s : System) (p : ℕ) : Prop :=
  p < s.started ∧ ((s.procs p).live = true → Marked s (s.procs p).id)

/-- A process that has lost its id is not in `take_fork`. -/
theorem Settled.not_inTake (h : Settled s) {p : ℕ} (hp : Doomed s p) :
    (s.procs p).pc.inTake = false := by
  rw [Bool.eq_false_iff]
  intro htake
  have hlive : (s.procs p).live = true := by
    unfold Phil.live
    cases hpc : (s.procs p).pc with
    | leave => rw [hpc] at htake; cases htake
    | gone => rw [hpc] at htake; cases htake
    | _ => rfl
  have hsee := (h.marked p hlive (hp.2 hlive)).2
  cases hpc : (s.procs p).pc with
  | thinkWait => rw [hpc] at htake; cases htake
  | checkWait => rw [hpc] at htake; cases htake
  | check => rw [hpc] at htake; cases htake
  | _ => rw [hpc] at hsee; cases hsee

/-- A mark that stands is taken away only by `count++`, for the id of the new philosopher. -/
theorem marked_mainGoto {t : Shared} {m : Main} {id : ℕ} (hok : MainOk s.shared s.main)
    (h : advanceMain s.shared s.main = some (t, m)) (hmarked : Marked s id)
    (hadd : s.main ≠ .addCount id) : Marked (s.mainGoto t m) id := by
  have heffect := advanceMain_effect h
  have reaches : s.main ≠ .removeCount id → s.shared.count ≤ id := by
    intro hne
    exact hmarked.resolve_right hne
  by_cases hremove : s.main = .removeCount id
  · rw [hremove] at h hok
    cases h
    exact Or.inl (Nat.sub_le_of_le_add (Nat.le_of_eq hok.1.symm))
  · have hle := reaches hremove
    cases heffect with
    | acquire hmutex hcount hstate => exact Or.inl (hcount ▸ hle)
    | release hin hout hmutex hcount hstate => exact Or.inl (hcount ▸ hle)
    | outside hout hmutex hcount hstate => exact Or.inl (hcount ▸ hle)
    | write hin hmutex hcount i value hvalue hstate => exact Or.inl (hcount ▸ hle)
    | exec i hm hmutex hcount hstate => exact Or.inl (hcount ▸ hle)
    | remove i hm hmutex hcount hstate =>
      exact Or.inl (hcount ▸ Nat.le_trans (Nat.sub_le ..) hle)
    | add i hm hmutex hcount hstate =>
      have hok' : MainOk s.shared (.addCount i) := hm ▸ hok
      have hne : i ≠ id := fun heq => hadd (heq ▸ hm)
      have hlt : s.shared.count < id := Nat.lt_of_le_of_ne hle fun heq => hne (hok'.1.trans heq)
      exact Or.inl (hcount ▸ hlt)

/-- A process that has lost its id does not get it back. -/
theorem Settled.doomed_step (h : Settled s) {p : ℕ} (hp : Doomed s p) {e : Event}
    (hstep : Phylo.step s e = some s') : Doomed s' p := by
  cases e with
  | proc q =>
    obtain ⟨t, pc, hadv, rfl⟩ := step_proc hstep
    refine ⟨hp.1, fun hlive => ?_⟩
    rw [goto_id]
    refine (hp.2 (live_of_goto hadv hlive)).imp (fun hle => ?_) fun hm => hm
    exact (count_advance hadv) ▸ hle
  | main =>
    obtain ⟨t, m, hadv, hgoto⟩ := step_main hstep
    have hmarked : (s.procs p).live = true → Marked (s.mainGoto t m) (s.procs p).id := by
      intro hlive
      apply marked_mainGoto h.guarded.main hadv (hp.2 hlive)
      intro hm
      rw [h.adding _ (Or.inl hm) p rfl] at hlive
      cases hlive
    rcases hgoto with ⟨-, rfl⟩ | ⟨id, -, rfl⟩
    · exact ⟨hp.1, hmarked⟩
    · refine ⟨Nat.lt_succ_of_lt hp.1, fun hlive => ?_⟩
      have hold : ((s.mainGoto t m).exec ⟨id, .takeWait⟩).procs p = s.procs p :=
        exec_procs_of_ne (Nat.ne_of_lt hp.1)
      rw [hold] at hlive ⊢
      exact hmarked hlive
  | key k =>
    rw [Phylo.step] at hstep
    split_ifs at hstep with hkey
    obtain rfl := Option.some.inj hstep
    refine ⟨hp.1, fun hlive => Or.inl ?_⟩
    exact (hp.2 hlive).resolve_right fun hm => absurd (hkey.symm.trans hm) (by simp)

/-- The mark takes the id away from every process that had it. -/
theorem doomed_of_mark {id p : ℕ} (hmain : s.main = .removeSet id) (hp : p < s.started)
    (hid : (s.procs p).id = id) (hstep : step s .main = some s') : Doomed s' p := by
  simp only [step, hmain, advanceMain, Option.map_some] at hstep
  obtain rfl := Option.some.inj hstep
  refine ⟨hp, fun _ => Or.inr ?_⟩
  rw [hid]

/-- **One process for each id.** In a run of the philosophers and the main loop in which `addPhylo`
overwrites no mark that is still to be seen, at most one process that can still run `take_fork` has
an id, and every process that had the id when `removePhylo` marked it is not in `take_fork`
afterwards. -/
theorem one_process_for_each_id {n : ℕ} (hmin : MIN ≤ n) (hmax : n ≤ MAX) {es : List Event}
    (hseen : Throughout step MarkSeen (table n) es) {s : System}
    (hrun : run step (table n) es = some s) :
    OnePerId s ∧ ∀ es₁ es₂ s₁ id p, es = es₁ ++ .main :: es₂ → run step (table n) es₁ = some s₁ →
      s₁.main = .removeSet id → p < s₁.started → (s₁.procs p).id = id →
      (s.procs p).pc.inTake = false := by
  have settles : ∀ s e s', Settled s → MarkSeen s e → step s e = some s' → Settled s' :=
    fun s e s' h hseen hstep => h.step hseen hstep
  have hstart := settled_table hmin hmax
  have hsettled := run_preserves hstart hseen settles hrun
  refine ⟨hsettled.one, ?_⟩
  rintro es₁ es₂ s₁ id p rfl hrun₁ hmain hp hid
  obtain ⟨hseen₁, hseen₂⟩ := hseen.split hrun₁
  have hsettled₁ := run_preserves hstart hseen₁ settles hrun₁
  rw [run_append, hrun₁, Option.bind_some, run_cons, Option.bind_eq_some_iff] at hrun
  obtain ⟨s₂, hstep, hrest⟩ := hrun
  have hsettled₂ := hsettled₁.step hseen₂.1 hstep
  have hdoomed := doomed_of_mark hmain hp hid hstep
  have keeps : ∀ s e s', Settled s ∧ Doomed s p → MarkSeen s e → step s e = some s' →
      Settled s' ∧ Doomed s' p :=
    fun s e s' h hseen hstep => ⟨h.1.step hseen hstep, h.1.doomed_step h.2 hstep⟩
  have hlast := run_preserves ⟨hsettled₂, hdoomed⟩ (hseen₂.2 s₂ hstep) keeps hrest
  exact hlast.1.not_inTake hlast.2

/-- Philosopher 4 eats once, and is removed while it waits for its token. -/
def removeLast : List Event :=
  List.replicate 15 (.proc 4) ++ .key .r :: List.replicate 8 .main

/-- Philosopher 4 sees its mark, and then a new philosopher gets the id. -/
def replaceLast : List Event :=
  removeLast ++ List.replicate 4 (.proc 4) ++ .key .a :: List.replicate 4 .main

/-- No mark is overwritten, as far as the processes started so far tell. -/
def markSeen (s : System) : Bool :=
  match s.main with
  | .addSet id => decide (∀ p < s.started, (s.procs p).id = id → (s.procs p).live = false)
  | _ => true

theorem Guarded.markSeen (h : Guarded s) (hseen : markSeen s = true) (e : Event) :
    MarkSeen s e := by
  cases e with
  | main =>
    intro id hm p hid
    rw [Phylo.markSeen, hm] at hseen
    by_cases hp : p < s.started
    · exact of_decide_eq_true hseen p hp hid
    · rw [Phil.live, h.fresh p (Nat.le_of_not_lt hp)]
  | _ => trivial

theorem one_process_for_each_id_five :
    ∃ s, run step (table 5) replaceLast = some s ∧ OnePerId s := by
  have hcheck : Throughout step (fun s _ => markSeen s = true) (table 5) replaceLast := by
    decide +kernel
  have hseen : Throughout step MarkSeen (table 5) replaceLast := by
    refine hcheck.of_invariant (guarded_table (by decide) (by decide)) ?_
    intro s e hguarded hseen
    exact ⟨hguarded.markSeen hseen e, fun s' hstep => hguarded.step hstep⟩
  have hsome : (run step (table 5) replaceLast).isSome = true := by decide +kernel
  obtain ⟨s, hs⟩ := Option.isSome_iff_exists.mp hsome
  exact ⟨s, hs, (one_process_for_each_id (by decide) (by decide) hseen hs).1⟩

/-- A philosopher is added before the last one has seen its mark: two processes have the id 4 and
can run `take_fork`. -/
theorem removeLast_twice :
    ¬ ∀ es s, run step (table 5) es = some s → OnePerId s := by
  intro hall
  have hrun : (run step (table 5) (removeLast ++ .key .a :: List.replicate 4 .main)).map
      (fun s => (s.procs 4, s.procs 5)) = some (⟨4, .thinkWait⟩, ⟨4, .takeWait⟩) := by
    decide +kernel
  obtain ⟨s, hs, hview⟩ := Option.map_eq_some_iff.mp hrun
  simp only [Prod.mk.injEq] at hview
  have htwice := hall _ s hs 4 5 (by rw [hview.1]; rfl) (by rw [hview.2]; rfl)
    (by rw [hview.1, hview.2])
  exact absurd htwice (by decide)

end TronKernel.Phylo
