import TronKernel.Phylo.Removal

/-!
# Hungry philosophers

As long as nobody is added or removed, every philosopher that waits for its forks has a neighbour
that eats: whoever stops eating looks at both neighbours before `MUTEX` is free again, so nobody is
forgotten. A philosopher that eats has what it needs to go on (`waits_for_a_neighbour`), and so
there is always one that can go on (`some_philosopher_goes_on`).
-/

namespace TronKernel.Phylo

open Runs Lock

/-- What a philosopher is doing, by its next statement. -/
inductive Stage where
  | thinking
  /-- behind `state[id] = HUNGRY`, up to `sem_wait(hungry_lock[id])` -/
  | hungry
  /-- behind `sem_wait(hungry_lock[id])`, up to `state[id] = THINKING` -/
  | eating
deriving DecidableEq, Repr

def At.stage : At → Stage
  | .takeTest _ | .takePost | .takeLock => .hungry
  | .putWait | .putSet => .eating
  | _ => .thinking

/-- The philosopher that the next statement posts `hungry_lock` for. -/
def Phil.owes (f : Phil) : Option ℕ :=
  match f.pc with
  | .takeTest .post => some f.id
  | .putTestLeft target .post => some target
  | .putTestRight target .post => some target
  | _ => none

/-- Philosopher `id` will still be tested before `MUTEX` is free. -/
def Phil.tests (s : Shared) (f : Phil) (id : ℕ) : Prop :=
  match f.pc with
  | .takeTest .cond | .takeTest .eat => id = f.id
  | .putLeft => id = left s f.id ∨ id = right s f.id
  | .putTestLeft target .cond | .putTestLeft target .eat => id = target ∨ id = right s f.id
  | .putTestLeft _ .post | .putRight => id = right s f.id
  | .putTestRight target .cond | .putTestRight target .eat => id = target
  | _ => False

theorem Phil.inside_of_owes {f : Phil} {id : ℕ} (h : f.owes = some id) : f.pc.inside = true := by
  unfold Phil.owes at h
  split at h
  · next heq => rw [heq]; rfl
  · next heq => rw [heq]; rfl
  · next heq => rw [heq]; rfl
  · exact absurd h (by simp)

theorem Phil.inside_of_tests {s : Shared} {f : Phil} {id : ℕ} (h : f.tests s id) :
    f.pc.inside = true := by
  obtain ⟨i, pc⟩ := f
  cases pc <;> first | rfl | exact h.elim

/-- The `state` entry of a philosopher, its semaphore and the post that is owed to it. -/
def Plate (stage : Stage) (state : State) (lock : ℕ) (owed : Prop) : Prop :=
  match stage with
  | .thinking => state = .THINKING ∧ lock = 0 ∧ ¬ owed
  | .hungry => (state = .HUNGRY ∧ lock = 0 ∧ ¬ owed) ∨
      (state = .EATING ∧ (lock = 1 ∧ ¬ owed ∨ lock = 0 ∧ owed))
  | .eating => state = .EATING ∧ lock = 0 ∧ ¬ owed

/-! ## What one statement of a philosopher does -/

/-- The effect of a statement on `state`, `hungry_lock` and what is still to be done. -/
inductive Serves (s : Shared) (f : Phil) (s' : Shared) (pc : At) : Prop
  | keeps (hstate : s'.state = s.state) (hlock : s'.hungryLock = s.hungryLock)
      (hstage : pc.stage = f.pc.stage) (howes : f.owes = none)
      (howes' : Phil.owes ⟨f.id, pc⟩ = none)
      (htests : ∀ id, f.tests s id → Phil.tests s ⟨f.id, pc⟩ id ∨ ¬ MayEat s id)
  | hungry (hstage : f.pc.stage = .thinking) (hpc : pc = .takeTest .cond) (hin : f.pc.inside = true)
      (hstate : s'.state = Function.update s.state f.id .HUNGRY)
      (hlock : s'.hungryLock = s.hungryLock) (howes : f.owes = none) (hnone : ∀ id, ¬ f.tests s id)
  | eat (target : ℕ) (hlets : f.lets = some target)
      (hstate : s'.state = Function.update s.state target .EATING)
      (hlock : s'.hungryLock = s.hungryLock) (hstage : pc.stage = f.pc.stage)
      (howes : f.owes = none) (howes' : Phil.owes ⟨f.id, pc⟩ = some target)
      (htests : ∀ id, f.tests s id → Phil.tests s ⟨f.id, pc⟩ id ∨ id = target)
  | post (target : ℕ) (howes : f.owes = some target) (hstate : s'.state = s.state)
      (hlock : s'.hungryLock = Function.update s.hungryLock target (s.hungryLock target + 1))
      (hstage : pc.stage = f.pc.stage) (howes' : Phil.owes ⟨f.id, pc⟩ = none)
      (htests : ∀ id, f.tests s id → Phil.tests s ⟨f.id, pc⟩ id)
  | served (hpc : f.pc = .takeLock) (hpc' : pc = .putWait) (hstate : s'.state = s.state)
      (hpos : 0 < s.hungryLock f.id)
      (hlock : s'.hungryLock = Function.update s.hungryLock f.id (s.hungryLock f.id - 1))
  | done (hpc : f.pc = .putSet) (hpc' : pc = .putLeft)
      (hstate : s'.state = Function.update s.state f.id .THINKING)
      (hlock : s'.hungryLock = s.hungryLock)

/-- The effect of a statement of `test`, wherever it is called. -/
theorem test_serves {s : Shared} {f : Phil} {target : ℕ} {t : Test} {next : At} {within : Test → At}
    (more : ℕ → Prop) (hpc : f.pc = within t) (hstage : ∀ t, (within t).stage = f.pc.stage)
    (hnext : next.stage = f.pc.stage)
    (howes : ∀ t, Phil.owes ⟨f.id, within t⟩ = if t = .post then some target else none)
    (hnone : Phil.owes ⟨f.id, next⟩ = none)
    (hlets : ∀ t, Phil.lets ⟨f.id, within t⟩ = if t = .eat then some target else none)
    (htests : ∀ t id, Phil.tests s ⟨f.id, within t⟩ id ↔ t ≠ .post ∧ id = target ∨ more id)
    (hrest : ∀ id, more id → Phil.tests s ⟨f.id, next⟩ id) :
    Serves s f (test s target t).1 ((test s target t).2.elim next within) := by
  have hf : f = ⟨f.id, within t⟩ := by rw [← hpc]
  have hto : f.owes = if t = .post then some target else none := by rw [← howes t, ← hf]
  have htl : f.lets = if t = .eat then some target else none := by rw [← hlets t, ← hf]
  have htt : ∀ id, f.tests s id ↔ t ≠ .post ∧ id = target ∨ more id := fun id => by
    rw [← htests t id, ← hf]
  cases t with
  | cond =>
    by_cases hmay : MayEat s target
    · simp only [test, if_pos hmay, Option.elim]
      refine .keeps rfl rfl (hstage .eat) hto (howes .eat) fun id hid => Or.inl ?_
      rw [htests]
      exact ((htt id).mp hid).imp_left fun h => ⟨Test.noConfusion, h.2⟩
    · simp only [test, if_neg hmay, Option.elim]
      refine .keeps rfl rfl hnext hto hnone fun id hid => ?_
      rcases (htt id).mp hid with ⟨-, rfl⟩ | hmore
      · exact Or.inr hmay
      · exact Or.inl (hrest id hmore)
  | eat =>
    refine .eat target htl rfl rfl (hstage .post) hto (howes .post) fun id hid => ?_
    rcases (htt id).mp hid with ⟨-, rfl⟩ | hmore
    · exact Or.inr rfl
    · exact Or.inl ((htests .post id).mpr (Or.inr hmore))
  | post =>
    refine .post target hto rfl rfl hnext hnone fun id hid => ?_
    exact hrest id (((htt id).mp hid).resolve_left fun h => h.1 rfl)

theorem Shared.waitMutex_hungryLock {s s' : Shared} (h : s.waitMutex = some s') :
    s'.hungryLock = s.hungryLock := by
  unfold Shared.waitMutex at h
  split_ifs at h
  exact (congrArg Shared.hungryLock (Option.some.inj h)).symm

theorem Shared.waitThink_hungryLock {s s' : Shared} {id : ℕ} (h : s.waitThink id = some s') :
    s'.hungryLock = s.hungryLock := by
  unfold Shared.waitThink at h
  split_ifs at h
  exact (congrArg Shared.hungryLock (Option.some.inj h)).symm

/-- The effect of every statement of a philosopher. -/
theorem advance_serves {s s' : Shared} {f : Phil} {pc : At} (h : advance s f = some (s', pc)) :
    Serves s f s' pc := by
  have acquire : ∀ next : At, next.stage = f.pc.stage → f.owes = none →
      Phil.owes ⟨f.id, next⟩ = none → (∀ id, ¬ f.tests s id) →
      s.waitMutex.map (·, next) = some (s', pc) → Serves s f s' pc := by
    intro next hstage howes howes' hnone h
    obtain ⟨hwait, rfl⟩ := of_wait h
    exact .keeps (Shared.waitMutex_some hwait).2.2.1 (Shared.waitMutex_hungryLock hwait) hstage
      howes howes' fun id hid => absurd hid (hnone id)
  obtain ⟨id, pc₀⟩ := f
  cases pc₀ with
  | takeWait => exact acquire .takeSet rfl rfl rfl (fun _ hid => hid) h
  | putWait => exact acquire .putSet rfl rfl rfl (fun _ hid => hid) h
  | checkWait => exact acquire .check rfl rfl rfl (fun _ hid => hid) h
  | takeSet => cases h; exact .hungry rfl rfl rfl rfl rfl rfl fun _ hid => hid
  | takeTest t =>
    cases h
    exact test_serves (fun _ => False) rfl (fun _ => rfl) rfl (fun t => by cases t <;> rfl)
      rfl (fun t => by cases t <;> rfl) (fun t id => by cases t <;> simp [Phil.tests])
      fun _ => False.elim
  | takePost => cases h; exact .keeps rfl rfl rfl rfl rfl fun _ hid => hid.elim
  | takeLock =>
    obtain ⟨hwait, rfl⟩ := of_wait h
    unfold Shared.waitHungry at hwait
    split_ifs at hwait with hpos
    obtain rfl := Option.some.inj hwait
    exact .served rfl rfl rfl hpos rfl
  | putSet => cases h; exact .done rfl rfl rfl rfl
  | putLeft => cases h; exact .keeps rfl rfl rfl rfl rfl fun _ hid => Or.inl hid
  | putTestLeft target t =>
    cases h
    exact test_serves (fun i => i = right s id) rfl (fun _ => rfl) rfl
      (fun t => by cases t <;> rfl) rfl (fun t => by cases t <;> rfl)
      (fun t id => by cases t <;> simp [Phil.tests]) fun _ hid => hid
  | putRight => cases h; exact .keeps rfl rfl rfl rfl rfl fun _ hid => Or.inl hid
  | putTestRight target t =>
    cases h
    exact test_serves (fun _ => False) rfl (fun _ => rfl) rfl (fun t => by cases t <;> rfl)
      rfl (fun t => by cases t <;> rfl) (fun t id => by cases t <;> simp [Phil.tests])
      fun _ => False.elim
  | putPost => cases h; exact .keeps rfl rfl rfl rfl rfl fun _ hid => hid.elim
  | thinkPost => cases h; exact .keeps rfl rfl rfl rfl rfl fun _ hid => hid.elim
  | thinkWait =>
    obtain ⟨hwait, rfl⟩ := of_wait h
    exact .keeps (Shared.waitThink_some hwait).2.2.1 (Shared.waitThink_hungryLock hwait) rfl rfl rfl
      fun _ hid => hid.elim
  | check =>
    cases h
    refine .keeps rfl rfl ?_ rfl ?_ fun _ hid => hid.elim
    · split_ifs <;> rfl
    · split_ifs <;> rfl
  | leave => cases h; exact .keeps rfl rfl rfl rfl rfl fun _ hid => hid.elim
  | stay => cases h; exact .keeps rfl rfl rfl rfl rfl fun _ hid => hid.elim
  | gone => cases h

/-! ## The table stays as it is -/

/-- The main loop adds and removes nobody. -/
def Undisturbed (s : System) : Event → Prop
  | .key k => pressed s.shared k = .printWait
  | _ => True

/-- The main loop waits for a key or prints the states. -/
def Main.idle (m : Main) : Prop := m = .key ∨ m = .printWait ∨ m = .printPost

/-- A post for philosopher `id` is owed. -/
def Owed (s : System) (id : ℕ) : Prop := ∃ q, (s.procs q).owes = some id

/-- Philosopher `id` will still be tested. -/
def Pending (s : System) (id : ℕ) : Prop := ∃ q, (s.procs q).tests s.shared id

/-- Each philosopher has what it has asked for or is waited for by nobody, and a hungry philosopher
that might eat will still be tested. -/
structure Served (n : ℕ) (s : System) : Prop where
  settled : Settled s
  busy : s.shared.mutex = 0 → ∃ a, s.inside a
  main : s.main.idle
  count : s.shared.count = n
  ids : ∀ p, (s.procs p).id = p
  gone : ∀ p, n ≤ p → (s.procs p).pc = .gone
  present : ∀ p, p < n → (s.procs p).pc ≠ .gone ∧ (s.procs p).pc ≠ .leave
  plate : ∀ p, p < n →
    Plate (s.procs p).pc.stage (s.shared.state p) (s.shared.hungryLock p) (Owed s p)
  tested : ∀ p, p < n → MayEat s.shared p → Pending s p

variable {n : ℕ} {s s' : System}

theorem Phil.tests_congr {t t' : Shared} {f : Phil} {id : ℕ} (hcount : t'.count = t.count) :
    f.tests t' id ↔ f.tests t id := by
  unfold Phil.tests left right
  rw [hcount]

/-- Who is inside is alone. -/
theorem Served.alone (h : Served n s) {p q : ℕ} (hp : (s.procs p).pc.inside = true)
    (hq : (s.procs q).pc.inside = true) : p = q :=
  Option.some.inj (h.settled.guarded.lock.alone (some p) (some q) hp hq)

theorem owed_goto {q id : ℕ} {t : Shared} {pc : At} :
    Owed (s.goto q t pc) id ↔
      Phil.owes ⟨(s.procs q).id, pc⟩ = some id ∨ ∃ r, r ≠ q ∧ (s.procs r).owes = some id := by
  constructor
  · rintro ⟨r, hr⟩
    by_cases hrq : r = q
    · subst hrq
      simp only [System.goto, Function.update_self] at hr
      exact Or.inl hr
    · rw [goto_procs_of_ne t pc hrq] at hr
      exact Or.inr ⟨r, hrq, hr⟩
  · rintro (hq | ⟨r, hrq, hr⟩)
    · refine ⟨q, ?_⟩
      simpa only [System.goto, Function.update_self] using hq
    · refine ⟨r, ?_⟩
      rwa [goto_procs_of_ne t pc hrq]

/-- The posts that are owed after a statement that changes nothing about them. -/
theorem owed_goto_iff {q id : ℕ} {t : Shared} {pc : At}
    (h : Phil.owes ⟨(s.procs q).id, pc⟩ = some id ↔ (s.procs q).owes = some id) :
    Owed (s.goto q t pc) id ↔ Owed s id := by
  rw [owed_goto, h]
  constructor
  · rintro (hq | ⟨r, -, hr⟩)
    · exact ⟨q, hq⟩
    · exact ⟨r, hr⟩
  · rintro ⟨r, hr⟩
    by_cases hrq : r = q
    · exact Or.inl (hrq ▸ hr)
    · exact Or.inr ⟨r, hrq, hr⟩

theorem Pending.goto {q id : ℕ} {t : Shared} {pc : At} (hcount : t.count = s.shared.count)
    (h : Pending s id)
    (hq : (s.procs q).tests s.shared id → Phil.tests s.shared ⟨(s.procs q).id, pc⟩ id) :
    Pending (s.goto q t pc) id := by
  obtain ⟨r, hr⟩ := h
  by_cases hrq : r = q
  · subst hrq
    refine ⟨r, ?_⟩
    show Phil.tests t (Function.update s.procs r _ r) id
    rw [Function.update_self, Phil.tests_congr hcount]
    exact hq hr
  · refine ⟨r, ?_⟩
    show Phil.tests t ((s.goto q t pc).procs r) id
    rw [goto_procs_of_ne t pc hrq, Phil.tests_congr hcount]
    exact hr

/-- `LEFT` and `RIGHT` are the two sides of one relation. -/
theorem left_eq_iff {t : Shared} {p q : ℕ} (hp : p < t.count) (hq : q < t.count) :
    left t p = q ↔ p = right t q := by
  unfold left right
  by_cases hzero : p = 0
  · have hleft : (p + t.count - 1) % t.count = t.count - 1 := by
      rw [hzero, Nat.zero_add, Nat.mod_eq_of_lt (by omega)]
    rw [hleft, hzero]
    constructor
    · intro h
      rw [show q + 1 = t.count by omega, Nat.mod_self]
    · intro h
      by_contra hne
      rw [Nat.mod_eq_of_lt (by omega)] at h
      exact absurd h (by omega)
  · have hleft : (p + t.count - 1) % t.count = p - 1 := by
      rw [show p + t.count - 1 = p - 1 + t.count by omega, Nat.add_mod_right,
        Nat.mod_eq_of_lt (by omega)]
    rw [hleft]
    constructor
    · intro h
      rw [Nat.mod_eq_of_lt (by omega)]
      omega
    · intro h
      by_cases hlast : q + 1 = t.count
      · rw [hlast, Nat.mod_self] at h
        exact absurd h hzero
      · rw [Nat.mod_eq_of_lt (by omega)] at h
        omega

/-- A philosopher leaves only if it finds itself LEAVING. -/
theorem present_advance {t t' : Shared} {f : Phil} {pc : At} (h : advance t f = some (t', pc))
    (hleave : f.pc ≠ .leave) (hstate : f.pc = .check → t.state f.id ≠ .LEAVING) :
    pc ≠ .gone ∧ pc ≠ .leave := by
  obtain ⟨id, pc₀⟩ := f
  cases pc₀ with
  | takeWait => rw [(of_wait h).2]; simp
  | putWait => rw [(of_wait h).2]; simp
  | checkWait => rw [(of_wait h).2]; simp
  | takeLock => rw [(of_wait h).2]; simp
  | thinkWait => rw [(of_wait h).2]; simp
  | takeTest u => cases h; cases hu : (test t id u).2 <;> simp
  | putTestLeft target u => cases h; cases hu : (test t target u).2 <;> simp
  | putTestRight target u => cases h; cases hu : (test t target u).2 <;> simp
  | check => cases h; rw [if_neg (hstate rfl)]; simp
  | leave => exact absurd rfl hleave
  | gone => cases h
  | _ => cases h; simp

/-- Whoever takes `MUTEX` is inside then. -/
theorem busy_advance {t t' : Shared} {f : Phil} {pc : At} (h : advance t f = some (t', pc))
    (hzero : t'.mutex = 0) :
    pc.inside = true ∨ f.pc.inside = false ∧ t.mutex = 0 := by
  obtain ⟨id, pc₀⟩ := f
  cases pc₀ with
  | takeWait => rw [(of_wait h).2]; exact Or.inl rfl
  | putWait => rw [(of_wait h).2]; exact Or.inl rfl
  | checkWait => rw [(of_wait h).2]; exact Or.inl rfl
  | takeLock => exact Or.inr ⟨rfl, (Shared.waitHungry_some (of_wait h).1).1.symm.trans hzero⟩
  | thinkWait => exact Or.inr ⟨rfl, (Shared.waitThink_some (of_wait h).1).1.symm.trans hzero⟩
  | takeTest u => cases h; cases (test t id u).2 <;> exact Or.inl rfl
  | putTestLeft target u => cases h; cases (test t target u).2 <;> exact Or.inl rfl
  | putTestRight target u => cases h; cases (test t target u).2 <;> exact Or.inl rfl
  | check => cases h; split_ifs <;> exact Or.inl rfl
  | takePost => cases h; exact absurd hzero (Nat.succ_ne_zero _)
  | putPost => cases h; exact absurd hzero (Nat.succ_ne_zero _)
  | leave => cases h; exact absurd hzero (Nat.succ_ne_zero _)
  | stay => cases h; exact absurd hzero (Nat.succ_ne_zero _)
  | thinkPost => cases h; exact Or.inr ⟨rfl, hzero⟩
  | gone => cases h
  | _ => cases h; exact Or.inl rfl

/-! ## Every statement keeps the invariant -/

/-- The plates after a statement of process `q`. -/
theorem Served.plates (h : Served n s) {q : ℕ} {t : Shared} {pc : At}
    (hadv : advance s.shared (s.procs q) = some (t, pc)) {p : ℕ} (hp : p < n) :
    Plate ((s.goto q t pc).procs p).pc.stage (t.state p) (t.hungryLock p)
      (Owed (s.goto q t pc) p) := by
  have hold := h.plate p hp
  have hid : (s.procs q).id = q := h.ids q
  -- the stage of `p`, if the statement leaves the stage of `q` alone
  have hstages : pc.stage = (s.procs q).pc.stage →
      ((s.goto q t pc).procs p).pc.stage = (s.procs p).pc.stage := fun hstage => by
    by_cases hpq : p = q
    · rw [hpq, goto_procs_self]
      exact hstage
    · rw [goto_procs_of_ne t pc hpq]
  cases advance_serves hadv with
  | keeps hstate hlock hstage howes howes' htests =>
    rw [hstages hstage, hstate, hlock, owed_goto_iff (by rw [howes, howes'])]
    exact hold
  | hungry hstage hpc hin hstate hlock howes hnone =>
    have howed : Owed (s.goto q t pc) p ↔ Owed s p :=
      owed_goto_iff (by rw [howes, hpc]; simp [Phil.owes])
    rw [howed, hlock, hstate, hid]
    by_cases hpq : p = q
    · rw [hpq] at hold ⊢
      rw [hstage] at hold
      rw [goto_procs_self, hpc, Function.update_self]
      exact Or.inl ⟨rfl, hold.2⟩
    · rw [goto_procs_of_ne t pc hpq, Function.update_of_ne hpq]
      exact hold
  | eat target hlets hstate hlock hstage howes howes' htests =>
    rw [hstages hstage, hlock, hstate]
    by_cases hpt : p = target
    · subst hpt
      have hmay := h.settled.guarded.lets q p hlets
      have howed : Owed (s.goto q t pc) p := owed_goto.mpr (Or.inl howes')
      rw [Function.update_self]
      cases hs : (s.procs p).pc.stage with
      | thinking =>
        rw [hs] at hold
        exact absurd (hold.1.symm.trans hmay.1) (by simp)
      | eating =>
        rw [hs] at hold
        exact absurd (hold.1.symm.trans hmay.1) (by simp)
      | hungry =>
        rw [hs] at hold
        rcases hold with hold | hold
        · exact Or.inr ⟨rfl, Or.inr ⟨hold.2.1, howed⟩⟩
        · exact absurd (hold.1.symm.trans hmay.1) (by simp)
    · rw [Function.update_of_ne hpt, owed_goto_iff]
      · exact hold
      · rw [howes, howes']
        simp [Ne.symm hpt]
  | post target howes hstate hlock hstage howes' htests =>
    rw [hstages hstage, hlock, hstate]
    by_cases hpt : p = target
    · subst hpt
      have howed : Owed s p := ⟨q, howes⟩
      -- nobody else owes a post
      have hpaid : ¬ Owed (s.goto q t pc) p := by
        rw [owed_goto, howes']
        rintro (hnone | ⟨r, hrq, hr⟩)
        · cases hnone
        · exact hrq (h.alone (Phil.inside_of_owes hr) (Phil.inside_of_owes howes))
      rw [Function.update_self]
      cases hs : (s.procs p).pc.stage with
      | thinking =>
        rw [hs] at hold
        exact absurd howed hold.2.2
      | eating =>
        rw [hs] at hold
        exact absurd howed hold.2.2
      | hungry =>
        rw [hs] at hold
        rcases hold with hold | ⟨heat, hold | hold⟩
        · exact absurd howed hold.2.2
        · exact absurd howed hold.2
        · exact Or.inr ⟨heat, Or.inl ⟨by rw [hold.1], hpaid⟩⟩
    · rw [Function.update_of_ne hpt, owed_goto_iff]
      · exact hold
      · rw [howes, howes']
        simp [Ne.symm hpt]
  | served hpc hpc' hstate hpos hlock =>
    have howed : Owed (s.goto q t pc) p ↔ Owed s p :=
      owed_goto_iff (by rw [hpc', Phil.owes, Phil.owes, hpc])
    rw [howed, hlock, hstate, hid]
    by_cases hpq : p = q
    · rw [hpq] at hold ⊢
      rw [hid] at hpos
      rw [hpc] at hold
      rw [goto_procs_self, hpc', Function.update_self]
      rcases hold with hold | ⟨heat, hold | hold⟩
      · exact absurd hpos (by rw [hold.2.1]; exact lt_irrefl 0)
      · exact ⟨heat, by rw [hold.1], hold.2⟩
      · exact absurd hpos (by rw [hold.1]; exact lt_irrefl 0)
    · rw [goto_procs_of_ne t pc hpq, Function.update_of_ne hpq]
      exact hold
  | done hpc hpc' hstate hlock =>
    have howed : Owed (s.goto q t pc) p ↔ Owed s p :=
      owed_goto_iff (by rw [hpc', Phil.owes, Phil.owes, hpc])
    rw [howed, hlock, hstate, hid]
    by_cases hpq : p = q
    · rw [hpq] at hold ⊢
      rw [hpc] at hold
      rw [goto_procs_self, hpc', Function.update_self]
      exact ⟨rfl, hold.2⟩
    · rw [goto_procs_of_ne t pc hpq, Function.update_of_ne hpq]
      exact hold

/-- The philosophers that might eat after a statement of process `q`. -/
theorem Served.pending (h : Served n s) {q : ℕ} {t : Shared} {pc : At}
    (hadv : advance s.shared (s.procs q) = some (t, pc)) (hq : q < n) {p : ℕ} (hp : p < n)
    (hmay : MayEat t p) : Pending (s.goto q t pc) p := by
  have hcount : t.count = s.shared.count := count_advance hadv
  have hid : (s.procs q).id = q := h.ids q
  -- nobody may eat already while `q` is inside and tests nobody
  have hnobody : (s.procs q).pc.inside = true → (∀ i, ¬ (s.procs q).tests s.shared i) →
      ¬ MayEat s.shared p := fun hin hnone hold => by
    obtain ⟨r, hr⟩ := h.tested p hp hold
    obtain rfl := h.alone (Phil.inside_of_tests hr) hin
    exact hnone p hr
  have hsides : left t p = left s.shared p ∧ right t p = right s.shared p := by
    unfold left right
    rw [hcount]
    exact ⟨rfl, rfl⟩
  rw [MayEat, hsides.1, hsides.2] at hmay
  cases advance_serves hadv with
  | keeps hstate hlock hstage howes howes' htests =>
    rw [hstate] at hmay
    exact (h.tested p hp hmay).goto hcount fun htest =>
      (htests p htest).resolve_right (not_not_intro hmay)
  | hungry hstage hpc hin hstate hlock howes hnone =>
    rw [hstate, hid] at hmay
    by_cases hpq : p = q
    · refine ⟨q, ?_⟩
      rw [goto_procs_self, hpc]
      exact hpq.trans hid.symm
    · -- the new state of `q` is no reason to eat
      have hthinks : s.shared.state q ≠ .EATING := by
        have hplate := h.plate q hq
        rw [hstage] at hplate
        rw [hplate.1]
        exact State.noConfusion
      have hside : ∀ i, Function.update s.shared.state q .HUNGRY i ≠ .EATING →
          s.shared.state i ≠ .EATING := fun i hi => by
        by_cases hiq : i = q
        · rwa [hiq]
        · rwa [Function.update_of_ne hiq] at hi
      rw [Function.update_of_ne hpq] at hmay
      exact absurd ⟨hmay.1, hside _ hmay.2.1, hside _ hmay.2.2⟩ (hnobody hin hnone)
  | eat target hlets hstate hlock hstage howes howes' htests =>
    rw [hstate] at hmay
    have hpt : p ≠ target := fun heq => by
      rw [heq, Function.update_self] at hmay
      exact State.noConfusion hmay.1
    have hside : ∀ i, Function.update s.shared.state target .EATING i ≠ .EATING →
        s.shared.state i ≠ .EATING := fun i hi => by
      by_cases hit : i = target
      · rw [hit, Function.update_self] at hi
        exact absurd rfl hi
      · rwa [Function.update_of_ne hit] at hi
    rw [Function.update_of_ne hpt] at hmay
    have hold : MayEat s.shared p := ⟨hmay.1, hside _ hmay.2.1, hside _ hmay.2.2⟩
    exact (h.tested p hp hold).goto hcount fun htest => (htests p htest).resolve_right hpt
  | post target howes hstate hlock hstage howes' htests =>
    rw [hstate] at hmay
    exact (h.tested p hp hmay).goto hcount (htests p)
  | served hpc hpc' hstate hpos hlock =>
    rw [hstate] at hmay
    refine (h.tested p hp hmay).goto hcount fun htest => ?_
    have hin := Phil.inside_of_tests htest
    rw [hpc] at hin
    exact Bool.noConfusion hin
  | done hpc hpc' hstate hlock =>
    rw [hstate, hid] at hmay
    have hpq : p ≠ q := fun heq => by
      rw [heq, Function.update_self] at hmay
      exact State.noConfusion hmay.1
    rw [Function.update_of_ne hpq] at hmay
    have hnot := hnobody (by rw [hpc]; rfl) fun i hi => by
      rw [Phil.tests, hpc] at hi
      exact hi
    -- `q` is the neighbour that was eating
    have hside : left s.shared p = q ∨ right s.shared p = q := by
      by_contra hne
      rw [not_or] at hne
      rw [Function.update_of_ne hne.1, Function.update_of_ne hne.2] at hmay
      exact hnot hmay
    have hpn : p < s.shared.count := h.count ▸ hp
    have hqn : q < s.shared.count := h.count ▸ hq
    have htest : Phil.tests s.shared ⟨q, .putLeft⟩ p := by
      rcases hside with hleft | hright
      · exact Or.inr ((left_eq_iff hpn hqn).mp hleft)
      · exact Or.inl ((left_eq_iff hqn hpn).mpr hright.symm).symm
    refine ⟨q, ?_⟩
    rw [goto_procs_self, hpc', hid]
    exact (Phil.tests_congr hcount).mpr htest

/-- Every statement of a philosopher keeps the invariant. -/
theorem Served.proc (h : Served n s) {q : ℕ} (hstep : step s (.proc q) = some s') :
    Served n s' := by
  have hsettled := h.settled.step (e := .proc q) trivial hstep
  obtain ⟨t, pc, hadv, rfl⟩ := step_proc hstep
  have hq : q < n := by
    by_contra hle
    rw [advance, h.gone q (not_lt.mp hle)] at hadv
    cases hadv
  have hpresent : pc ≠ .gone ∧ pc ≠ .leave := by
    refine present_advance hadv (h.present q hq).2 fun hcheck => ?_
    have hplate := h.plate q hq
    rw [hcheck] at hplate
    rw [h.ids q, hplate.1]
    exact State.noConfusion
  refine ⟨hsettled, fun hzero => ?_, h.main, (count_advance hadv).trans h.count, fun p => ?_,
    fun p hp => ?_, fun p hp => ?_, fun p hp => h.plates hadv hp,
    fun p hp hmay => h.pending hadv hq hp hmay⟩
  · rcases busy_advance hadv hzero with hin | ⟨hout, hold⟩
    · refine ⟨some q, ?_⟩
      rwa [System.inside, goto_procs_self]
    · obtain ⟨a, ha⟩ := h.busy hold
      refine ⟨a, ?_⟩
      cases a with
      | none => exact ha
      | some r =>
        have hrq : r ≠ q := fun heq => by
          rw [System.inside, heq, hout] at ha
          exact Bool.noConfusion ha
        rwa [System.inside, goto_procs_of_ne t pc hrq]
  · rw [goto_id]
    exact h.ids p
  · rw [goto_procs_of_ne t pc (ne_of_gt (lt_of_lt_of_le hq hp))]
    exact h.gone p hp
  · by_cases hpq : p = q
    · rwa [hpq, goto_procs_self]
    · rw [goto_procs_of_ne t pc hpq]
      exact h.present p hp

/-- The main loop prints. -/
theorem Served.mainGoto (h : Served n s) {t : Shared} {m : Main}
    (hsettled : Settled (s.mainGoto t m)) (hidle : m.idle) (hcount : t.count = s.shared.count)
    (hstate : t.state = s.shared.state)
    (hlock : t.hungryLock = s.shared.hungryLock)
    (hbusy : t.mutex = 0 → ∃ a, (s.mainGoto t m).inside a) : Served n (s.mainGoto t m) := by
  refine ⟨hsettled, hbusy, hidle, hcount.trans h.count, h.ids, h.gone, h.present, fun p hp => ?_,
    fun p hp hmay => ?_⟩
  · show Plate _ (t.state p) (t.hungryLock p) _
    rw [hstate, hlock]
    exact h.plate p hp
  · obtain ⟨q, hq⟩ := h.tested p hp (MayEat.congr hmay hcount.symm hstate.symm)
    exact ⟨q, (Phil.tests_congr hcount).mpr hq⟩

/-- Every event that adds and removes nobody keeps the invariant. -/
theorem Served.step (h : Served n s) {e : Event} (he : Undisturbed s e)
    (hstep : step s e = some s') : Served n s' := by
  cases e with
  | proc q => exact h.proc hstep
  | key k =>
    have hsettled := h.settled.step (e := .key k) trivial hstep
    rw [Phylo.step] at hstep
    split_ifs at hstep with hkey
    obtain rfl := Option.some.inj hstep
    have hquiet : pressed s.shared k = .printWait := he
    rw [hquiet] at hsettled ⊢
    refine h.mainGoto (t := s.shared) hsettled (Or.inr (Or.inl rfl)) rfl rfl rfl fun hzero => ?_
    obtain ⟨a, ha⟩ := h.busy hzero
    cases a with
    | none =>
      rw [System.inside, hkey] at ha
      exact Bool.noConfusion ha
    | some q => exact ⟨some q, ha⟩
  | main =>
    have hseen : MarkSeen s .main := fun id hid => by
      rcases h.main with hm | hm | hm <;> exact Main.noConfusion (hm.symm.trans hid)
    have hsettled := h.settled.step hseen hstep
    obtain ⟨t, m, hadv, ⟨-, rfl⟩ | ⟨id, hexec, -⟩⟩ := step_main hstep
    · rcases h.main with hm | hm | hm
      · rw [hm] at hadv
        cases hadv
      · rw [hm] at hadv
        obtain ⟨hwait, rfl⟩ := of_wait hadv
        obtain ⟨-, hcount, hstate, -⟩ := Shared.waitMutex_some hwait
        exact h.mainGoto hsettled (Or.inr (Or.inr rfl)) hcount hstate
          (Shared.waitMutex_hungryLock hwait) fun _ => ⟨none, rfl⟩
      · rw [hm] at hadv
        cases hadv
        exact h.mainGoto hsettled (Or.inl rfl) rfl rfl rfl fun hzero =>
          absurd hzero (Nat.succ_ne_zero _)
    · rcases h.main with hm | hm | hm <;> exact Main.noConfusion (hm.symm.trans hexec)

theorem served_table (hmin : MIN ≤ n) (hmax : n ≤ MAX) : Served n (table n) := by
  have hproc : ∀ p, p < n → (table n).procs p = ⟨p, .takeWait⟩ := fun p hp => if_pos hp
  have hrest : ∀ p, n ≤ p → (table n).procs p = ⟨p, .gone⟩ := fun p hp => if_neg (not_lt.mpr hp)
  have howes : ∀ p, ((table n).procs p).owes = none := fun p => by
    rcases lt_or_ge p n with hp | hp
    · rw [hproc p hp]
      rfl
    · rw [hrest p hp]
      rfl
  refine ⟨settled_table hmin hmax, fun hzero => absurd hzero Nat.one_ne_zero, Or.inl rfl, rfl,
    fun p => ?_, fun p hp => by rw [hrest p hp], fun p hp => by rw [hproc p hp]; simp,
    fun p hp => ?_, fun p _ hmay => State.noConfusion hmay.1⟩
  · rcases lt_or_ge p n with hp | hp
    · rw [hproc p hp]
    · rw [hrest p hp]
  · rw [hproc p hp]
    refine ⟨rfl, rfl, ?_⟩
    rintro ⟨q, hq⟩
    rw [howes q] at hq
    cases hq

/-! ## Nobody is forgotten -/

/-- While `MUTEX` is free, nobody is inside and no post is owed. -/
theorem Served.not_inside (h : Served n s) (hfree : 0 < s.shared.mutex) (a : Option ℕ) :
    ¬ s.inside a := fun ha => absurd (h.settled.guarded.lock.value_zero a ha) (ne_of_gt hfree)

theorem Served.not_owed (h : Served n s) (hfree : 0 < s.shared.mutex) (p : ℕ) : ¬ Owed s p := by
  rintro ⟨q, hq⟩
  exact h.not_inside hfree (some q) (Phil.inside_of_owes hq)

/-- While `MUTEX` is free, a hungry philosopher has a neighbour that eats. -/
theorem Served.neighbour (h : Served n s) (hfree : 0 < s.shared.mutex) {p : ℕ} (hp : p < n)
    (hhungry : s.shared.state p = .HUNGRY) :
    ∃ q, q < n ∧ (q = left s.shared p ∨ q = right s.shared p) ∧ s.shared.state q = .EATING := by
  have hpos : 0 < s.shared.count := by
    rw [h.count]
    exact Nat.zero_lt_of_lt hp
  by_contra hne
  have heats : ∀ q, q = left s.shared p ∨ q = right s.shared p → q < n →
      s.shared.state q ≠ .EATING := fun q hq hqn heat => hne ⟨q, hqn, hq, heat⟩
  obtain ⟨q, hq⟩ := h.tested p hp ⟨hhungry, heats _ (Or.inl rfl) (h.count ▸ Nat.mod_lt _ hpos),
    heats _ (Or.inr rfl) (h.count ▸ Nat.mod_lt _ hpos)⟩
  exact h.not_inside hfree (some q) (Phil.inside_of_tests hq)

/-- While `MUTEX` is free, only a philosopher that waits for its forks is kept from going on. -/
theorem Served.goes_on (h : Served n s) (hfree : 0 < s.shared.mutex) {p : ℕ} (hp : p < n) :
    (advance s.shared (s.procs p)).isSome ∨ s.shared.state p = .HUNGRY := by
  have hout : (s.procs p).pc.inside = false := Bool.eq_false_iff.mpr (h.not_inside hfree (some p))
  have hplate := h.plate p hp
  unfold advance
  cases hpc : (s.procs p).pc
  case takeWait => exact Or.inl (by simp [Shared.waitMutex, hfree])
  case putWait => exact Or.inl (by simp [Shared.waitMutex, hfree])
  case checkWait => exact Or.inl (by simp [Shared.waitMutex, hfree])
  case thinkPost => exact Or.inl rfl
  case thinkWait =>
    -- the token of whoever waits for it is there
    have hheld : s.main.held p = 0 := by
      rcases h.main with hm | hm | hm <;> rw [hm] <;> rfl
    have htoken : s.shared.thinkUnlock p = 1 := by
      rcases h.settled.token p with ⟨hone, -⟩ | ⟨-, hnot⟩
      · omega
      · exact absurd ⟨p, h.ids p, hpc⟩ hnot
    exact Or.inl (by simp [Shared.waitThink, h.ids p, htoken])
  case takeLock =>
    rw [hpc] at hplate
    rcases hplate with hhungry | ⟨-, hlock | hlock⟩
    · exact Or.inr hhungry.1
    · exact Or.inl (by simp [Shared.waitHungry, h.ids p, hlock.1])
    · exact absurd hlock.2 (h.not_owed hfree p)
  case gone => exact absurd hpc (h.present p hp).1
  all_goals
    rw [hpc] at hout
    exact Bool.noConfusion hout

/-- Between `sem_wait(MUTEX)` and `sem_post(MUTEX)` nothing makes a philosopher wait. -/
theorem advance_of_inside {t : Shared} {f : Phil} (hin : f.pc.inside = true) :
    (advance t f).isSome := by
  obtain ⟨id, pc⟩ := f
  cases pc <;> first | rfl | exact Bool.noConfusion hin

/-- In every run in which nobody is added or removed, a philosopher that has to wait for its forks
while `MUTEX` is free has a neighbour that eats and can go on. -/
theorem waits_for_a_neighbour (hmin : MIN ≤ n) (hmax : n ≤ MAX) (es : List Event)
    (hcalm : Throughout Phylo.step Undisturbed (table n) es) (s : System)
    (hrun : run Phylo.step (table n) es = some s) (hfree : 0 < s.shared.mutex) (p : ℕ) (hp : p < n)
    (hpc : (s.procs p).pc = .takeLock) (hlock : s.shared.hungryLock p = 0) :
    ∃ q, (q = left s.shared p ∨ q = right s.shared p) ∧ s.shared.state q = .EATING ∧
      (advance s.shared (s.procs q)).isSome := by
  have h : Served n s := run_preserves (served_table hmin hmax) hcalm
    (fun _ _ _ hs he hstep => hs.step he hstep) hrun
  have hplate := h.plate p hp
  rw [hpc, hlock] at hplate
  have hhungry : s.shared.state p = .HUNGRY := by
    rcases hplate with hhungry | ⟨-, hone | howed⟩
    · exact hhungry.1
    · exact absurd hone.1 (by simp)
    · exact absurd howed.2 (h.not_owed hfree p)
  obtain ⟨q, hqn, hside, heats⟩ := h.neighbour hfree hp hhungry
  refine ⟨q, hside, heats, (h.goes_on hfree hqn).resolve_right fun hq => ?_⟩
  exact State.noConfusion (heats.symm.trans hq)

/-- No deadlock: in every run in which nobody is added or removed, some philosopher can go on,
unless the main loop is printing the states. -/
theorem some_philosopher_goes_on (hmin : MIN ≤ n) (hmax : n ≤ MAX) (es : List Event)
    (hcalm : Throughout Phylo.step Undisturbed (table n) es) (s : System)
    (hrun : run Phylo.step (table n) es = some s) (hmain : s.main.inside = false) :
    ∃ p, p < n ∧ (advance s.shared (s.procs p)).isSome := by
  have h : Served n s := run_preserves (served_table hmin hmax) hcalm
    (fun _ _ _ hs he hstep => hs.step he hstep) hrun
  by_cases hfree : 0 < s.shared.mutex
  · have hzero : 0 < n := Nat.lt_of_lt_of_le (by decide) hmin
    rcases h.goes_on hfree hzero with hgo | hhungry
    · exact ⟨0, hzero, hgo⟩
    · -- the neighbour that philosopher 0 waits for
      obtain ⟨q, hqn, -, heats⟩ := h.neighbour hfree hzero hhungry
      refine ⟨q, hqn, (h.goes_on hfree hqn).resolve_right fun hq => ?_⟩
      exact State.noConfusion (heats.symm.trans hq)
  · obtain ⟨a, ha⟩ := h.busy (Nat.eq_zero_of_not_pos hfree)
    cases a with
    | none =>
      rw [System.inside, hmain] at ha
      exact Bool.noConfusion ha
    | some q =>
      refine ⟨q, ?_, advance_of_inside ha⟩
      by_contra hle
      rw [System.inside, h.gone q (not_lt.mp hle)] at ha
      exact Bool.noConfusion ha

instance (s : System) : (e : Event) → Decidable (Undisturbed s e)
  | .key k => inferInstanceAs (Decidable (pressed s.shared k = .printWait))
  | .proc _ => isTrue trivial
  | .main => isTrue trivial

/-- Philosopher 1 waits for its forks while philosopher 0 eats. -/
def oneWaits : List Event := List.replicate 7 (.proc 0) ++ List.replicate 4 (.proc 1)

theorem waits_for_a_neighbour_five : ∃ s q, run step (table 5) oneWaits = some s ∧
    (q = left s.shared 1 ∨ q = right s.shared 1) ∧ s.shared.state q = .EATING ∧
      (advance s.shared (s.procs q)).isSome := by
  have hcalm : Throughout step Undisturbed (table 5) oneWaits := by decide +kernel
  have hwaits : (run step (table 5) oneWaits).map (fun s =>
      decide (0 < s.shared.mutex ∧ (s.procs 1).pc = .takeLock ∧ s.shared.hungryLock 1 = 0)) =
        some true := by decide +kernel
  obtain ⟨s, hrun, hs⟩ := Option.map_eq_some_iff.mp hwaits
  obtain ⟨hfree, hpc, hlock⟩ := of_decide_eq_true hs
  obtain ⟨q, hq⟩ := waits_for_a_neighbour (by decide) (by decide) oneWaits hcalm s hrun hfree 1
    (by decide) hpc hlock
  exact ⟨s, q, hrun, hq⟩

theorem some_philosopher_goes_on_five : ∃ s p, run step (table 5) oneWaits = some s ∧
    (advance s.shared (s.procs p)).isSome := by
  have hcalm : Throughout step Undisturbed (table 5) oneWaits := by decide +kernel
  have hmain : (run step (table 5) oneWaits).map (fun s => s.main.inside) = some false := by
    decide +kernel
  obtain ⟨s, hrun, hs⟩ := Option.map_eq_some_iff.mp hmain
  obtain ⟨p, -, hp⟩ := some_philosopher_goes_on (by decide) (by decide) oneWaits hcalm s hrun hs
  exact ⟨s, p, hrun, hp⟩

end TronKernel.Phylo
