import TronKernel.Phylo.Table
import TronKernel.Lib.Lock

/-!
# Forks and the number of philosophers

Two philosophers share a fork if they are neighbours modulo `count`. `MUTEX` keeps everyone else out
while one agent looks at its neighbours and starts to eat, so no step of a philosopher lets two
neighbours eat. Neither does `addPhylo`: it only parts the first and the last philosopher, and the
new one thinks. `removePhylo` makes the first philosopher and the last but one neighbours without
looking whether they eat: this is the one step that can put two eating philosophers next to each
other, and it does so exactly if both eat (`forks_shared_iff`).
-/

namespace TronKernel.Phylo

open Runs Lock

/-! ## Where an agent is -/

/-- Between `sem_wait(MUTEX)` and `sem_post(MUTEX)`. -/
def At.inside : At → Bool
  | .takeSet | .takeTest _ | .takePost => true
  | .putSet | .putLeft | .putTestLeft _ _ | .putRight | .putTestRight _ _ | .putPost => true
  | .check | .leave | .stay => true
  | _ => false

/-- Between `sem_wait(MUTEX)` and `sem_post(MUTEX)`. -/
def Main.inside : Main → Bool
  | .addSet _ | .addCount _ | .addExec _ | .addPost => true
  | .removeSet _ | .removeCount _ | .removePost _ | .printPost => true
  | _ => false

/-- The main loop or a process is between `sem_wait(MUTEX)` and `sem_post(MUTEX)`. -/
def System.inside (s : System) : Option ℕ → Prop
  | none => s.main.inside = true
  | some p => (s.procs p).pc.inside = true

/-- The philosopher that the next statement lets eat. -/
def Phil.lets (f : Phil) : Option ℕ :=
  match f.pc with
  | .takeTest .eat => some f.id
  | .putTestLeft target .eat => some target
  | .putTestRight target .eat => some target
  | _ => none

theorem Phil.inside_of_lets {f : Phil} {target : ℕ} (h : f.lets = some target) :
    f.pc.inside = true := by
  unfold Phil.lets at h
  split at h
  · next heq => rw [heq]; rfl
  · next heq => rw [heq]; rfl
  · next heq => rw [heq]; rfl
  · exact absurd h (by simp)

/-! ## What one statement of a philosopher does -/

/-- The effect of a statement on `MUTEX`, `count` and `state`. -/
inductive Effect (s : Shared) (f : Phil) (s' : Shared) (pc : At) : Prop
  | acquire (hout : f.pc.inside = false) (hmutex : s.mutex = s'.mutex + 1)
      (hstate : s'.state = s.state) (hlets : Phil.lets ⟨f.id, pc⟩ = none)
  | release (hin : f.pc.inside = true) (hout : pc.inside = false) (hmutex : s'.mutex = s.mutex + 1)
      (hstate : s'.state = s.state)
  | outside (hout : pc.inside = false) (hmutex : s'.mutex = s.mutex) (hstate : s'.state = s.state)
  | look (hin : f.pc.inside = true) (hmutex : s'.mutex = s.mutex) (hstate : s'.state = s.state)
      (hlets : ∀ target, Phil.lets ⟨f.id, pc⟩ = some target → MayEat s target)
  | write (hin : f.pc.inside = true) (hpc : f.pc = .takeSet ∨ f.pc = .putSet)
      (hmutex : s'.mutex = s.mutex) (value : State) (hvalue : value ≠ .EATING)
      (hstate : s'.state = Function.update s.state f.id value) (hlets : Phil.lets ⟨f.id, pc⟩ = none)
  | eat (hmutex : s'.mutex = s.mutex) (target : ℕ) (hlets : f.lets = some target)
      (hstate : s'.state = Function.update s.state target .EATING)
      (hnone : Phil.lets ⟨f.id, pc⟩ = none)

theorem Shared.waitMutex_some {s s' : Shared} (h : s.waitMutex = some s') :
    s.mutex = s'.mutex + 1 ∧ s'.count = s.count ∧ s'.state = s.state ∧
      s'.thinkUnlock = s.thinkUnlock := by
  unfold Shared.waitMutex at h
  split_ifs at h with hpos
  obtain rfl := Option.some.inj h
  exact ⟨(Nat.sub_add_cancel hpos).symm, rfl, rfl, rfl⟩

theorem Shared.waitHungry_some {s s' : Shared} {id : ℕ} (h : s.waitHungry id = some s') :
    s'.mutex = s.mutex ∧ s'.count = s.count ∧ s'.state = s.state ∧
      s'.thinkUnlock = s.thinkUnlock := by
  unfold Shared.waitHungry at h
  split_ifs at h
  obtain rfl := Option.some.inj h
  exact ⟨rfl, rfl, rfl, rfl⟩

theorem Shared.waitThink_some {s s' : Shared} {id : ℕ} (h : s.waitThink id = some s') :
    s'.mutex = s.mutex ∧ s'.count = s.count ∧ s'.state = s.state ∧ 0 < s.thinkUnlock id ∧
      s'.thinkUnlock = Function.update s.thinkUnlock id (s.thinkUnlock id - 1) := by
  unfold Shared.waitThink at h
  split_ifs at h with hpos
  obtain rfl := Option.some.inj h
  exact ⟨rfl, rfl, rfl, hpos, rfl⟩

/-- A statement that waits and then goes on. -/
theorem of_wait {β : Type} {w : Option Shared} {s' : Shared} {next pc : β}
    (h : w.map (·, next) = some (s', pc)) : w = some s' ∧ pc = next := by
  obtain ⟨t, ht, hr⟩ := Option.map_eq_some_iff.mp h
  cases hr
  exact ⟨ht, rfl⟩

theorem count_test (s : Shared) (id : ℕ) (t : Test) : (test s id t).1.count = s.count := by
  cases t with
  | cond => simp only [test]; split_ifs <;> rfl
  | eat => rfl
  | post => rfl

theorem thinkUnlock_test (s : Shared) (id : ℕ) (t : Test) :
    (test s id t).1.thinkUnlock = s.thinkUnlock := by
  cases t with
  | cond => simp only [test]; split_ifs <;> rfl
  | eat => rfl
  | post => rfl

/-- No statement of a philosopher changes `count`. -/
theorem count_advance {s s' : Shared} {f : Phil} {pc : At} (h : advance s f = some (s', pc)) :
    s'.count = s.count := by
  obtain ⟨id, pc₀⟩ := f
  cases pc₀ with
  | takeWait => exact (Shared.waitMutex_some (of_wait h).1).2.1
  | putWait => exact (Shared.waitMutex_some (of_wait h).1).2.1
  | checkWait => exact (Shared.waitMutex_some (of_wait h).1).2.1
  | takeLock => exact (Shared.waitHungry_some (of_wait h).1).2.1
  | thinkWait => exact (Shared.waitThink_some (of_wait h).1).2.1
  | takeTest t => cases h; exact count_test ..
  | putTestLeft target t => cases h; exact count_test ..
  | putTestRight target t => cases h; exact count_test ..
  | gone => cases h
  | _ => cases h; rfl

/-- The effect of a statement of `test`, wherever it is called. -/
theorem test_effect {s : Shared} {f : Phil} {target : ℕ} {t : Test} {next : At}
    {within : Test → At} (hpc : f.pc = within t) (hin : ∀ t, (within t).inside = true)
    (hlets : ∀ t, Phil.lets ⟨f.id, within t⟩ = if t = .eat then some target else none)
    (hnext : Phil.lets ⟨f.id, next⟩ = none) :
    Effect s f (test s target t).1 ((test s target t).2.elim next within) := by
  have hinside : f.pc.inside = true := by rw [hpc]; exact hin t
  have hf : f.lets = if t = .eat then some target else none := by
    rw [← hlets t, ← hpc]
  cases t with
  | cond =>
    by_cases hmay : MayEat s target
    · simp only [test, if_pos hmay, Option.elim]
      refine .look hinside rfl rfl fun other hother => ?_
      rw [hlets, if_pos rfl] at hother
      exact Option.some.inj hother ▸ hmay
    · simp only [test, if_neg hmay, Option.elim]
      refine .look hinside rfl rfl fun other hother => ?_
      rw [hnext] at hother
      exact absurd hother (by simp)
  | eat =>
    refine .eat rfl target (by rw [hf, if_pos rfl]) rfl ?_
    simp only [test, Option.elim]
    rw [hlets, if_neg (by simp)]
  | post =>
    refine .look hinside rfl rfl fun other hother => ?_
    simp only [test, Option.elim] at hother
    rw [hnext] at hother
    exact absurd hother (by simp)

/-- The effect of every statement of a philosopher. -/
theorem advance_effect {s s' : Shared} {f : Phil} {pc : At} (h : advance s f = some (s', pc)) :
    Effect s f s' pc := by
  have acquire : ∀ {next : At}, f.pc.inside = false → Phil.lets ⟨f.id, next⟩ = none →
      s.waitMutex.map (·, next) = some (s', pc) → Effect s f s' pc := by
    intro next hout hlets h
    obtain ⟨hwait, rfl⟩ := of_wait h
    obtain ⟨hmutex, -, hstate, -⟩ := Shared.waitMutex_some hwait
    exact .acquire hout hmutex hstate hlets
  obtain ⟨id, pc₀⟩ := f
  cases pc₀ with
  | takeWait => exact acquire rfl rfl h
  | putWait => exact acquire rfl rfl h
  | checkWait => exact acquire rfl rfl h
  | takeSet => cases h; exact .write rfl (Or.inl rfl) rfl .HUNGRY (by decide) rfl rfl
  | putSet => cases h; exact .write rfl (Or.inr rfl) rfl .THINKING (by decide) rfl rfl
  | takeTest t => cases h; exact test_effect rfl (fun _ => rfl) (fun t => by cases t <;> rfl) rfl
  | putTestLeft target t =>
    cases h
    exact test_effect rfl (fun _ => rfl) (fun t => by cases t <;> rfl) rfl
  | putTestRight target t =>
    cases h
    exact test_effect rfl (fun _ => rfl) (fun t => by cases t <;> rfl) rfl
  | putLeft => cases h; exact .look rfl rfl rfl fun _ hnone => absurd hnone (by simp [Phil.lets])
  | putRight => cases h; exact .look rfl rfl rfl fun _ hnone => absurd hnone (by simp [Phil.lets])
  | check =>
    cases h
    refine .look rfl rfl rfl fun target hlets => ?_
    split_ifs at hlets
    · exact absurd hlets (by simp [Phil.lets])
    · exact absurd hlets (by simp [Phil.lets])
  | takePost => cases h; exact .release rfl rfl rfl rfl
  | putPost => cases h; exact .release rfl rfl rfl rfl
  | leave => cases h; exact .release rfl rfl rfl rfl
  | stay => cases h; exact .release rfl rfl rfl rfl
  | takeLock =>
    obtain ⟨hwait, rfl⟩ := of_wait h
    obtain ⟨hmutex, -, hstate, -⟩ := Shared.waitHungry_some hwait
    exact .outside rfl hmutex hstate
  | thinkWait =>
    obtain ⟨hwait, rfl⟩ := of_wait h
    obtain ⟨hmutex, -, hstate, -⟩ := Shared.waitThink_some hwait
    exact .outside rfl hmutex hstate
  | thinkPost => cases h; exact .outside rfl rfl rfl
  | gone => cases h

/-! ## What one statement of the main loop does -/

/-- What the local variable `id` of `addPhylo` and `removePhylo` says about the table. -/
def MainOk (s : Shared) : Main → Prop
  | .addWait id | .addSet id => id = s.count ∧ s.count < MAX
  | .addCount id => id = s.count ∧ s.count < MAX ∧ s.state id = .THINKING
  | .addExec id => id + 1 = s.count
  | .removeThink id | .removeWait id => id + 1 = s.count ∧ MIN < s.count
  | .removeSet id | .removeCount id => id + 1 = s.count ∧ MIN < s.count
  | .removePost id | .removeUnlock id => id = s.count
  | _ => True

/-- The effect of a statement of the main loop on `MUTEX`, `count` and `state`. -/
inductive MainEffect (s : Shared) (m : Main) (s' : Shared) (m' : Main) : Prop
  | acquire (hmutex : s.mutex = s'.mutex + 1) (hcount : s'.count = s.count)
      (hstate : s'.state = s.state)
  | release (hin : m.inside = true) (hout : m'.inside = false) (hmutex : s'.mutex = s.mutex + 1)
      (hcount : s'.count = s.count) (hstate : s'.state = s.state)
  | outside (hout : m'.inside = false) (hmutex : s'.mutex = s.mutex) (hcount : s'.count = s.count)
      (hstate : s'.state = s.state)
  | write (hin : m.inside = true) (hmutex : s'.mutex = s.mutex) (hcount : s'.count = s.count)
      (id : ℕ) (value : State) (hvalue : value ≠ .EATING)
      (hstate : s'.state = Function.update s.state id value)
  | add (id : ℕ) (hm : m = .addCount id) (hmutex : s'.mutex = s.mutex)
      (hcount : s'.count = s.count + 1) (hstate : s'.state = s.state)
  | exec (id : ℕ) (hm : m = .addExec id) (hmutex : s'.mutex = s.mutex) (hcount : s'.count = s.count)
      (hstate : s'.state = s.state)
  | remove (id : ℕ) (hm : m = .removeCount id) (hmutex : s'.mutex = s.mutex)
      (hcount : s'.count = s.count - 1) (hstate : s'.state = s.state)

/-- The effect of every statement of the main loop. -/
theorem advanceMain_effect {s s' : Shared} {m m' : Main} (h : advanceMain s m = some (s', m')) :
    MainEffect s m s' m' := by
  have acquire : ∀ {next : Main}, s.waitMutex.map (·, next) = some (s', m') →
      MainEffect s m s' m' := by
    intro next h
    obtain ⟨hmutex, hcount, hstate, -⟩ := Shared.waitMutex_some (of_wait h).1
    exact .acquire hmutex hcount hstate
  cases m with
  | key => cases h
  | addWait id => exact acquire h
  | removeWait id => exact acquire h
  | printWait => exact acquire h
  | addSet id => cases h; exact .write rfl rfl rfl id .THINKING (by decide) rfl
  | removeSet id => cases h; exact .write rfl rfl rfl id .LEAVING (by decide) rfl
  | addCount id => cases h; exact .add id rfl rfl rfl rfl
  | addExec id => cases h; exact .exec id rfl rfl rfl rfl
  | removeCount id => cases h; exact .remove id rfl rfl rfl rfl
  | addPost => cases h; exact .release rfl rfl rfl rfl rfl
  | removePost id => cases h; exact .release rfl rfl rfl rfl rfl
  | printPost => cases h; exact .release rfl rfl rfl rfl rfl
  | removeUnlock id => cases h; exact .outside rfl rfl rfl rfl
  | removeThink id =>
    obtain ⟨hwait, rfl⟩ := of_wait h
    obtain ⟨hmutex, hcount, hstate, -⟩ := Shared.waitThink_some hwait
    exact .outside rfl hmutex hcount hstate

/-- The local variable stays right while the main loop runs through `addPhylo` and `removePhylo`. -/
theorem MainOk.advance {s s' : Shared} {m m' : Main} (hok : MainOk s m)
    (h : advanceMain s m = some (s', m')) : MainOk s' m' := by
  cases m with
  | key => cases h
  | addWait id =>
    obtain ⟨hwait, rfl⟩ := of_wait h
    have hcount := (Shared.waitMutex_some hwait).2.1
    exact ⟨hok.1.trans hcount.symm, hcount ▸ hok.2⟩
  | addSet id => cases h; exact ⟨hok.1, hok.2, Function.update_self ..⟩
  | addCount id => cases h; exact congrArg (· + 1) hok.1
  | removeThink id =>
    obtain ⟨hwait, rfl⟩ := of_wait h
    have hcount := (Shared.waitThink_some hwait).2.1
    exact ⟨hok.1.trans hcount.symm, hcount ▸ hok.2⟩
  | removeWait id =>
    obtain ⟨hwait, rfl⟩ := of_wait h
    have hcount := (Shared.waitMutex_some hwait).2.1
    exact ⟨hok.1.trans hcount.symm, hcount ▸ hok.2⟩
  | removeSet id => cases h; exact hok
  | removeCount id => cases h; exact Nat.eq_sub_of_add_eq hok.1
  | removePost id => cases h; exact hok
  | printWait =>
    obtain ⟨-, rfl⟩ := of_wait h
    trivial
  | addExec id => cases h; trivial
  | addPost => cases h; trivial
  | removeUnlock id => cases h; trivial
  | printPost => cases h; trivial

theorem mainOk_pressed (s : Shared) (k : Key) : MainOk s (pressed s k) := by
  cases k with
  | a =>
    by_cases hlt : s.count < MAX
    · rw [pressed, if_pos hlt]
      exact ⟨rfl, hlt⟩
    · rw [pressed, if_neg hlt]
      trivial
  | r =>
    by_cases hlt : s.count > MIN
    · rw [pressed, if_pos hlt]
      exact ⟨Nat.sub_add_cancel (Nat.one_le_of_lt hlt), hlt⟩
    · rw [pressed, if_neg hlt]
      trivial
  | other => trivial

theorem inside_pressed (s : Shared) (k : Key) : (pressed s k).inside = false := by
  cases k with
  | a => unfold pressed; split_ifs <;> rfl
  | r => unfold pressed; split_ifs <;> rfl
  | other => rfl

/-! ## The invariant of the lock -/

/-- `MUTEX` is a lock, a philosopher found ready to eat stays ready until it eats, and the local
variables of the main loop fit the table. -/
structure Guarded (s : System) : Prop where
  lock : Exclusive s.shared.mutex s.inside
  lets : ∀ p target, (s.procs p).lets = some target → MayEat s.shared target
  min_le : MIN ≤ s.shared.count
  le_max : s.shared.count ≤ MAX
  main : MainOk s.shared s.main
  fresh : ∀ p, s.started ≤ p → (s.procs p).pc = .gone

variable {s s' : System}

theorem MayEat.congr {t t' : Shared} {target : ℕ} (h : MayEat t target)
    (hcount : t'.count = t.count) (hstate : t'.state = t.state) : MayEat t' target := by
  simpa only [MayEat, left, right, hcount, hstate] using h

theorem MainOk.congr {t t' : Shared} {m : Main} (h : MainOk t m) (hcount : t'.count = t.count)
    (hstate : m.inside = true → t'.state = t.state) : MainOk t' m := by
  cases m with
  | addCount id => exact ⟨hcount ▸ h.1, hcount ▸ h.2.1, hstate rfl ▸ h.2.2⟩
  | key => trivial
  | addPost => trivial
  | printWait => trivial
  | printPost => trivial
  | _ => simpa only [MainOk, hcount] using h

/-- The system after a statement of process `p`. -/
def System.goto (s : System) (p : ℕ) (t : Shared) (pc : At) : System :=
  { s with shared := t, procs := Function.update s.procs p { s.procs p with pc := pc } }

theorem step_proc {p : ℕ} (h : step s (.proc p) = some s') :
    ∃ t pc, advance s.shared (s.procs p) = some (t, pc) ∧ s' = s.goto p t pc := by
  obtain ⟨⟨t, pc⟩, ht, rfl⟩ := Option.map_eq_some_iff.mp h
  exact ⟨t, pc, ht, rfl⟩

theorem inside_goto {p : ℕ} {t : Shared} {pc : At} {a : Option ℕ} (h : (s.goto p t pc).inside a) :
    (a = some p ∧ pc.inside = true) ∨ (a ≠ some p ∧ s.inside a) := by
  cases a with
  | none => exact Or.inr ⟨by simp, h⟩
  | some q =>
    by_cases hq : q = p
    · subst hq
      refine Or.inl ⟨rfl, ?_⟩
      simpa only [System.inside, System.goto, Function.update_self] using h
    · refine Or.inr ⟨fun heq => hq (Option.some.inj heq), ?_⟩
      simpa only [System.inside, System.goto, Function.update_of_ne hq] using h

/-- A process that is about to let someone eat is alone inside. -/
theorem Guarded.eq_of_lets (h : Guarded s) {p target : ℕ} (hlets : (s.procs p).lets = some target)
    {a : Option ℕ} (ha : s.inside a) : a = some p :=
  h.lock.alone a (some p) ha (Phil.inside_of_lets hlets)

theorem Guarded.proc (h : Guarded s) {p : ℕ} (hstep : step s (.proc p) = some s') : Guarded s' := by
  obtain ⟨t, pc, hadv, rfl⟩ := step_proc hstep
  have hcount : t.count = s.shared.count := count_advance hadv
  have heffect := advance_effect hadv
  have hlive : (s.procs p).pc ≠ .gone := by
    intro hgone
    rw [advance, hgone] at hadv
    cases hadv
  refine ⟨?_, ?_, hcount ▸ h.min_le, hcount ▸ h.le_max, ?_, ?_⟩
  · -- the lock
    have stays : ∀ a, (s.goto p t pc).inside a → s.inside (some p) → s.inside a := by
      intro a ha hp
      rcases inside_goto ha with ⟨rfl, -⟩ | ⟨-, hs⟩
      · exact hp
      · exact hs
    cases heffect with
    | acquire hout hmutex hstate hlets =>
      refine (hmutex ▸ h.lock).acquire (a := some p) fun a ha => ?_
      exact (inside_goto ha).imp And.left And.right
    | release hin hout hmutex hstate =>
      rw [System.goto, hmutex]
      refine h.lock.release (a := some p) hin fun a ha => ?_
      refine (inside_goto ha).resolve_left ?_
      rintro ⟨-, hpc⟩
      rw [hout] at hpc
      cases hpc
    | outside hout hmutex hstate =>
      rw [System.goto, hmutex]
      refine h.lock.mono fun a ha => ?_
      refine ((inside_goto ha).resolve_left ?_).2
      rintro ⟨-, hpc⟩
      rw [hout] at hpc
      cases hpc
    | look hin hmutex hstate hlets =>
      rw [System.goto, hmutex]
      exact h.lock.mono fun a ha => stays a ha hin
    | write hin hpc hmutex value hvalue hstate hlets =>
      rw [System.goto, hmutex]
      exact h.lock.mono fun a ha => stays a ha hin
    | eat hmutex target hlets hstate hnone =>
      rw [System.goto, hmutex]
      exact h.lock.mono fun a ha => stays a ha (Phil.inside_of_lets hlets)
  · -- the philosophers found ready to eat
    intro q target hq
    have others : q ≠ p → (s.procs q).lets = some target := by
      intro hne
      simpa only [System.goto, Function.update_of_ne hne] using hq
    have self : q = p → Phil.lets ⟨(s.procs p).id, pc⟩ = some target := by
      rintro rfl
      simpa only [System.goto, Function.update_self] using hq
    -- another process that is about to let someone eat keeps `p` out
    have excluded : s.inside (some p) → q ≠ p → False := by
      intro hp hne
      exact hne (Option.some.inj (h.eq_of_lets (others hne) hp)).symm
    cases heffect with
    | acquire hout hmutex hstate hlets =>
      by_cases hqp : q = p
      · rw [hlets] at self
        cases self hqp
      · exact (h.lets q target (others hqp)).congr hcount hstate
    | release hin hout hmutex hstate =>
      by_cases hqp : q = p
      · have hinside : pc.inside = true := Phil.inside_of_lets (self hqp)
        rw [hout] at hinside
        cases hinside
      · exact (excluded hin hqp).elim
    | outside hout hmutex hstate =>
      by_cases hqp : q = p
      · have hinside : pc.inside = true := Phil.inside_of_lets (self hqp)
        rw [hout] at hinside
        cases hinside
      · exact (h.lets q target (others hqp)).congr hcount hstate
    | look hin hmutex hstate hlets =>
      by_cases hqp : q = p
      · exact (hlets target (self hqp)).congr hcount hstate
      · exact (excluded hin hqp).elim
    | write hin hpc hmutex value hvalue hstate hlets =>
      by_cases hqp : q = p
      · rw [hlets] at self
        cases self hqp
      · exact (excluded hin hqp).elim
    | eat hmutex target' hlets hstate hnone =>
      by_cases hqp : q = p
      · rw [hnone] at self
        cases self hqp
      · exact (excluded (Phil.inside_of_lets hlets) hqp).elim
  · -- the local variables of the main loop
    refine h.main.congr hcount fun hmain => ?_
    have outside : ¬ s.inside (some p) := fun hp => by
      cases h.lock.alone none (some p) hmain hp
    cases heffect with
    | acquire hout hmutex hstate hlets => exact hstate
    | release hin hout hmutex hstate => exact hstate
    | outside hout hmutex hstate => exact hstate
    | look hin hmutex hstate hlets => exact hstate
    | write hin hpc hmutex value hvalue hstate hlets => exact absurd hin outside
    | eat hmutex target hlets hstate hnone => exact absurd (Phil.inside_of_lets hlets) outside
  · -- the processes not started yet
    intro q hq
    have hqp : q ≠ p := fun heq => hlive (heq ▸ h.fresh q hq)
    simp only [System.goto, Function.update_of_ne hqp]
    exact h.fresh q hq

/-- The system after a statement of the main loop other than `exec`. -/
def System.mainGoto (s : System) (t : Shared) (m : Main) : System :=
  { s with shared := t, main := m }

theorem step_main (h : step s .main = some s') :
    ∃ t m, advanceMain s.shared s.main = some (t, m) ∧
      ((∀ id, s.main ≠ .addExec id) ∧ s' = s.mainGoto t m ∨
        ∃ id, s.main = .addExec id ∧ s' = (s.mainGoto t m).exec ⟨id, .takeWait⟩) := by
  obtain ⟨⟨t, m⟩, ht, rfl⟩ := Option.map_eq_some_iff.mp h
  refine ⟨t, m, ht, ?_⟩
  split
  · next id hexec => exact Or.inr ⟨id, hexec, rfl⟩
  · next hother => exact Or.inl ⟨hother, rfl⟩

theorem inside_mainGoto {t : Shared} {m : Main} {a : Option ℕ} (h : (s.mainGoto t m).inside a) :
    (a = none ∧ m.inside = true) ∨ (a ≠ none ∧ s.inside a) := by
  cases a with
  | none => exact Or.inl ⟨rfl, h⟩
  | some q => exact Or.inr ⟨by simp, h⟩

/-- A new process starts outside. -/
theorem inside_exec {f : Phil} (hf : f.pc.inside = false) {a : Option ℕ}
    (h : (s.exec f).inside a) : s.inside a := by
  cases a with
  | none => exact h
  | some q =>
    by_cases hq : q = s.started
    · subst hq
      simp only [System.inside, System.exec, Function.update_self, hf] at h
      cases h
    · simpa only [System.inside, System.exec, Function.update_of_ne hq] using h

theorem Guarded.exec (h : Guarded s) {f : Phil} (hout : f.pc.inside = false) :
    Guarded (s.exec f) := by
  refine ⟨h.lock.mono fun a ha => inside_exec hout ha, ?_, h.min_le, h.le_max, h.main, ?_⟩
  · intro p target hp
    by_cases hnew : p = s.started
    · subst hnew
      have hinside := Phil.inside_of_lets hp
      simp only [System.exec, Function.update_self, hout] at hinside
      cases hinside
    · simp only [System.exec, Function.update_of_ne hnew] at hp
      exact h.lets p target hp
  · intro p hp
    have hlater : s.started + 1 ≤ p := hp
    simp only [System.exec, Function.update_of_ne (show p ≠ s.started by omega)]
    exact h.fresh p (by omega)

theorem Guarded.mainGoto (h : Guarded s) {t : Shared} {m : Main}
    (hadv : advanceMain s.shared s.main = some (t, m)) : Guarded (s.mainGoto t m) := by
  have heffect := advanceMain_effect hadv
  have hmain : MainOk t m := h.main.advance hadv
  -- while the main loop is inside nobody is about to let someone eat
  have quiet : s.main.inside = true → ∀ p target, (s.procs p).lets ≠ some target := by
    intro hin p target hp
    cases h.eq_of_lets hp (show s.inside none from hin)
  have stays : s.main.inside = true → ∀ a, (s.mainGoto t m).inside a → s.inside a := by
    intro hin a ha
    rcases inside_mainGoto ha with ⟨rfl, -⟩ | ⟨-, hs⟩
    · exact hin
    · exact hs
  have gone : m.inside = false → ∀ a, (s.mainGoto t m).inside a → a ≠ none ∧ s.inside a := by
    intro hout a ha
    refine (inside_mainGoto ha).resolve_left ?_
    rintro ⟨-, hin⟩
    rw [hout] at hin
    cases hin
  cases heffect with
  | acquire hmutex hcount hstate =>
    refine ⟨?_, fun p target hp => (h.lets p target hp).congr hcount hstate, hcount ▸ h.min_le,
      hcount ▸ h.le_max, hmain, h.fresh⟩
    refine (hmutex ▸ h.lock).acquire (a := none) fun a ha => ?_
    exact (inside_mainGoto ha).imp And.left And.right
  | release hin hout hmutex hcount hstate =>
    refine ⟨?_, fun p target hp => absurd hp (quiet hin p target), hcount ▸ h.min_le,
      hcount ▸ h.le_max, hmain, h.fresh⟩
    rw [System.mainGoto, hmutex]
    exact h.lock.release (a := none) hin fun a ha => gone hout a ha
  | outside hout hmutex hcount hstate =>
    refine ⟨?_, fun p target hp => (h.lets p target hp).congr hcount hstate, hcount ▸ h.min_le,
      hcount ▸ h.le_max, hmain, h.fresh⟩
    rw [System.mainGoto, hmutex]
    exact h.lock.mono fun a ha => (gone hout a ha).2
  | write hin hmutex hcount id value hvalue hstate =>
    refine ⟨?_, fun p target hp => absurd hp (quiet hin p target), hcount ▸ h.min_le,
      hcount ▸ h.le_max, hmain, h.fresh⟩
    rw [System.mainGoto, hmutex]
    exact h.lock.mono fun a ha => stays hin a ha
  | add id hm hmutex hcount hstate =>
    have hin : s.main.inside = true := by rw [hm]; rfl
    have hok : MainOk s.shared (.addCount id) := hm ▸ h.main
    refine ⟨?_, fun p target hp => absurd hp (quiet hin p target), ?_, ?_, hmain, h.fresh⟩
    · rw [System.mainGoto, hmutex]
      exact h.lock.mono fun a ha => stays hin a ha
    · rw [System.mainGoto, hcount]
      exact Nat.le_succ_of_le h.min_le
    · rw [System.mainGoto, hcount]
      exact hok.2.1
  | exec id hm hmutex hcount hstate =>
    have hin : s.main.inside = true := by rw [hm]; rfl
    refine ⟨?_, fun p target hp => absurd hp (quiet hin p target), hcount ▸ h.min_le,
      hcount ▸ h.le_max, hmain, h.fresh⟩
    rw [System.mainGoto, hmutex]
    exact h.lock.mono fun a ha => stays hin a ha
  | remove id hm hmutex hcount hstate =>
    have hin : s.main.inside = true := by rw [hm]; rfl
    have hok : MainOk s.shared (.removeCount id) := hm ▸ h.main
    refine ⟨?_, fun p target hp => absurd hp (quiet hin p target), ?_, ?_, hmain, h.fresh⟩
    · rw [System.mainGoto, hmutex]
      exact h.lock.mono fun a ha => stays hin a ha
    · rw [System.mainGoto, hcount]
      exact Nat.le_sub_one_of_lt hok.2
    · rw [System.mainGoto, hcount]
      exact Nat.le_trans (Nat.sub_le _ _) h.le_max

/-- Every event keeps the lock. -/
theorem Guarded.step (h : Guarded s) {e : Event} (hstep : step s e = some s') : Guarded s' := by
  cases e with
  | proc p => exact h.proc hstep
  | main =>
    obtain ⟨t, m, hadv, ⟨-, rfl⟩ | ⟨id, -, rfl⟩⟩ := step_main hstep
    · exact h.mainGoto hadv
    · exact (h.mainGoto hadv).exec rfl
  | key k =>
    rw [Phylo.step] at hstep
    split_ifs at hstep with hkey
    obtain rfl := Option.some.inj hstep
    refine ⟨?_, h.lets, h.min_le, h.le_max, mainOk_pressed s.shared k, h.fresh⟩
    refine h.lock.mono fun a ha => ?_
    cases a with
    | none =>
      have hin : (pressed s.shared k).inside = true := ha
      rw [inside_pressed] at hin
      cases hin
    | some p => exact ha

/-- The lock at the beginning. -/
theorem guarded_table {n : ℕ} (hmin : MIN ≤ n) (hmax : n ≤ MAX) : Guarded (table n) := by
  have hout : ∀ p, ((table n).procs p).pc.inside = false := by
    intro p
    simp only [table]
    split_ifs <;> rfl
  have hnobody : ∀ a, ¬ (table n).inside a := by
    rintro (- | p) ha
    · cases ha
    · rw [System.inside, hout p] at ha
      cases ha
  refine ⟨⟨Nat.le_refl 1, fun a ha => absurd ha (hnobody a), fun a _ ha => absurd ha (hnobody a)⟩,
    fun p target hp => ?_, hmin, hmax, trivial, fun p hp => ?_⟩
  · exact absurd (Phil.inside_of_lets hp) (by simp [hout p])
  · simp only [table, if_neg (show ¬ p < n from Nat.not_lt.mpr hp)]

/-! ## Neighbours -/

/-- Two different ids that are next to each other modulo `n`. -/
def Neighbours (n i j : ℕ) : Prop := i ≠ j ∧ ((i + 1) % n = j ∨ (j + 1) % n = i)

/-- No two neighbours below `count` are both eating. -/
def ForksApart (s : Shared) : Prop :=
  ∀ i j, i < s.count → j < s.count → Neighbours s.count i j →
    ¬ (s.state i = .EATING ∧ s.state j = .EATING)

theorem neighbours_comm {n i j : ℕ} : Neighbours n i j ↔ Neighbours n j i := by
  unfold Neighbours
  rw [ne_comm, or_comm]

/-- A neighbour is the left or the right one. -/
theorem eq_left_or_right {s : Shared} {i j : ℕ} (hi : i < s.count) (hj : j < s.count)
    (h : Neighbours s.count i j) : j = left s i ∨ j = right s i := by
  rcases h.2 with hright | hleft
  · exact Or.inr hright.symm
  · refine Or.inl ?_
    unfold left
    by_cases hlast : j + 1 = s.count
    · have hzero : i = 0 := by rw [← hleft, hlast, Nat.mod_self]
      rw [hzero, Nat.zero_add, Nat.mod_eq_of_lt (by omega)]
      omega
    · rw [Nat.mod_eq_of_lt (by omega)] at hleft
      rw [show i + s.count - 1 = j + s.count by omega, Nat.add_mod_right, Nat.mod_eq_of_lt hj]

theorem ForksApart.congr {t t' : Shared} (h : ForksApart t) (hcount : t'.count = t.count)
    (hstate : t'.state = t.state) : ForksApart t' := by
  simpa only [ForksApart, hcount, hstate] using h

/-- A philosopher that does not start to eat takes no fork. -/
theorem ForksApart.write {t t' : Shared} (h : ForksApart t) {id : ℕ} {value : State}
    (hcount : t'.count = t.count) (hvalue : value ≠ .EATING)
    (hstate : t'.state = Function.update t.state id value) : ForksApart t' := by
  have eating : ∀ k, t'.state k = .EATING → t.state k = .EATING := by
    intro k hk
    rw [hstate] at hk
    by_cases hkid : k = id
    · rw [hkid, Function.update_self] at hk
      exact absurd hk hvalue
    · rwa [Function.update_of_ne hkid] at hk
  intro i j hi hj hij hboth
  rw [hcount] at hi hj hij
  exact h i j hi hj hij ⟨eating i hboth.1, eating j hboth.2⟩

/-- A philosopher that starts to eat while neither neighbour eats takes free forks. -/
theorem ForksApart.eat {t t' : Shared} (h : ForksApart t) {target : ℕ} (hmay : MayEat t target)
    (hcount : t'.count = t.count) (hstate : t'.state = Function.update t.state target .EATING) :
    ForksApart t' := by
  have hungry : ∀ k, k < t.count → target < t.count → Neighbours t.count target k →
      t.state k ≠ .EATING := by
    intro k hk htarget hnext
    rcases eq_left_or_right htarget hk hnext with rfl | rfl
    · exact hmay.2.1
    · exact hmay.2.2
  have eating : ∀ k, k ≠ target → t'.state k = t.state k := by
    intro k hk
    rw [hstate, Function.update_of_ne hk]
  intro i j hi hj hij hboth
  rw [hcount] at hi hj hij
  by_cases hit : i = target
  · subst hit
    refine hungry j hj hi hij ?_
    rw [← eating j hij.1.symm]
    exact hboth.2
  · by_cases hjt : j = target
    · subst hjt
      refine hungry i hi hj (neighbours_comm.mp hij) ?_
      rw [← eating i hij.1]
      exact hboth.1
    · exact h i j hi hj hij ⟨eating i hit ▸ hboth.1, eating j hjt ▸ hboth.2⟩

/-- A new philosopher parts the first and the last one, and thinks. -/
theorem ForksApart.add {t t' : Shared} (h : ForksApart t) (hnew : t.state t.count ≠ .EATING)
    (hcount : t'.count = t.count + 1) (hstate : t'.state = t.state) : ForksApart t' := by
  intro i j hi hj hij hboth
  rw [hcount] at hi hj hij
  rw [hstate] at hboth
  have old : ∀ k, k < t.count + 1 → t.state k = .EATING → k < t.count := by
    intro k hk heat
    refine Nat.lt_of_le_of_ne (Nat.lt_succ_iff.mp hk) ?_
    rintro rfl
    exact hnew heat
  have hi' := old i hi hboth.1
  have hj' := old j hj hboth.2
  refine h i j hi' hj' ⟨hij.1, ?_⟩ hboth
  have shrink : ∀ a b, a < t.count → b < t.count → (a + 1) % (t.count + 1) = b →
      (a + 1) % t.count = b := by
    intro a b ha hb hab
    rw [Nat.mod_eq_of_lt (by omega)] at hab
    rw [hab, Nat.mod_eq_of_lt hb]
  exact hij.2.imp (shrink i j hi' hj') (shrink j i hj' hi')

/-- Without the last philosopher the first and the last but one are neighbours: exactly these two
must not both eat. -/
theorem ForksApart.remove_iff {t t' : Shared} (h : ForksApart t) (hmin : MIN < t.count)
    (hcount : t'.count = t.count - 1) (hstate : t'.state = t.state) :
    ForksApart t' ↔ ¬ (t.state 0 = .EATING ∧ t.state (t.count - 2) = .EATING) := by
  unfold MIN at hmin
  constructor
  · intro h' hboth
    refine h' 0 (t.count - 2) (by omega) (by omega) ⟨by omega, Or.inr ?_⟩ (hstate ▸ hboth)
    rw [hcount, show t.count - 2 + 1 = t.count - 1 by omega, Nat.mod_self]
  · intro hgap i j hi hj hij hboth
    rw [hcount] at hi hj hij
    rw [hstate] at hboth
    -- the pair is one that there was before, or the new one
    have grow : ∀ a b, a < t.count - 1 → (a + 1) % (t.count - 1) = b →
        (a + 1) % t.count = b ∨ a = t.count - 2 ∧ b = 0 := by
      intro a b ha hab
      by_cases hlast : a + 1 = t.count - 1
      · rw [hlast, Nat.mod_self] at hab
        exact Or.inr ⟨by omega, hab.symm⟩
      · rw [Nat.mod_eq_of_lt (by omega)] at hab ⊢
        exact Or.inl hab
    rcases hij.2 with hright | hleft
    · rcases grow i j hi hright with hold | ⟨rfl, rfl⟩
      · exact h i j (by omega) (by omega) ⟨hij.1, Or.inl hold⟩ hboth
      · exact hgap hboth.symm
    · rcases grow j i hj hleft with hold | ⟨rfl, rfl⟩
      · exact h i j (by omega) (by omega) ⟨hij.1, Or.inr hold⟩ hboth
      · exact hgap hboth

/-! ## Any mix of calls -/

/-- A function that is called with an id. -/
inductive Call where
  | takeFork
  | putFork
deriving DecidableEq, Repr

/-- The first statement of the function. -/
def Call.entry : Call → At
  | .takeFork => .takeWait
  | .putFork => .putWait

/-- What may happen when processes call `take_fork` and `put_fork` as they like: beside the events
of the program a process that is outside the critical sections calls one of them with any id of the
table, or a new process begins with such a call. -/
inductive Mix where
  | own (e : Event)
  | call (p id : ℕ) (c : Call)
  | spawn (id : ℕ) (c : Call)
deriving DecidableEq, Repr

/-- One event of the mix. -/
def mixStep (s : System) : Mix → Option System
  | .own e => step s e
  | .call p id c =>
    if p < s.started ∧ (s.procs p).pc.inside = false ∧ id < MAX then
      some { s with procs := Function.update s.procs p ⟨id, c.entry⟩ }
    else none
  | .spawn id c => if id < MAX then some (s.exec ⟨id, c.entry⟩) else none

theorem Call.inside_entry (c : Call) : c.entry.inside = false := by
  cases c <;> rfl

theorem Guarded.call (h : Guarded s) {p : ℕ} {f : Phil} (hp : p < s.started)
    (hout : f.pc.inside = false) :
    Guarded { s with procs := Function.update s.procs p f } := by
  refine ⟨h.lock.mono fun a ha => ?_, fun q target hq => ?_, h.min_le, h.le_max, h.main,
    fun q hq => ?_⟩
  · cases a with
    | none => exact ha
    | some q =>
      by_cases hqp : q = p
      · simp only [System.inside, hqp, Function.update_self, hout] at ha
        cases ha
      · simpa only [System.inside, Function.update_of_ne hqp] using ha
  · by_cases hqp : q = p
    · have hin := Phil.inside_of_lets hq
      simp only [hqp, Function.update_self, hout] at hin
      cases hin
    · simp only [Function.update_of_ne hqp] at hq
      exact h.lets q target hq
  · have hqp : q ≠ p := by
      rintro rfl
      exact absurd hq (Nat.not_le.mpr hp)
    simp only [Function.update_of_ne hqp]
    exact h.fresh q hq

theorem Guarded.mixStep (h : Guarded s) {e : Mix} (hstep : mixStep s e = some s') : Guarded s' := by
  cases e with
  | own e => exact h.step hstep
  | call p id c =>
    rw [Phylo.mixStep] at hstep
    split_ifs at hstep with hcall
    obtain rfl := Option.some.inj hstep
    exact h.call hcall.1 c.inside_entry
  | spawn id c =>
    rw [Phylo.mixStep] at hstep
    split_ifs at hstep
    obtain rfl := Option.some.inj hstep
    exact h.exec c.inside_entry

/-- Where the main loop is about to decrement `count`, the first philosopher and the last but one do
not both eat. -/
def GapOpen (s : System) : Mix → Prop
  | .own .main => ∀ id, s.main = .removeCount id →
      ¬ (s.shared.state 0 = .EATING ∧ s.shared.state (s.shared.count - 2) = .EATING)
  | _ => True

/-- A statement of a philosopher keeps the forks apart. -/
theorem ForksApart.proc (hg : Guarded s) (h : ForksApart s.shared) {p : ℕ}
    (hstep : step s (.proc p) = some s') : ForksApart s'.shared := by
  obtain ⟨t, pc, hadv, rfl⟩ := step_proc hstep
  have hcount : t.count = s.shared.count := count_advance hadv
  have heffect := advance_effect hadv
  cases heffect with
  | acquire hout hmutex hstate hlets => exact h.congr hcount hstate
  | release hin hout hmutex hstate => exact h.congr hcount hstate
  | outside hout hmutex hstate => exact h.congr hcount hstate
  | look hin hmutex hstate hlets => exact h.congr hcount hstate
  | write hin hpc hmutex value hvalue hstate hlets => exact h.write hcount hvalue hstate
  | eat hmutex target hlets hstate hnone => exact h.eat (hg.lets p target hlets) hcount hstate

/-- A statement of the main loop keeps the forks apart exactly if it does not close a gap between
two eating philosophers. -/
theorem forksApart_main_iff (hg : Guarded s) (h : ForksApart s.shared)
    (hstep : step s .main = some s') : ForksApart s'.shared ↔ GapOpen s (.own .main) := by
  obtain ⟨t, m, hadv, hgoto⟩ := step_main hstep
  have hshared : s'.shared = t := by
    rcases hgoto with ⟨-, rfl⟩ | ⟨id, -, rfl⟩
    · rfl
    · rfl
  have hopen : (∀ id, s.main ≠ .removeCount id) → GapOpen s (.own .main) :=
    fun hne id hm => absurd hm (hne id)
  have keeps : (∀ id, s.main ≠ .removeCount id) → ForksApart t →
      (ForksApart s'.shared ↔ GapOpen s (.own .main)) := by
    intro hne ht
    rw [hshared]
    exact iff_of_true ht (hopen hne)
  have heffect := advanceMain_effect hadv
  by_cases hremove : ∃ id, s.main = .removeCount id
  · obtain ⟨id, hm⟩ := hremove
    have hok : MainOk s.shared (.removeCount id) := hm ▸ hg.main
    have heq : t.count = s.shared.count - 1 ∧ t.state = s.shared.state := by
      rw [hm] at hadv
      cases hadv
      exact ⟨rfl, rfl⟩
    rw [hshared, h.remove_iff hok.2 heq.1 heq.2]
    exact ⟨fun hgap _ _ => hgap, fun hopen => hopen id hm⟩
  · have hne : ∀ id, s.main ≠ .removeCount id := fun id hm => hremove ⟨id, hm⟩
    apply keeps hne
    cases heffect with
    | acquire hmutex hcount hstate => exact h.congr hcount hstate
    | release hin hout hmutex hcount hstate => exact h.congr hcount hstate
    | outside hout hmutex hcount hstate => exact h.congr hcount hstate
    | write hin hmutex hcount id value hvalue hstate => exact h.write hcount hvalue hstate
    | add id hm hmutex hcount hstate =>
      have hok : MainOk s.shared (.addCount id) := hm ▸ hg.main
      refine h.add ?_ hcount hstate
      rw [← hok.1, hok.2.2]
      decide
    | exec id hm hmutex hcount hstate => exact h.congr hcount hstate
    | remove id hm hmutex hcount hstate => exact absurd hm (hne id)

/-- An event of the mix keeps the forks apart exactly if it does not close a gap. -/
theorem forksApart_mix_iff (hg : Guarded s) (h : ForksApart s.shared) {e : Mix}
    (hstep : mixStep s e = some s') : ForksApart s'.shared ↔ GapOpen s e := by
  cases e with
  | own e =>
    cases e with
    | proc p => exact iff_of_true (h.proc hg hstep) trivial
    | main => exact forksApart_main_iff hg h hstep
    | key k =>
      simp only [mixStep, step] at hstep
      split_ifs at hstep
      obtain rfl := Option.some.inj hstep
      exact iff_of_true h trivial
  | call p id c =>
    simp only [mixStep] at hstep
    split_ifs at hstep
    obtain rfl := Option.some.inj hstep
    exact iff_of_true h trivial
  | spawn id c =>
    simp only [mixStep] at hstep
    split_ifs at hstep
    obtain rfl := Option.some.inj hstep
    exact iff_of_true h trivial

/-- A statement that cannot be made closes no gap. -/
theorem gapOpen_of_stuck {e : Mix} (hstep : mixStep s e = none) : GapOpen s e := by
  cases e with
  | own e =>
    cases e with
    | main =>
      intro id hm
      simp only [mixStep, step, hm, advanceMain, Option.map_some] at hstep
      cases hstep
    | _ => trivial
  | _ => trivial

theorem forksApart_table (n : ℕ) : ForksApart (table n).shared := by
  intro i j hi hj hij hboth
  cases hboth.1

/-- **Forks are shared only by a removal.** In every interleaving of `take_fork`, `put_fork`,
`addPhylo` and `removePhylo` no two neighbours eat in any state, if and only if `count` is never
decremented while the first philosopher and the last but one both eat. -/
theorem forks_shared_iff {n : ℕ} (hmin : MIN ≤ n) (hmax : n ≤ MAX) (es : List Mix) :
    (∀ es₁ s₁, es₁ <+: es → run mixStep (table n) es₁ = some s₁ → ForksApart s₁.shared) ↔
      Throughout mixStep GapOpen (table n) es := by
  apply always_iff_throughout (G := Guarded) (guarded_table hmin hmax) (forksApart_table n)
  · intro s e s' hg hstep
    exact hg.mixStep hstep
  · intro s e s' hg h hstep
    exact forksApart_mix_iff hg h hstep
  · intro s e hg hstep
    exact gapOpen_of_stuck hstep

/-- Philosopher 4 eats once, then two others eat, then 4 is removed. -/
def removeWhile (p q : ℕ) : List Mix :=
  List.map .own (List.replicate 15 (.proc 4) ++ List.replicate 6 (.proc p) ++
    List.replicate 6 (.proc q) ++ .key .r :: List.replicate 4 .main : List Event)

/-- With 1 and 3 the removal meets the condition. With 0 and 3 it does not. -/
theorem forks_shared_iff_five :
    (run mixStep (table 5) (removeWhile 1 3)).map
        (fun s => (s.shared.count, s.shared.state 1, s.shared.state 3)) =
          some (4, .EATING, .EATING) ∧
      (∀ es₁ s₁, es₁ <+: removeWhile 1 3 → run mixStep (table 5) es₁ = some s₁ →
        ForksApart s₁.shared) ∧
      ((∀ es₁ s₁, es₁ <+: removeWhile 0 3 → run mixStep (table 5) es₁ = some s₁ →
        ForksApart s₁.shared) ↔ Throughout mixStep GapOpen (table 5) (removeWhile 0 3)) := by
  have hfirst : Throughout mixStep (fun s _ => s.shared.state 0 ≠ .EATING) (table 5)
      (removeWhile 1 3) := by decide +kernel
  have hopen : Throughout mixStep GapOpen (table 5) (removeWhile 1 3) :=
    hfirst.mono fun s e hne => by
    unfold GapOpen
    split
    · exact fun _ _ hboth => hne hboth.1
    · trivial
  exact ⟨by decide +kernel, (forks_shared_iff (by decide) (by decide) _).mpr hopen,
    forks_shared_iff (by decide) (by decide) _⟩

/-- Of the four philosophers that are left, 0 and 3 share a fork and both eat. -/
theorem removeBetween_shares :
    ¬ ∀ es s, run mixStep (table 5) es = some s → ForksApart s.shared := by
  intro hall
  have hrun : (run mixStep (table 5) (removeWhile 0 3)).map
      (fun s => (s.shared.count, s.shared.state 0, s.shared.state 3)) =
        some (4, .EATING, .EATING) := by decide +kernel
  obtain ⟨s, hs, hview⟩ := Option.map_eq_some_iff.mp hrun
  simp only [Prod.mk.injEq] at hview
  refine hall _ s hs 0 3 ?_ ?_ ⟨by decide, ?_⟩ hview.2
  · rw [hview.1]; decide
  · rw [hview.1]; decide
  · rw [hview.1]; decide

end TronKernel.Phylo
