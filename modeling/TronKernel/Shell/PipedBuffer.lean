import TronKernel.Shell.Commands

/-!
# What the shell's pipe command leaves behind

`pipedBuffer` opens a pipe, runs two commands on it and returns in three places. Only the last one
closes the pipe. Of the others one kills what the left command has returned, which is a pid only if
that command has created a process (`cleansUp_iff`).
-/

namespace TronKernel.Shell

open Programs
open Sem (toInt)

variable {w : World} {site : Site} {input buf : List UInt8} {calls es es' : List Event} {pid r : ℤ}

/-! ## The calls of one command -/

/-- In these calls the kernel has created a process and returned its pid. -/
def Created (site : Site) (calls : List Event) (pid : ℤ) : Prop :=
  ∃ name argv readFd writeFd priority isForeground,
    (⟨site, .exec name argv readFd writeFd priority isForeground, pid⟩ : Event) ∈ calls

theorem created_append : Created site (es ++ es') pid ↔
    Created site es pid ∨ Created site es' pid := by
  simp only [Created, List.mem_append, exists_or]

/-- The line begins with a word that is no command. -/
def Unknown (input : List UInt8) : Prop :=
  (parseString input).headD [] ≠ [] ∧ Command.find ((parseString input).headD []) = none

/-- What a command has done: it is not known, or it was run by the shell itself, or as a process. -/
inductive Outcome (site : Site) (input : List UInt8) (es : List Event) : ℤ → Prop
  | unknown (h : Unknown input) (hnone : ∀ pid, ¬ Created site es pid) : Outcome site input es (-1)
  | builtin {r : ℤ} (h : ¬ Unknown input) (hnone : ∀ pid, ¬ Created site es pid) (hr : r ≠ -1) :
    Outcome site input es r
  | process {pid : ℤ} (h : ¬ Unknown input) (hpid : ∀ q, Created site es q ↔ q = pid) :
    Outcome site input es (toInt pid)

/-- More calls, all from one place. -/
def Adds (site : Site) (P : List Event → Prop) (calls calls' : List Event) : Prop :=
  ∃ es, calls' = calls ++ es ∧ (∀ e ∈ es, e.site = site) ∧ P es

/-- More calls that create no process. -/
def Quiet (site : Site) : List Event → List Event → Prop :=
  Adds site fun es => ∀ pid, ¬ Created site es pid

theorem Quiet.refl (site : Site) (calls : List Event) : Quiet site calls calls :=
  ⟨[], (List.append_nil _).symm, by simp, fun pid h => by simp [Created] at h⟩

theorem Adds.after {P Q : List Event → Prop} {calls₁ calls₂ : List Event}
    (h : Quiet site calls calls₁) (h' : Adds site P calls₁ calls₂)
    (hPQ : ∀ es es', (∀ pid, ¬ Created site es pid) → P es' → Q (es ++ es')) :
    Adds site Q calls calls₂ := by
  obtain ⟨es, rfl, hsite, hnone⟩ := h
  obtain ⟨es', rfl, hsite', hP⟩ := h'
  refine ⟨es ++ es', List.append_assoc .., fun e he => ?_, hPQ es es' hnone hP⟩
  rcases List.mem_append.mp he with he | he
  · exact hsite e he
  · exact hsite' e he

theorem Quiet.trans {calls₁ calls₂ : List Event} (h : Quiet site calls calls₁)
    (h' : Quiet site calls₁ calls₂) : Quiet site calls calls₂ :=
  Adds.after h h' fun _ _ hnone hnone' pid hpid =>
    (created_append.mp hpid).elim (hnone pid) (hnone' pid)

theorem ends_call {Q : ℤ → List Event → Prop} (c : Call)
    (h : ∀ a, Q a (calls ++ [⟨site, c, a⟩])) : Ends Q (fun _ _ => True) (call w site c) calls := by
  rw [call, ends_bind, ends_get]
  cases w.answer calls c with
  | none => trivial
  | some a => exact h a

/-- Calls that are not `exec`. -/
def Call.Plain (c : Call) : Prop :=
  ∀ name argv readFd writeFd priority isForeground,
    c ≠ .exec name argv readFd writeFd priority isForeground

theorem quiet_call {c : Call} (hc : c.Plain) : Keeps (Quiet site) (call w site c) := by
  refine fun calls => ends_call c fun a => ⟨_, rfl, by simp, fun pid hpid => ?_⟩
  obtain ⟨name, argv, readFd, writeFd, priority, isForeground, hmem⟩ := hpid
  rw [List.mem_singleton, Event.mk.injEq] at hmem
  exact hc _ _ _ _ _ _ hmem.2.1.symm

theorem quiet_bind {α β : Type} {m : Prog α} {f : α → Prog β} (hm : Keeps (Quiet site) m)
    (hf : ∀ a, Keeps (Quiet site) (f a)) : Keeps (Quiet site) (m >>= f) :=
  hm.bind Quiet.trans hf

theorem quiet_pure {α : Type} (a : α) : Keeps (Quiet site) (pure a : Prog α) :=
  keeps_pure (Quiet.refl site) a

/-! ## `readBuffer` -/

theorem quiet_askWaitPid (isForeground : ℤ) :
    Keeps (Quiet site) (askWaitPid w site isForeground) := by
  unfold askWaitPid
  split_ifs
  · exact quiet_bind (quiet_call (by simp [Call.Plain])) fun _ => quiet_pure _
  · exact quiet_pure _

theorem quiet_increaseFontSize : Keeps (Quiet site) (increaseFontSize w site) :=
  quiet_bind (quiet_call (by simp [Call.Plain])) fun _ => quiet_pure _

theorem quiet_decreaseFontSize : Keeps (Quiet site) (decreaseFontSize w site) :=
  quiet_bind (quiet_call (by simp [Call.Plain])) fun _ => quiet_pure _

theorem quiet_shrinkFont (rounds : ℕ) : Keeps (Quiet site) (shrinkFont w site rounds) := by
  induction rounds with
  | zero => exact keeps_throw _
  | succ rounds ih =>
    refine quiet_bind quiet_decreaseFontSize fun _ => ?_
    split_ifs
    · exact quiet_bind ih fun _ => quiet_pure _
    · exact quiet_pure _

theorem quiet_growFont (count : ℕ) : Keeps (Quiet site) (growFont w site count) := by
  induction count with
  | zero => exact quiet_pure _
  | succ count ih => exact quiet_bind quiet_increaseFontSize fun _ => ih

theorem quiet_argument (argv : List (List UInt8)) (i : ℕ) :
    Keeps (Quiet site) (argument w argv i) := by
  unfold argument
  cases argv[i]? with
  | none => exact keeps_get_bind fun _ => quiet_pure _
  | some word => exact quiet_pure _

theorem quiet_inBackground (argv : List (List UInt8)) :
    Keeps (Quiet site) (inBackground w argv) := by
  unfold inBackground
  cases argv.getLast? with
  | none => exact keeps_get_bind fun _ => quiet_pure _
  | some word => exact quiet_pure _

/-- A command that is known ends so. -/
def Known (site : Site) (calls : List Event) (m : Prog ℤ) : Prop :=
  Ends (fun r => Adds site (fun es => (∀ pid, ¬ Created site es pid) ∧ r ≠ -1 ∨
    ∃ pid, (∀ q, Created site es q ↔ q = pid) ∧ r = toInt pid) calls) (fun _ _ => True) m calls

theorem known_builtin {α : Type} {m : Prog α} (hm : Keeps (Quiet site) m) {r : ℤ} (hr : r ≠ -1) :
    Known site calls (m >>= fun _ => pure r) := by
  rw [Known, ends_bind]
  refine (hm calls).mono (fun _ calls' h => ?_) fun _ _ h => h
  obtain ⟨es, rfl, hsite, hnone⟩ := h
  exact ⟨es, rfl, hsite, Or.inl ⟨hnone, hr⟩⟩

/-- Calls before a known command are calls of its. -/
theorem known_after {α : Type} {m : Prog α} {f : α → Prog ℤ} (hm : Keeps (Quiet site) m)
    (hf : ∀ a calls, Known site calls (f a)) : Known site calls (m >>= f) := by
  rw [Known, ends_bind]
  refine (hm calls).mono (fun a calls₁ h₁ => ?_) fun _ _ h => h
  refine (hf a calls₁).mono (fun r calls₂ h₂ => ?_) fun _ _ h => h
  refine Adds.after h₁ h₂ fun es es' hnone h => ?_
  have hsame : ∀ pid, Created site (es ++ es') pid ↔ Created site es' pid := fun pid => by
    rw [created_append, or_iff_right (hnone pid)]
  simpa only [hsame] using h

/-- `exec`, some calls, and what `exec` has returned. -/
theorem known_exec {α : Type} (name : List UInt8) (argv : List (List UInt8))
    (readFd writeFd priority isForeground : ℤ) {m : Prog α} (hm : Keeps (Quiet site) m) :
    Known site calls (do
      let ret ← call w site (.exec name argv readFd writeFd priority isForeground)
      let _ ← m
      return toInt ret) := by
  rw [Known, ends_bind]
  refine ends_call _ fun pid => ?_
  rw [ends_bind]
  refine (hm _).mono (fun _ calls' h => ?_) fun _ _ h => h
  obtain ⟨es, rfl, hsite, hnone⟩ := h
  rw [ends_pure]
  refine ⟨⟨site, .exec name argv readFd writeFd priority isForeground, pid⟩ :: es, ?_, ?_,
    Or.inr ⟨pid, fun q => ?_, rfl⟩⟩
  · rw [List.append_assoc]
    rfl
  · simpa using hsite
  · rw [← List.singleton_append, created_append, or_iff_left (hnone q)]
    constructor
    · rintro ⟨_, _, _, _, _, _, hmem⟩
      rw [List.mem_singleton, Event.mk.injEq] at hmem
      exact hmem.2.2
    · rintro rfl
      exact ⟨_, _, _, _, _, _, List.mem_singleton_self _⟩

theorem known_launch (name : List UInt8) (argv : List (List UInt8))
    (fdRead fdWrite priority isForeground : ℤ) :
    Known site calls (launch w site name argv fdRead fdWrite priority isForeground) :=
  known_exec name argv fdRead fdWrite priority isForeground (quiet_askWaitPid isForeground)

theorem known_runCommand (argv : List (List UInt8)) (fdRead fdWrite isForeground : ℤ)
    (command : Command) :
    Known site calls (runCommand w site argv fdRead fdWrite isForeground command) := by
  have hone : (1 : ℤ) ≠ -1 := by decide
  have hzero : (0 : ℤ) ≠ -1 := by decide
  cases command with
  | printmem => exact known_exec _ _ _ _ _ _ (quiet_call (by simp [Call.Plain]))
  | tron =>
    refine known_after (quiet_call (by simp [Call.Plain])) fun _ _ => ?_
    refine known_after (quiet_shrinkFont _) fun count _ => ?_
    refine known_after (quiet_call (by simp [Call.Plain])) fun _ _ => ?_
    refine known_after (quiet_growFont count) fun _ _ => ?_
    exact known_builtin (quiet_call (by simp [Call.Plain])) hone
  | incFont =>
    refine known_after quiet_increaseFontSize fun check _ => ?_
    split_ifs
    · exact known_builtin (quiet_call (by simp [Call.Plain])) hone
    · exact known_builtin (quiet_call (by simp [Call.Plain])) hone
  | decFont =>
    refine known_after quiet_decreaseFontSize fun check _ => ?_
    split_ifs
    · exact known_builtin (quiet_call (by simp [Call.Plain])) hone
    · exact known_builtin (quiet_call (by simp [Call.Plain])) hone
  | kill =>
    refine known_after (quiet_argument argv 0) fun pid _ => ?_
    exact known_builtin (quiet_call (by simp [Call.Plain])) hone
  | block =>
    refine known_after (quiet_argument argv 0) fun pid _ => ?_
    exact known_builtin (quiet_call (by simp [Call.Plain])) hone
  | unblock =>
    refine known_after (quiet_argument argv 0) fun pid _ => ?_
    exact known_builtin (quiet_call (by simp [Call.Plain])) hone
  | nice =>
    refine known_after (quiet_argument argv 0) fun pid _ => ?_
    refine known_after (quiet_argument argv 1) fun priority _ => ?_
    exact known_builtin (quiet_call (by simp [Call.Plain])) hone
  | help => exact known_builtin (quiet_call (by simp [Call.Plain])) hone
  | clear => exact known_builtin (quiet_call (by simp [Call.Plain])) hone
  | date => exact known_builtin (quiet_call (by simp [Call.Plain])) hone
  | time => exact known_builtin (quiet_call (by simp [Call.Plain])) hone
  | datetime => exact known_builtin (quiet_call (by simp [Call.Plain])) hone
  | divZero => exact known_builtin (quiet_call (by simp [Call.Plain])) hzero
  | invalidOp => exact known_builtin (quiet_call (by simp [Call.Plain])) hzero
  | exit => exact known_builtin (quiet_call (by simp [Call.Plain])) hzero
  | _ => exact known_launch _ _ _ _ _ _

theorem ends_runBuffer (argv : List (List UInt8)) (fdRead fdWrite isForeground : ℤ) :
    Ends (fun r => Adds site (fun es => Outcome site input es r) calls) (fun _ _ => True)
      (runBuffer w site ((parseString input).headD []) argv fdRead fdWrite isForeground) calls := by
  unfold runBuffer
  split_ifs with hempty
  · refine ⟨[], (List.append_nil _).symm, by simp, .builtin (fun h => h.1 hempty) ?_ (by decide)⟩
    exact fun pid h => by simp [Created] at h
  cases hfind : Command.find ((parseString input).headD []) with
  | none =>
    dsimp only
    rw [ends_bind]
    refine ((quiet_call (by simp [Call.Plain])) calls).mono (fun _ calls' h => ?_) fun _ _ h => h
    obtain ⟨es, rfl, hsite, hnone⟩ := h
    exact ⟨es, rfl, hsite, .unknown ⟨hempty, hfind⟩ hnone⟩
  | some command =>
    have hknown : ¬ Unknown input := fun h => by
      have := h.2
      rw [hfind] at this
      cases this
    refine (known_runCommand argv fdRead fdWrite isForeground command).mono (fun r calls' h => ?_)
      fun _ _ h => h
    obtain ⟨es, rfl, hsite, ⟨hnone, hr⟩ | ⟨pid, hpid, rfl⟩⟩ := h
    · exact ⟨es, rfl, hsite, .builtin hknown hnone hr⟩
    · exact ⟨es, rfl, hsite, .process hknown hpid⟩

theorem Outcome.after {es es' : List Event} (h : Outcome site input es' r)
    (hnone : ∀ pid, ¬ Created site es pid) : Outcome site input (es ++ es') r := by
  have hsame : ∀ pid, Created site (es ++ es') pid ↔ Created site es' pid := fun pid => by
    rw [created_append, or_iff_right (hnone pid)]
  cases h with
  | unknown h hnone => exact .unknown h fun pid => by rw [hsame]; exact hnone pid
  | builtin h hnone hr => exact .builtin h (fun pid => by rw [hsame]; exact hnone pid) hr
  | process h hpid => exact .process h fun q => by rw [hsame]; exact hpid q

/-- What `readBuffer` does for any line, wherever the last argument comes from. -/
theorem ends_readBuffer (fdRead fdWrite isForeground : ℤ) :
    Ends (fun r => Adds site (fun es => Outcome site input es r) calls) (fun _ _ => True)
      (readBuffer w site input fdRead fdWrite isForeground) calls := by
  unfold readBuffer
  dsimp only
  rw [ends_bind]
  have hback : Keeps (Quiet site) (inBackground w (parseString input).tail) :=
    quiet_inBackground _
  refine (hback calls).mono (fun background calls₁ h₁ => ?_) fun _ _ h => h
  split_ifs
  · rw [ends_bind]
    have hopen : Keeps (Quiet site) (pipeOpen w site AMPERSAND) :=
      quiet_bind (quiet_call (by simp [Call.Plain])) fun _ => quiet_pure _
    refine (hopen calls₁).mono (fun fd calls₂ h₂ => ?_) fun _ _ h => h
    refine (ends_runBuffer _ fd fdWrite 0).mono (fun r calls₃ h₃ => ?_) fun _ _ h => h
    exact Adds.after (h₁.trans h₂) h₃ fun _ _ hnone h => h.after hnone
  · refine (ends_runBuffer _ fdRead fdWrite isForeground).mono (fun r calls₂ h₂ => ?_)
      fun _ _ h => h
    exact Adds.after h₁ h₂ fun _ _ hnone h => h.after hnone

/-! ## The three exits -/

/-- A call of `pipedBuffer` itself. -/
def own (c : Call) (answer : ℤ) : Event := ⟨.pipedBuffer, c, answer⟩

@[simp] theorem own_inj {c c' : Call} {a a' : ℤ} : own c a = own c' a' ↔ c = c' ∧ a = a' := by
  simp [own]

/-- The command lines make no calls of `pipedBuffer`'s own. -/
theorem own_notMem (hes : ∀ e ∈ es, e.site = site) (hsite : site ≠ .pipedBuffer) (c : Call)
    (a : ℤ) : own c a ∉ es :=
  fun h => hsite (hes _ h).symm

theorem not_created (hes : ∀ e ∈ es, e.site ≠ site) : ¬ Created site es pid :=
  fun ⟨_, _, _, _, _, _, h⟩ => hes _ h rfl

/-- The calls up to `pipe_open`: the two copies, and the answer of `pipe_open`. -/
def opening (n m : ℕ) (p q d : ℤ) : List Event :=
  [own (.malloc n) p, own (.malloc m) q, own (.pipeOpen PIPES) d]

/-- All calls of a `pipedBuffer` that gets as far as `pipe_open`, with those of its two commands. -/
inductive Exit (buf : List UInt8) : List Event → Prop
  | left (n m : ℕ) (p q d a b : ℤ) {es : List Event} (hes : ∀ e ∈ es, e.site = .left)
    (hleft : Outcome .left (leftOf buf) es (-1)) :
    Exit buf (opening n m p q d ++ (es ++ [own (.free p) a, own (.free q) b]))
  | right (n m : ℕ) (p q d a b c y : ℤ) {r : ℤ} {es es' : List Event}
    (hes : ∀ e ∈ es, e.site = .left) (hes' : ∀ e ∈ es', e.site = .right)
    (hleft : Outcome .left (leftOf buf) es r) (hr : r ≠ -1)
    (hright : Outcome .right (rightOf buf) es' (-1)) :
    Exit buf (opening n m p q d ++ (es ++ own .yield y ::
      (es' ++ [own (.free p) a, own (.free q) b, own (.kill r) c])))
  | both (n m : ℕ) (p q d a b c y : ℤ) {r r' : ℤ} {es es' : List Event}
    (hes : ∀ e ∈ es, e.site = .left) (hes' : ∀ e ∈ es', e.site = .right)
    (hleft : Outcome .left (leftOf buf) es r) (hr : r ≠ -1)
    (hright : Outcome .right (rightOf buf) es' r') (hr' : r' ≠ -1) :
    Exit buf (opening n m p q d ++ (es ++ own .yield y ::
      (es' ++ [own (.free p) a, own (.free q) b, own (.pipeClose (toInt (toInt d - 3))) c])))

theorem ends_own {Q : ℤ → List Event → Prop} (c : Call) (h : ∀ a, Q a (calls ++ [own c a])) :
    Ends Q (fun _ _ => True) (call w .pipedBuffer c) calls := ends_call c h

theorem ends_runPiped (n m : ℕ) (p q : ℤ) :
    Ends (fun _ calls => Exit buf calls) (fun _ _ => True)
      (runPiped w (leftOf buf) (rightOf buf) p q) [own (.malloc n) p, own (.malloc m) q] := by
  unfold runPiped
  rw [ends_bind, pipeOpen, ends_bind]
  refine ends_own _ fun d => ?_
  rw [ends_pure, ends_bind]
  refine (ends_readBuffer 0 (toInt d) 0).mono (fun r calls h => ?_) fun _ _ h => h
  obtain ⟨es, rfl, hes, hleft⟩ := h
  split_ifs with hr
  · subst hr
    rw [ends_bind]
    refine ends_own _ fun a => ?_
    rw [ends_bind]
    refine ends_own _ fun b => ?_
    rw [ends_pure]
    simpa [opening] using Exit.left n m p q d a b hes hleft
  rw [ends_bind]
  refine ends_own _ fun y => ?_
  rw [ends_bind]
  refine (ends_readBuffer (toInt d) 1 1).mono (fun r' calls h => ?_) fun _ _ h => h
  obtain ⟨es', rfl, hes', hright⟩ := h
  split_ifs with hr'
  · subst hr'
    rw [ends_bind]
    refine ends_own _ fun a => ?_
    rw [ends_bind]
    refine ends_own _ fun b => ?_
    rw [ends_bind]
    refine ends_own _ fun c => ?_
    rw [ends_pure]
    simpa [opening] using Exit.right n m p q d a b c y hes hes' hleft hr hright
  · rw [ends_bind]
    refine ends_own _ fun a => ?_
    rw [ends_bind]
    refine ends_own _ fun b => ?_
    rw [ends_bind, pipeClose, ends_bind]
    refine ends_own _ fun c => ?_
    rw [ends_pure, ends_pure]
    simpa [opening] using Exit.both n m p q d a b c y hes hes' hleft hr hright hr'

/-- A `pipedBuffer` that gets as far as `pipe_open` leaves in one of three places. -/
theorem ends_pipedBuffer :
    Ends (fun _ calls => ∀ d, own (.pipeOpen PIPES) d ∈ calls → Exit buf calls) (fun _ _ => True)
      (pipedBuffer w buf) [] := by
  unfold pipedBuffer
  by_cases hpipe : PIPE ∈ buf
  swap
  · rw [if_pos hpipe]
    exact fun d hd => absurd hd List.not_mem_nil
  rw [if_neg (not_not.mpr hpipe)]
  dsimp only
  rw [ends_bind]
  refine ends_own _ fun p => ?_
  split_ifs
  · exact fun d hd => absurd hd (by simp [own])
  rw [ends_bind]
  refine ends_own _ fun q => ?_
  split_ifs
  · rw [ends_bind]
    refine ends_own _ fun a => ?_
    exact fun d hd => absurd hd (by simp [own])
  · exact (ends_runPiped _ _ p q).mono (fun _ _ h _ _ => h) fun _ _ h => h

/-! ## Cleaning up -/

/-- What the pipe command is to have done when it returns: its pipe has been closed, its copies have
been freed, and whom it has killed is a process that its left command has created. -/
structure CleansUp (calls : List Event) : Prop where
  closed : ∀ d, own (.pipeOpen PIPES) d ∈ calls → toInt d ≠ -1 →
    ∃ c, [own (.pipeOpen PIPES) d, own (.pipeClose (toInt (toInt d - 3))) c].Sublist calls
  freed : ∀ n p, own (.malloc n) p ∈ calls → ∃ a, [own (.malloc n) p, own (.free p) a].Sublist calls
  killed : ∀ r c, own (.kill r) c ∈ calls → Created .left calls r

/-- The command is not known, or the kernel has not created its process. -/
def Fails (site : Site) (input : List UInt8) (calls : List Event) : Prop :=
  Unknown input ∨ ∃ pid, Created site calls pid ∧ toInt pid = -1

/-- No command fails, or no pipe has been opened and only a process that was created is in the
way. -/
structure Succeeds (buf : List UInt8) (calls : List Event) : Prop where
  commands : ∀ d, own (.pipeOpen PIPES) d ∈ calls → toInt d ≠ -1 →
    ¬ Fails .left (leftOf buf) calls ∧ ¬ Fails .right (rightOf buf) calls
  process : ¬ Fails .left (leftOf buf) calls → Fails .right (rightOf buf) calls →
    ∃ pid, Created .left calls pid ∧ toInt pid = pid

theorem Outcome.fails_iff (h : Outcome site input es r)
    (hsame : ∀ pid, Created site calls pid ↔ Created site es pid) :
    Fails site input calls ↔ r = -1 := by
  simp only [Fails, hsame]
  cases h with
  | unknown h _ => exact iff_of_true (Or.inl h) rfl
  | builtin h hnone hr =>
    refine iff_of_false ?_ hr
    rintro (hunknown | ⟨pid, hpid, -⟩)
    · exact h hunknown
    · exact hnone pid hpid
  | @process pid h hpid =>
    constructor
    · rintro (hunknown | ⟨q, hq, hfail⟩)
      · exact absurd hunknown h
      · exact (hpid q).mp hq ▸ hfail
    · exact fun hfail => Or.inr ⟨pid, (hpid pid).mpr rfl, hfail⟩

/-- What the left command returns is the pid of its process if it created one and its pid is an
`int`. -/
theorem Outcome.created_iff (h : Outcome site input es r) (hr : r ≠ -1) :
    Created site es r ↔ ∃ pid, Created site es pid ∧ toInt pid = pid := by
  cases h with
  | unknown _ _ => exact absurd rfl hr
  | builtin _ hnone _ =>
    exact iff_of_false (hnone r) fun ⟨pid, hpid, _⟩ => hnone pid hpid
  | @process pid _ hpid =>
    constructor
    · intro hcreated
      have heq := (hpid _).mp hcreated
      exact ⟨pid, (hpid pid).mpr rfl, heq⟩
    · rintro ⟨q, hq, hint⟩
      obtain rfl := (hpid q).mp hq
      exact hint.symm ▸ hq

theorem pair_sublist {x y : Event} (hx : x ∈ es) (hy : y ∈ es') : [x, y].Sublist (es ++ es') :=
  (List.singleton_sublist.mpr hx).append (List.singleton_sublist.mpr hy)

/-- The copies are made in front of `pipe_open`, and freed behind it on every way out. -/
theorem Exit.freed (h : Exit buf calls) (k : ℕ) (x : ℤ) (hmem : own (.malloc k) x ∈ calls) :
    ∃ a, [own (.malloc k) x, own (.free x) a].Sublist calls := by
  obtain ⟨n, m, p, q, d, rest, rfl, hnone, ⟨a, ha⟩, b, hb⟩ : ∃ n m p q d rest,
      calls = opening n m p q d ++ rest ∧ own (.malloc k) x ∉ rest ∧
        (∃ a, own (.free p) a ∈ rest) ∧ ∃ b, own (.free q) b ∈ rest := by
    cases h with
    | left n m p q d a b hes _ =>
      have hown := own_notMem hes (by decide)
      exact ⟨n, m, p, q, d, _, rfl, by simp [hown], ⟨a, by simp⟩, b, by simp⟩
    | right n m p q d a b c y hes hes' _ _ _ =>
      have hown := own_notMem hes (by decide)
      have hown' := own_notMem hes' (by decide)
      exact ⟨n, m, p, q, d, _, rfl, by simp [hown, hown'], ⟨a, by simp⟩, b, by simp⟩
    | both n m p q d a b c y hes hes' _ _ _ _ =>
      have hown := own_notMem hes (by decide)
      have hown' := own_notMem hes' (by decide)
      exact ⟨n, m, p, q, d, _, rfl, by simp [hown, hown'], ⟨a, by simp⟩, b, by simp⟩
  have hopening := (List.mem_append.mp hmem).resolve_right hnone
  have hcases := hopening
  simp only [opening, List.mem_cons, own_inj, List.not_mem_nil, or_false,
    Call.malloc.injEq] at hcases
  rcases hcases with ⟨-, rfl⟩ | ⟨-, rfl⟩ | hpipe
  · exact ⟨a, pair_sublist hopening ha⟩
  · exact ⟨b, pair_sublist hopening hb⟩
  · exact absurd hpipe.1 (by simp)

theorem created_around (pre post : List Event) (hpre : ∀ e ∈ pre, e.site ≠ site)
    (hpost : ∀ e ∈ post, e.site ≠ site) :
    Created site (pre ++ (es ++ post)) pid ↔ Created site es pid := by
  rw [created_append, created_append, or_iff_right (not_created hpre),
    or_iff_left (not_created hpost)]

/-- Each command has created what the calls from its place say. -/
theorem created_commands (n m : ℕ) (p q d y : ℤ) (post : List Event)
    (hes : ∀ e ∈ es, e.site = .left) (hes' : ∀ e ∈ es', e.site = .right)
    (hpost : ∀ e ∈ post, e.site = .pipedBuffer) :
    (∀ pid, Created .left (opening n m p q d ++ (es ++ own .yield y :: (es' ++ post))) pid ↔
      Created .left es pid) ∧
    ∀ pid, Created .right (opening n m p q d ++ (es ++ own .yield y :: (es' ++ post))) pid ↔
      Created .right es' pid := by
  refine ⟨fun pid => created_around _ _ (by simp [opening, own]) fun e he => ?_, fun pid => ?_⟩
  · rcases List.mem_cons.mp he with rfl | he
    · simp [own]
    rcases List.mem_append.mp he with he | he
    · rw [hes' e he]
      decide
    · rw [hpost e he]
      decide
  · have hassoc : opening n m p q d ++ (es ++ own .yield y :: (es' ++ post)) =
        (opening n m p q d ++ (es ++ [own .yield y])) ++ (es' ++ post) := by simp
    rw [hassoc]
    refine created_around _ _ (fun e he => ?_) fun e he => ?_
    · have hopening : ∀ e ∈ opening n m p q d, e.site ≠ .right := by simp [opening, own]
      rcases List.mem_append.mp he with he | he
      · exact hopening e he
      rcases List.mem_append.mp he with he | he
      · rw [hes e he]
        decide
      · rw [List.mem_singleton.mp he]
        simp [own]
    · rw [hpost e he]
      decide

theorem cleansUp_iff_of_exit (h : Exit buf calls) : CleansUp calls ↔ Succeeds buf calls := by
  have hfreed := h.freed
  cases h with
  | @left n m p q d a b es hes hleft =>
    have hown := own_notMem hes (by decide)
    have hfails := (hleft.fails_iff fun pid => created_around (opening n m p q d)
      [own (.free p) a, own (.free q) b] (by simp [opening, own]) (by simp [own])).mpr rfl
    constructor
    · intro h
      refine ⟨fun d' hd' hopen => ?_, fun hnot => absurd hfails hnot⟩
      obtain ⟨c, hsub⟩ := h.closed d' hd' hopen
      have hclose := hsub.subset (List.mem_cons_of_mem _ (List.mem_singleton_self _))
      exact absurd hclose (by simp [opening, hown])
    · intro h
      refine ⟨fun d' hd' hopen => ?_, hfreed, fun r c hkill => ?_⟩
      · exact absurd hfails (h.commands d' hd' hopen).1
      · exact absurd hkill (by simp [opening, hown])
  | @right n m p q d a b c y r es es' hes hes' hleft hr hright =>
    have hown := own_notMem hes (by decide)
    have hown' := own_notMem hes' (by decide)
    obtain ⟨hcreated, hcreated'⟩ := created_commands n m p q d y
      [own (.free p) a, own (.free q) b, own (.kill r) c] hes hes' (by simp [own])
    have hstarts := (hleft.fails_iff hcreated).not.mpr hr
    have hfails := (hright.fails_iff hcreated').mpr rfl
    constructor
    · intro h
      refine ⟨fun d' hd' hopen => ?_, fun _ _ => ?_⟩
      · obtain ⟨c', hsub⟩ := h.closed d' hd' hopen
        have hclose := hsub.subset (List.mem_cons_of_mem _ (List.mem_singleton_self _))
        exact absurd hclose (by simp [opening, hown, hown'])
      · have hkilled := h.killed r c (by simp)
        rw [hcreated] at hkilled
        simp only [hcreated]
        exact (hleft.created_iff hr).mp hkilled
    · intro h
      refine ⟨fun d' hd' hopen => ?_, hfreed, fun r' c' hkill => ?_⟩
      · exact absurd hfails (h.commands d' hd' hopen).2
      · obtain ⟨rfl, -⟩ : r' = r ∧ c' = c := by simpa [opening, hown, hown'] using hkill
        have hprocess := h.process hstarts hfails
        simp only [hcreated] at hprocess ⊢
        exact (hleft.created_iff hr).mpr hprocess
  | @both n m p q d a b c y r r' es es' hes hes' hleft hr hright hr' =>
    have hown := own_notMem hes (by decide)
    have hown' := own_notMem hes' (by decide)
    obtain ⟨hcreated, hcreated'⟩ := created_commands n m p q d y
      [own (.free p) a, own (.free q) b, own (.pipeClose (toInt (toInt d - 3))) c] hes hes'
      (by simp [own])
    have hstarts := (hleft.fails_iff hcreated).not.mpr hr
    have hstarts' := (hright.fails_iff hcreated').not.mpr hr'
    refine iff_of_true ⟨fun d' hd' _ => ?_, hfreed, fun r' c' hkill => ?_⟩
      ⟨fun _ _ _ => ⟨hstarts, hstarts'⟩, fun _ hfails => absurd hfails hstarts'⟩
    · obtain rfl : d' = d := by simpa [opening, hown, hown'] using hd'
      exact ⟨c, pair_sublist (by simp [opening]) (by simp)⟩
    · exact absurd hkill (by simp [opening, hown, hown'])

/-- A pipe command that gets as far as `pipe_open` cleans up, whatever the kernel answers, if and
only if both commands are known and both of those that are processes have been created. Where no
pipe was opened, it does so too after the left command has failed, or if the right one has failed
and the left one is a process. -/
theorem cleansUp_iff (w : World) (buf : List UInt8) (r d : ℤ) (calls : List Event)
    (hrun : pipedBuffer w buf [] = .ok r calls) (hopen : own (.pipeOpen PIPES) d ∈ calls) :
    CleansUp calls ↔ Succeeds buf calls :=
  cleansUp_iff_of_exit (ends_pipedBuffer.of_ok hrun d hopen)

/-- A kernel with room for everything: pipe 0 is free, and new processes get the pid 5. -/
def obliging : World where
  answer calls c := some (match c with
    | .malloc _ => 4096 + 64 * calls.length
    | .pipeOpen _ => 3
    | .exec _ _ _ _ _ _ => 5
    | _ => 0)
  stray _ := false
  unread _ := 0

/-- `cat|wc`. -/
def catWc : List UInt8 := bytes ['c', 'a', 't', '|', 'w', 'c']

/-- `help|foo`. -/
def helpFoo : List UInt8 := bytes ['h', 'e', 'l', 'p', '|', 'f', 'o', 'o']

/-- The calls for `cat|wc`. -/
def catWcCalls : List Event :=
  opening 4 3 4096 4160 3 ++
    ([⟨.left, .exec (Command.cat).word [] 0 3 1 0, 5⟩] ++ own .yield 0 ::
      ([⟨.right, .exec (Command.wc).word [] 3 1 1 1, 5⟩, ⟨.right, .waitPid, 0⟩] ++
        [own (.free 4096) 0, own (.free 4160) 0, own (.pipeClose 0) 0]))

theorem run_catWc : pipedBuffer obliging catWc [] = .ok 1 catWcCalls := by rfl

theorem created_catWc (h : Created site catWcCalls pid) : pid = 5 := by
  obtain ⟨_, _, _, _, _, _, hmem⟩ := h
  simp only [catWcCalls, opening, own, List.cons_append, List.nil_append, List.mem_cons,
    Event.mk.injEq, reduceCtorEq, false_and, and_false, false_or, or_false,
    List.not_mem_nil] at hmem
  rcases hmem with ⟨-, -, rfl⟩ | ⟨-, -, rfl⟩ <;> rfl

/-- Two known commands whose processes are created. -/
theorem cleansUp_iff_catWc : CleansUp catWcCalls := by
  refine (cleansUp_iff obliging catWc 1 3 catWcCalls run_catWc (by decide)).mpr ?_
  have hcreates : ∀ site, ¬ ∃ pid, Created site catWcCalls pid ∧ toInt pid = -1 := by
    rintro site ⟨pid, hpid, hfails⟩
    rw [created_catWc hpid] at hfails
    exact absurd hfails (by decide)
  have hleft : ¬ Fails .left (leftOf catWc) catWcCalls := by
    rintro (hunknown | hfails)
    · exact absurd hunknown.2 (by decide)
    · exact hcreates _ hfails
  have hright : ¬ Fails .right (rightOf catWc) catWcCalls := by
    rintro (hunknown | hfails)
    · exact absurd hunknown.2 (by decide)
    · exact hcreates _ hfails
  exact ⟨fun _ _ _ => ⟨hleft, hright⟩, fun _ h => absurd h hright⟩

/-- The calls for `help|foo`. -/
def helpFooCalls : List Event :=
  opening 5 4 4096 4160 3 ++
    ([⟨.left, .print .help, 0⟩] ++ own .yield 0 ::
      ([⟨.right, .printErrorMessage (bytes ['f', 'o', 'o']) COMMAND_NOT_FOUND_MESSAGE, 0⟩] ++
        [own (.free 4096) 0, own (.free 4160) 0, own (.kill 1) 0]))

theorem run_helpFoo : pipedBuffer obliging helpFoo [] = .ok 3 helpFooCalls := by rfl

/-- After `help|foo` the pipe is open, and process 1 has been killed although `help` has created
none. -/
theorem helpFoo_leaves :
    (∀ c, own (.pipeClose 0) c ∉ helpFooCalls) ∧ own (.kill 1) 0 ∈ helpFooCalls ∧
      ¬ Created .left helpFooCalls 1 := by
  refine ⟨fun c hc => ?_, by decide, ?_⟩
  · simp [helpFooCalls, opening, own] at hc
  · rintro ⟨_, _, _, _, _, _, hmem⟩
    simp [helpFooCalls, opening, own] at hmem

/-- The pipe command does not always clean up. -/
theorem pipe_left_open :
    ¬ ∀ (w : World) (buf : List UInt8) (r d : ℤ) (calls : List Event),
      pipedBuffer w buf [] = .ok r calls → own (.pipeOpen PIPES) d ∈ calls → CleansUp calls := by
  intro hclaim
  have hclean := hclaim obliging helpFoo 3 3 helpFooCalls run_helpFoo (by decide)
  obtain ⟨-, hkill, hnone⟩ := helpFoo_leaves
  exact hnone (hclean.killed 1 0 hkill)

end TronKernel.Shell
