import TronKernel.Shell.Arguments
import TronKernel.Shell.PipedBuffer

/-!
# From a line to a process

What `readBuffer` has put into `argv` reaches the process only through the branch of its command.
Most branches pass it on, with `is_foreground`, and wait in the foreground. `test-processes` has
arguments of its own, `printmem` is always waited for, and the shell's own commands have no process
at all (`readBuffer_faithful_iff`).
-/

namespace TronKernel.Shell.CommandLine

open Arguments Programs Words

/-- The commands that are run as a process. -/
def isProcess : Command → Bool
  | .printmem | .inforeg | .ps | .testProcesses | .testMm | .testSync | .testPrio | .loop | .cat
  | .filter | .wc | .sh | .phylo | .memInfo => true
  | _ => false

/-- So many arguments are looked at by the branch of the command itself. -/
def ownArgs : Command → ℕ
  | .kill | .block | .unblock => 1
  | .nice => 2
  | _ => 0

/-! ## What the line asks for -/

/-- The last word behind the first one is `"&"`. -/
def Marked (input : List UInt8) : Prop := (cutWords input).tail.getLast? = some AMPERSAND

instance (input : List UInt8) : Decidable (Marked input) := inferInstanceAs (Decidable (_ = _))

/-- The words behind the first one, without the mark. -/
def argsOf (input : List UInt8) : List (List UInt8) :=
  if Marked input then (cutWords input).tail.dropLast else (cutWords input).tail

/-- The command that the line begins with. -/
def commandOf (input : List UInt8) : Option Command := Command.find ((cutWords input).headD [])

/-- Among the calls is an `exec` with these arguments. -/
def Execs (es : List Event) (argv : List (List UInt8)) (isForeground : ℤ) : Prop :=
  ∃ e ∈ es, ∃ name readFd writeFd priority,
    e.call = .exec name argv readFd writeFd priority isForeground

/-- Among the calls is a `wait_pid`. -/
def Waits (es : List Event) : Prop := ∃ e ∈ es, e.call = .waitPid

/-- A process has been asked for that is not in the foreground, and it is not waited for. -/
structure InBackground (es : List Event) : Prop where
  process : ∃ argv isForeground, Execs es argv isForeground ∧ isForeground ≠ 1
  alone : ¬ Waits es

/-- A process that has been asked for is in the foreground, and it is waited for. -/
def InForeground (es : List Event) : Prop :=
  ∀ argv isForeground, Execs es argv isForeground → isForeground = 1 ∧ Waits es

/-- The calls are those that the line asks for. -/
structure Serves (input : List UInt8) (es : List Event) : Prop where
  args : ∀ argv isForeground, Execs es argv isForeground → argv = argsOf input
  background : commandOf input ≠ none → Marked input → InBackground es
  foreground : commandOf input ≠ none → ¬ Marked input → InForeground es

/-- A word of the array that was set for the line, up to its NUL. -/
def IsSet (words : Cells) (k : ℕ) : Prop :=
  ∃ word, 0 ∉ word ∧ Row words.bytes k word ∧ ∀ j : ℕ, j ≤ word.length → offset k j ∈ words.written

/-- One call of `readBuffer` is faithful to its line: `argv` holds the words, the process gets them
and runs where it should, and nothing is read that was not set for the line. -/
structure FaithfulTo (input : List UInt8) (isForeground : ℤ) (w : World) (site : Site)
    (fdRead fdWrite : ℤ) (calls : List Event) (bytes : ℤ → UInt8) : Prop where
  passes : Passes (readLine (w.stray calls) bytes input).words.bytes
    (readLine (w.stray calls) bytes input).argv (argsOf input)
  serves : ∀ r calls', readBuffer w site input fdRead fdWrite isForeground calls = .ok r calls' →
    ∃ es, calls' = calls ++ es ∧ Serves input es
  pointersRead : .unset ∉ (readLine (w.stray calls) bytes input).argvRead
  wordsRead : ∀ o ∈ (readLine (w.stray calls) bytes input).wordsRead,
    o ∈ (readLine (w.stray calls) bytes input).words.written
  ownRead : ∀ c ∈ commandOf input, ∀ i : ℕ, i < ownArgs c →
    ∃ k, (readLine (w.stray calls) bytes input).argv i = .word k ∧
      IsSet (readLine (w.stray calls) bytes input).words k

/-- Whatever the kernel answers, and whatever was in the array. -/
def Faithful (input : List UInt8) (isForeground : ℤ) : Prop :=
  ∀ w site fdRead fdWrite calls bytes,
    FaithfulTo input isForeground w site fdRead fdWrite calls bytes

/-- The line has two words and so many arguments as its command looks at. `test-processes` gets the
2 that it is given anyway, only a process is to run in the background, but not `printmem`, and what
is to run in the foreground has been called so. -/
def Regular (input : List UInt8) (isForeground : ℤ) : Prop :=
  2 ≤ (runs input).length ∧ ∀ c ∈ commandOf input,
    ownArgs c ≤ (argsOf input).length ∧
    (c = .testProcesses → argsOf input = [bytes ['2']]) ∧
    (Marked input → isProcess c ∧ c ≠ .printmem) ∧
    (¬ Marked input → isProcess c → isForeground = 1)

instance (input : List UInt8) (isForeground : ℤ) : Decidable (Regular input isForeground) :=
  inferInstanceAs (Decidable (_ ∧ ∀ c ∈ commandOf input, _))

/-! ## The calls of a command -/

variable {w : World} {site : Site} {input : List UInt8} {calls es es' : List Event} {c : Command}
  {argv : List (List UInt8)} {fdRead fdWrite priority isForeground : ℤ}

/-- What the branch passes to `exec`. -/
def passed (c : Command) (argv : List (List UInt8)) : List (List UInt8) :=
  if c = .testProcesses then [bytes ['2']] else argv

/-- The calls of a process that has been asked for. -/
structure Launched (c : Command) (argv : List (List UInt8)) (isForeground : ℤ) (es : List Event) :
    Prop where
  execs : ∀ argv' f, Execs es argv' f ↔ argv' = passed c argv ∧ f = isForeground
  waits : Waits es ↔ isForeground = 1 ∨ c = .printmem

/-- No process has been asked for. -/
def NoProcess (es : List Event) : Prop := ∀ argv f, ¬ Execs es argv f

theorem execs_append {f : ℤ} : Execs (es ++ es') argv f ↔ Execs es argv f ∨ Execs es' argv f := by
  simp only [Execs, List.mem_append, or_and_right, exists_or]

theorem waits_append : Waits (es ++ es') ↔ Waits es ∨ Waits es' := by
  simp only [Waits, List.mem_append, or_and_right, exists_or]

theorem NoProcess.append (h : NoProcess es) (h' : NoProcess es') : NoProcess (es ++ es') :=
  fun argv f hexec => (execs_append.mp hexec).elim (h argv f) (h' argv f)

theorem Launched.after (h : Launched c argv isForeground es') (hes : NoProcess es)
    (hwaits : ¬ Waits es) : Launched c argv isForeground (es ++ es') where
  execs argv' f := by
    rw [execs_append, or_iff_right (hes argv' f)]
    exact h.execs argv' f
  waits := by
    rw [waits_append, or_iff_right hwaits]
    exact h.waits

/-- Calls that create no process, in the terms of their answers. -/
theorem noProcess_of_quiet (h : Quiet site calls es) :
    ∃ es', es = calls ++ es' ∧ NoProcess es' := by
  obtain ⟨es', rfl, hsite, hnone⟩ := h
  refine ⟨es', rfl, ?_⟩
  rintro argv f ⟨⟨_, call, answer⟩, he, name, readFd, writeFd, priority, rfl⟩
  obtain rfl := hsite _ he
  exact hnone answer ⟨name, argv, readFd, writeFd, priority, f, he⟩

/-- `exec`, and perhaps `wait_pid`. -/
theorem ends_exec {α : Type} {m : Prog α} {waits : Prop} (name : List UInt8)
    (hm : ∀ calls, Ends (fun _ calls' => waits ∧ (∃ a, calls' = calls ++ [⟨site, .waitPid, a⟩]) ∨
      ¬ waits ∧ calls' = calls) (fun _ _ => True) m calls) :
    Ends (fun _ calls' => ∃ es, calls' = calls ++ es ∧
        (∀ argv' f, Execs es argv' f ↔ argv' = argv ∧ f = isForeground) ∧ (Waits es ↔ waits))
      (fun _ _ => True) (do
        let ret ← call w site (.exec name argv fdRead fdWrite priority isForeground)
        let _ ← m
        return Sem.toInt ret) calls := by
  rw [ends_bind]
  refine ends_call _ fun pid => ?_
  rw [ends_bind]
  refine (hm _).mono (fun _ calls' h => ?_) fun _ _ h => h
  rw [ends_pure]
  obtain ⟨hwaits, a, rfl⟩ | ⟨hwaits, rfl⟩ := h
  · refine ⟨[_, ⟨site, .waitPid, a⟩], by rw [List.append_assoc]; rfl, fun argv' f => ?_, ?_⟩
    · simp [Execs, eq_comm]
    · simp [Waits, hwaits]
  · refine ⟨[_], rfl, fun argv' f => ?_, ?_⟩
    · simp [Execs, eq_comm]
    · simp [Waits, hwaits]

theorem ends_launch (name : List UInt8) (hname : c ≠ .printmem) :
    Ends (fun _ calls' => ∃ es, calls' = calls ++ es ∧ Launched c argv isForeground es)
      (fun _ _ => True)
      (launch w site name (passed c argv) fdRead fdWrite priority isForeground) calls := by
  have hask : ∀ calls, Ends (fun _ calls' => isForeground = 1 ∧
      (∃ a, calls' = calls ++ [⟨site, .waitPid, a⟩]) ∨ ¬ isForeground = 1 ∧ calls' = calls)
      (fun _ _ => True) (askWaitPid w site isForeground) calls := by
    intro calls
    unfold askWaitPid
    split_ifs with hf
    · rw [ends_bind]
      refine ends_call _ fun a => ?_
      exact Or.inl ⟨hf, a, rfl⟩
    · exact Or.inr ⟨hf, rfl⟩
  refine (ends_exec name hask).mono (fun _ calls' h => ?_) fun _ _ h => h
  obtain ⟨es, rfl, hexecs, hwaits⟩ := h
  exact ⟨es, rfl, hexecs, by rw [hwaits, or_iff_left hname]⟩

/-- A command that is run as a process. -/
theorem ends_process (hc : isProcess c = true) :
    Ends (fun _ calls' => ∃ es, calls' = calls ++ es ∧ Launched c argv isForeground es)
      (fun _ _ => True) (runCommand w site argv fdRead fdWrite isForeground c) calls := by
  cases c with
  | printmem =>
    have hwait : ∀ calls, Ends (fun _ calls' => True ∧
        (∃ a, calls' = calls ++ [⟨site, .waitPid, a⟩]) ∨ ¬ True ∧ calls' = calls)
        (fun _ _ => True) (call w site .waitPid) calls :=
      fun calls => ends_call _ fun a => Or.inl ⟨trivial, a, rfl⟩
    refine (ends_exec (Command.printmem).word hwait).mono (fun _ calls' h => ?_) fun _ _ h => h
    obtain ⟨es, rfl, hexecs, hwaits⟩ := h
    exact ⟨es, rfl, hexecs, by simp [hwaits]⟩
  | inforeg | ps | testProcesses | testMm | testSync | testPrio | loop | cat | filter | wc | sh
  | phylo | memInfo => exact ends_launch _ (by decide)
  | _ => exact absurd hc (by decide)

/-- A command that the shell runs itself. -/
theorem quiet_builtin (hc : isProcess c = false) :
    Keeps (Quiet site) (runCommand w site argv fdRead fdWrite isForeground c) := by
  have hshow : ∀ {call' : Call} (r : ℤ), call'.Plain →
      Keeps (Quiet site) (do let _ ← call w site call'; return r) := fun r hplain =>
    quiet_bind (quiet_call hplain) fun _ => quiet_pure r
  have hfont : ∀ (check : Prog ℤ) (text : Call), text.Plain → Keeps (Quiet site) check →
      Keeps (Quiet site) (do
        if (← check) = 0 then
          let _ ← call w site text
        else
          let _ ← call w site .clear
        return (1 : ℤ)) := fun check text htext hcheck => by
    refine quiet_bind hcheck fun _ => ?_
    split_ifs
    · exact hshow 1 htext
    · exact hshow 1 (by simp [Call.Plain])
  cases c with
  | tron =>
    refine quiet_bind (quiet_call (by simp [Call.Plain])) fun _ => ?_
    refine quiet_bind (quiet_shrinkFont _) fun count => ?_
    refine quiet_bind (quiet_call (by simp [Call.Plain])) fun _ => ?_
    refine quiet_bind (quiet_growFont count) fun _ => ?_
    exact hshow 1 (by simp [Call.Plain])
  | incFont => exact hfont _ _ (by simp [Call.Plain]) quiet_increaseFontSize
  | decFont => exact hfont _ _ (by simp [Call.Plain]) quiet_decreaseFontSize
  | kill | block | unblock =>
    exact quiet_bind (quiet_argument argv 0) fun _ => hshow 1 (by simp [Call.Plain])
  | nice =>
    refine quiet_bind (quiet_argument argv 0) fun _ => ?_
    exact quiet_bind (quiet_argument argv 1) fun _ => hshow 1 (by simp [Call.Plain])
  | help | clear | date | time | datetime => exact hshow 1 (by simp [Call.Plain])
  | divZero | invalidOp | exit => exact hshow 0 (by simp [Call.Plain])
  | _ => exact absurd hc (by decide)

theorem runBuffer_of_command (hc : commandOf input = some c) :
    runBuffer w site ((cutWords input).headD []) argv fdRead fdWrite isForeground =
      runCommand w site argv fdRead fdWrite isForeground c := by
  have hne : (cutWords input).headD [] ≠ [] := by
    intro hnil
    rw [commandOf, hnil, show Command.find [] = none by decide] at hc
    cases hc
  rw [commandOf] at hc
  rw [runBuffer, if_neg hne, hc]

theorem quiet_runBuffer (hc : commandOf input = none) :
    Keeps (Quiet site)
      (runBuffer w site ((cutWords input).headD []) argv fdRead fdWrite isForeground) := by
  rw [commandOf] at hc
  rw [runBuffer, hc]
  split_ifs
  · exact quiet_pure _
  · exact quiet_bind (quiet_call (by simp [Call.Plain])) fun _ => quiet_pure _

/-! ## The calls of a line -/

/-- What `exec` is told of the foreground. -/
def placeOf (input : List UInt8) (isForeground : ℤ) : ℤ := if Marked input then 0 else isForeground

section TwoWords

variable (hinput : input.length ≤ MAX_TERMINAL_CHARS - 1) (hnul : 0 ∉ input)
  (htwo : 2 ≤ (cutWords input).length)
include hinput hnul htwo

theorem background_iff (stray : Bool) (bytes : ℤ → UInt8) :
    (readLine stray bytes input).background = true ↔ Marked input := by
  have hmany : ¬ (cutWords input).length < 2 := by omega
  rw [(readLine_spec stray bytes hinput hnul).2.1, Marked, or_iff_left fun h => hmany h.1]

/-- `readBuffer` runs the branch, behind a `pipe_open` if the line is marked. -/
theorem ends_readBuffer {P : List Event → Prop}
    (hP : ∀ es es', NoProcess es → ¬ Waits es → P es' → P (es ++ es'))
    (hrun : ∀ fdRead calls, Ends (fun _ calls' => ∃ es, calls' = calls ++ es ∧ P es)
      (fun _ _ => True) (runBuffer w site ((cutWords input).headD []) (argsOf input) fdRead fdWrite
        (placeOf input isForeground)) calls) :
    Ends (fun _ calls' => ∃ es, calls' = calls ++ es ∧ P es) (fun _ _ => True)
      (readBuffer w site input fdRead fdWrite isForeground) calls := by
  have hback := background_iff hinput hnul htwo (w.stray calls) fun _ => 0
  rw [Ends, readBuffer_eq calls (fun _ => 0) hinput hnul, (readLine_spec _ _ hinput hnul).1]
  rw [argsOf, placeOf] at hrun
  by_cases hmark : Marked input
  · rw [if_pos (hback.mpr hmark)]
    rw [if_pos hmark, if_pos hmark] at hrun
    change Ends _ _
      (pipeOpen w site AMPERSAND >>= fun fd => runBuffer w site _ _ fd fdWrite 0) calls
    rw [ends_bind, pipeOpen, ends_bind]
    refine ends_call _ fun a => ?_
    rw [ends_pure]
    refine (hrun _ _).mono (fun _ calls' h => ?_) fun _ _ h => h
    obtain ⟨es, rfl, hes⟩ := h
    refine ⟨[⟨site, .pipeOpen AMPERSAND, a⟩] ++ es, by rw [List.append_assoc], hP _ _ ?_ ?_ hes⟩
    · intro argv f
      simp [Execs]
    · simp [Waits]
  · rw [if_neg (mt hback.mp hmark)]
    rw [if_neg hmark, if_neg hmark] at hrun
    exact hrun fdRead calls

theorem ends_readBuffer_process (hc : commandOf input = some c) (hprocess : isProcess c = true) :
    Ends (fun _ calls' => ∃ es, calls' = calls ++ es ∧
        Launched c (argsOf input) (placeOf input isForeground) es) (fun _ _ => True)
      (readBuffer w site input fdRead fdWrite isForeground) calls := by
  refine ends_readBuffer hinput hnul htwo (fun es es' hes hwaits h => h.after hes hwaits) ?_
  intro fdRead calls
  rw [runBuffer_of_command hc]
  exact ends_process hprocess

theorem ends_readBuffer_builtin (hc : ∀ c ∈ commandOf input, isProcess c = false) :
    Ends (fun _ calls' => ∃ es, calls' = calls ++ es ∧ NoProcess es) (fun _ _ => True)
      (readBuffer w site input fdRead fdWrite isForeground) calls := by
  refine ends_readBuffer hinput hnul htwo (fun es es' hes _ h => hes.append h) ?_
  intro fdRead calls
  cases hcommand : commandOf input with
  | none =>
    exact (quiet_runBuffer hcommand calls).mono (fun _ _ h => noProcess_of_quiet h) fun _ _ h => h
  | some c =>
    rw [runBuffer_of_command hcommand]
    exact (quiet_builtin (hc c hcommand) calls).mono (fun _ _ h => noProcess_of_quiet h)
      fun _ _ h => h

end TwoWords

/-! ## A kernel that answers everything -/

/-- The program ends, whatever calls were made before. -/
def Returns {α : Type} (m : Prog α) : Prop := ∀ calls, ∃ r calls', m calls = .ok r calls'

theorem returns_pure {α : Type} (a : α) : Returns (pure a : Prog α) := fun calls => ⟨a, calls, rfl⟩

theorem Returns.bind {α β : Type} {m : Prog α} {f : α → Prog β} (hm : Returns m)
    (hf : ∀ a, Returns (f a)) : Returns (m >>= f) := by
  intro calls
  obtain ⟨a, calls₁, hrun⟩ := hm calls
  rw [bind_of_ok hrun]
  exact hf a calls₁

theorem returns_call (site : Site) (c : Call) : Returns (call obliging site c) :=
  fun _ => ⟨_, _, rfl⟩

theorem returns_shrinkFont {rounds : ℕ} (h : 0 < rounds) :
    Returns (shrinkFont obliging site rounds) := by
  obtain ⟨rounds, rfl⟩ := Nat.exists_eq_succ_of_ne_zero h.ne'
  exact fun _ => ⟨_, _, rfl⟩

theorem returns_growFont (count : ℕ) : Returns (growFont obliging site count) := by
  induction count with
  | zero => exact returns_pure _
  | succ count ih =>
    exact ((returns_call site _).bind fun _ => returns_pure _).bind fun _ => ih

theorem returns_argument (argv : List (List UInt8)) (i : ℕ) :
    Returns (argument obliging argv i) := by
  unfold argument
  cases argv[i]? with
  | none => exact fun _ => ⟨_, _, rfl⟩
  | some word => exact returns_pure _

theorem returns_askWaitPid (isForeground : ℤ) :
    Returns (askWaitPid obliging site isForeground) := by
  unfold askWaitPid
  split_ifs
  · exact (returns_call site _).bind fun _ => returns_pure _
  · exact returns_pure _

theorem returns_launch (name : List UInt8) :
    Returns (launch obliging site name argv fdRead fdWrite priority isForeground) :=
  (returns_call site _).bind fun _ => (returns_askWaitPid _).bind fun _ => returns_pure _

theorem returns_runCommand (c : Command) :
    Returns (runCommand obliging site argv fdRead fdWrite isForeground c) := by
  have hshow : ∀ (c' : Call) (r : ℤ),
      Returns (do let _ ← call obliging site c'; return r) := fun c' r =>
    (returns_call site c').bind fun _ => returns_pure r
  have hfont : ∀ (diff : ℤ) (text : Call), Returns (do
      if (← (do return Sem.toInt (← call obliging site (.changeFontSize diff)) : Prog ℤ)) = 0 then
        let _ ← call obliging site text
      else
        let _ ← call obliging site .clear
      return (1 : ℤ)) := fun diff text => by
    refine ((returns_call site _).bind fun _ => returns_pure _).bind fun check => ?_
    split_ifs
    · exact hshow _ 1
    · exact hshow _ 1
  cases c with
  | tron =>
    refine (returns_call site _).bind fun _ => ?_
    refine (returns_shrinkFont (Nat.two_pow_pos 31)).bind fun count => ?_
    refine (returns_call site _).bind fun _ => ?_
    exact (returns_growFont count).bind fun _ => hshow _ 1
  | incFont => exact hfont 1 _
  | decFont => exact hfont (-1) _
  | kill | block | unblock => exact (returns_argument argv 0).bind fun _ => hshow _ 1
  | nice =>
    exact (returns_argument argv 0).bind fun _ => (returns_argument argv 1).bind fun _ => hshow _ 1
  | help | clear | date | time | datetime => exact hshow _ 1
  | divZero | invalidOp | exit => exact hshow _ 0
  | printmem =>
    exact (returns_call site _).bind fun _ => (returns_call site _).bind fun _ => returns_pure _
  | _ => exact returns_launch _

theorem returns_readBuffer :
    Returns (readBuffer obliging site input fdRead fdWrite isForeground) := by
  have hrun : ∀ buf argv fdRead isForeground,
      Returns (runBuffer obliging site buf argv fdRead fdWrite isForeground) := by
    intro buf argv fdRead isForeground
    unfold runBuffer
    split_ifs
    · exact returns_pure _
    cases Command.find buf with
    | none => exact (returns_call site _).bind fun _ => returns_pure _
    | some c => exact returns_runCommand c
  unfold readBuffer
  refine Returns.bind (fun calls => ?_) fun marked => ?_
  · obtain ⟨marked, hmarked, -⟩ :=
      inBackground_eq (w := obliging) (parseString input).tail calls
    exact ⟨marked, calls, hmarked⟩
  split_ifs
  · refine Returns.bind ((returns_call site _).bind fun _ => returns_pure _) fun fd => hrun _ _ _ _
  · exact hrun _ _ _ _

/-! ## When the line is served -/

theorem argsOf_eq (stray : Bool) (bytes : ℤ → UInt8)
    (hback : (readLine stray bytes input).background = true ↔ Marked input) :
    (if (readLine stray bytes input).background then (cutWords input).tail.dropLast
      else (cutWords input).tail) = argsOf input := by
  simp only [hback, argsOf]

/-- An argument is a word that was set for the line. -/
theorem readLine_argv (hinput : input.length ≤ MAX_TERMINAL_CHARS - 1) (hnul : 0 ∉ input)
    (stray : Bool) (bytes : ℤ → UInt8)
    (hback : (readLine stray bytes input).background = true ↔ Marked input) {i : ℕ}
    (hi : i < (argsOf input).length) :
    ∃ k, (readLine stray bytes input).argv i = .word k ∧
      IsSet (readLine stray bytes input).words k := by
  obtain ⟨hnum, hset, -, -⟩ := setArgv_spec (cutWords input).length
  have htail : i < (cutWords input).tail.length ∧
      (Marked input → i < (cutWords input).tail.length - 1) := by
    rw [argsOf] at hi
    split_ifs at hi with hmark
    · rw [List.length_dropLast] at hi
      exact ⟨by omega, fun _ => hi⟩
    · exact ⟨hi, fun h => absurd h hmark⟩
  rw [List.length_tail] at htail
  have hlt : i + 1 < (cutWords input).length := by omega
  have hword : (cutWords input)[i + 1]? = some (cutWords input)[i + 1] :=
    List.getElem?_eq_getElem hlt
  obtain ⟨hrow, hwritten⟩ := row_of_word hinput bytes hword
  refine ⟨i + 1, ?_, _, zero_notMem_word hnul (List.getElem_mem hlt), hrow, hwritten⟩
  have hptr := hset i (by omega)
  rw [readLine] at hback ⊢
  simp only [numWordsOf_eq hinput] at hback ⊢
  split_ifs with hmark
  · have hlast := htail.2 (hback.mp hmark)
    rw [Function.update_of_ne (by omega)]
    exact hptr
  · exact hptr

theorem Launched.serves (h : Launched c (argsOf input) (placeOf input isForeground) es)
    (hargs : c = .testProcesses → argsOf input = [bytes ['2']])
    (hmarked : Marked input → c ≠ .printmem)
    (hunmarked : ¬ Marked input → isForeground = 1) : Serves input es where
  args argv f hexec := by
    rw [((h.execs argv f).mp hexec).1, passed]
    split_ifs with htest
    · exact (hargs htest).symm
    · rfl
  background _ hmark := by
    have hplace : placeOf input isForeground ≠ 1 := by
      rw [placeOf, if_pos hmark]
      decide
    refine ⟨⟨_, _, (h.execs _ _).mpr ⟨rfl, rfl⟩, hplace⟩, fun hwaits => ?_⟩
    rcases h.waits.mp hwaits with hone | hprint
    · exact hplace hone
    · exact hmarked hmark hprint
  foreground _ hmark argv f hexec := by
    have hplace : placeOf input isForeground = 1 := by
      rw [placeOf, if_neg hmark]
      exact hunmarked hmark
    exact ⟨((h.execs argv f).mp hexec).2.trans hplace, h.waits.mpr (Or.inl hplace)⟩

theorem NoProcess.serves (h : NoProcess es) (hmark : commandOf input ≠ none → ¬ Marked input) :
    Serves input es where
  args argv f hexec := absurd hexec (h argv f)
  background hc hmarked := absurd hmarked (hmark hc)
  foreground _ _ argv f hexec := absurd hexec (h argv f)

/-- A process that is served gets its arguments and the place that it should have. -/
theorem Serves.of_launched (h : Serves input es) (hc : commandOf input = some c)
    (hl : Launched c (argsOf input) (placeOf input isForeground) es) :
    (c = .testProcesses → argsOf input = [bytes ['2']]) ∧ (Marked input → c ≠ .printmem) ∧
      (¬ Marked input → isForeground = 1) := by
  have hknown : commandOf input ≠ none := by simp [hc]
  have hexec := (hl.execs _ _).mpr ⟨rfl, rfl⟩
  refine ⟨fun htest => ?_, fun hmark hprint => ?_, fun hmark => ?_⟩
  · have hargs := h.args _ _ hexec
    rw [passed, if_pos htest] at hargs
    exact hargs.symm
  · exact (h.background hknown hmark).alone (hl.waits.mpr (Or.inr hprint))
  · have hplace := (h.foreground hknown hmark _ _ hexec).1
    rw [placeOf, if_neg hmark] at hplace
    exact hplace

section Line

variable (hinput : input.length ≤ MAX_TERMINAL_CHARS - 1) (hnul : 0 ∉ input)
include hinput hnul

/-- The command of a line that is served can be run as the line asks for. -/
theorem Faithful.regular (h : Faithful input isForeground) : Regular input isForeground := by
  have hrun := h obliging .line 0 1 [] fun _ => 0
  obtain ⟨-, -, -, hunset, -⟩ := readLine_spec (obliging.stray []) (fun _ => 0) hinput hnul
  have htwo : 2 ≤ (cutWords input).length := by
    by_contra hfew
    exact hrun.pointersRead (hunset.mpr (by omega))
  have hreturns : Returns (readBuffer obliging .line input 0 1 isForeground) := returns_readBuffer
  obtain ⟨r, calls', hread⟩ := hreturns []
  obtain ⟨es, hes, hserves⟩ := hrun.serves r calls' hread
  have hown : ∀ c ∈ commandOf input, ownArgs c ≤ (argsOf input).length := by
    intro c hc
    by_contra hfew
    -- the list ends in front of the last one that is looked at
    obtain ⟨k, hptr, -⟩ := hrun.ownRead c hc (argsOf input).length (by omega)
    exact Pointer.noConfusion (hptr.symm.trans hrun.passes.2)
  refine ⟨by rwa [cutWords, List.length_map] at htwo, fun c hc => ?_⟩
  have hcommand : commandOf input = some c := hc
  cases hprocess : isProcess c with
  | true =>
    obtain ⟨es', hes', hlaunched⟩ :=
      (ends_readBuffer_process hinput hnul htwo hcommand hprocess).of_ok hread
    obtain rfl : es = es' := List.append_cancel_left (hes.symm.trans hes')
    obtain ⟨hargs, hmarked, hunmarked⟩ := hserves.of_launched hcommand hlaunched
    exact ⟨hown c hc, hargs, fun hmark => ⟨rfl, hmarked hmark⟩, fun hmark _ => hunmarked hmark⟩
  | false =>
    have hall : ∀ d ∈ commandOf input, isProcess d = false := fun d hd => by
      obtain rfl := Option.some.inj (hcommand.symm.trans hd)
      exact hprocess
    obtain ⟨es', hes', hnone⟩ := (ends_readBuffer_builtin hinput hnul htwo hall).of_ok hread
    obtain rfl : es = es' := List.append_cancel_left (hes.symm.trans hes')
    refine ⟨hown c hc, ?_, fun hmark => ?_, fun _ h => absurd h (by simp)⟩
    · rintro rfl
      exact absurd hprocess (by decide)
    · obtain ⟨argv, f, hexec, -⟩ := (hserves.background (by simp [hcommand]) hmark).process
      exact absurd hexec (hnone argv f)

theorem Regular.faithful (h : Regular input isForeground) : Faithful input isForeground := by
  obtain ⟨htwo, hcommand⟩ := h
  replace htwo : 2 ≤ (cutWords input).length := by rwa [cutWords, List.length_map]
  intro w site fdRead fdWrite calls bytes
  have hback := background_iff hinput hnul htwo (w.stray calls) bytes
  obtain ⟨hbuf, -, hpasses, hunset, hread⟩ := readLine_spec (w.stray calls) bytes hinput hnul
  rw [argsOf_eq _ _ hback] at hpasses
  refine ⟨hpasses, fun r calls' hrun => ?_, fun hmem => ?_, hread, fun c hc i hi => ?_⟩
  · by_cases hprocess : ∃ c, commandOf input = some c ∧ isProcess c = true
    · obtain ⟨c, hc, hprocess⟩ := hprocess
      obtain ⟨-, hargs, hmarked, hunmarked⟩ := hcommand c hc
      obtain ⟨es, rfl, hlaunched⟩ :=
        (ends_readBuffer_process hinput hnul htwo hc hprocess).of_ok hrun
      exact ⟨es, rfl, hlaunched.serves hargs (fun hmark => (hmarked hmark).2)
        fun hmark => hunmarked hmark hprocess⟩
    · have hall : ∀ c ∈ commandOf input, isProcess c = false := fun c hc =>
        Bool.eq_false_iff.mpr fun htrue => hprocess ⟨c, hc, htrue⟩
      obtain ⟨es, rfl, hnone⟩ := (ends_readBuffer_builtin hinput hnul htwo hall).of_ok hrun
      refine ⟨es, rfl, hnone.serves fun hknown hmark => ?_⟩
      obtain ⟨c, hc⟩ := Option.ne_none_iff_exists'.mp hknown
      exact hprocess ⟨c, hc, ((hcommand c hc).2.2.1 hmark).1⟩
  · have hfew := hunset.mp hmem
    omega
  · exact readLine_argv hinput hnul _ _ hback (hi.trans_le (hcommand c hc).1)

end Line

/-- The shell is faithful to a line if and only if it is a regular one. -/
theorem readBuffer_faithful_iff (input : List UInt8) (isForeground : ℤ)
    (hinput : input.length ≤ MAX_TERMINAL_CHARS - 1) (hnul : 0 ∉ input) :
    Faithful input isForeground ↔ Regular input isForeground :=
  ⟨Faithful.regular hinput hnul, Regular.faithful hinput hnul⟩

/-- `loop 5 &`. -/
def loopLine : List UInt8 := bytes ['l', 'o', 'o', 'p', ' ', '5', ' ', '&']

theorem readBuffer_faithful_loop : Faithful loopLine 1 :=
  (readBuffer_faithful_iff loopLine 1 (by decide) (by decide)).mpr (by decide +kernel)

/-- `test-processes 5` has the right `argv`, but the process gets another one. -/
example : ¬ Regular (bytes ['t', 'e', 's', 't', '-', 'p', 'r', 'o', 'c', 'e', 's', 's', 'e', 's',
    ' ', '5']) 1 := by decide +kernel

/-- The empty line: `argv[-1]` is read. -/
theorem empty_line_unfaithful :
    ¬ ∀ input : List UInt8, input.length ≤ MAX_TERMINAL_CHARS - 1 → 0 ∉ input →
      Faithful input 1 := by
  intro hall
  have hregular := Faithful.regular (by decide) (by decide) (hall [] (by decide) (by decide))
  exact absurd hregular (by decide)

end TronKernel.Shell.CommandLine
