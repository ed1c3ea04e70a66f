import TronKernel.Pipe.Buffer
import TronKernel.Sem.Registry

/-!
# `Kernel/pipe.c`: opening and closing pipes

The array `pipes` and the table of semaphores, which `pipe_open` and `pipe_close` change with it.
`look_pipe` compares names without looking at `created`; it finds the right pipe since a slot that
is not created has the empty name, which no pipe is given (`Tidy`).

`pipe_open` does not return if the `sem_open` in it does not. The slot is set up by then, with the
name still missing.
-/

namespace TronKernel.Pipe

open Runs

abbrev MAX_PIPES : ℕ := 10

abbrev NAME_MAX : ℕ := 100

/-- A string that fits into `name`. -/
def FitsName (bytes : List UInt8) : Prop := 0 ∉ bytes ∧ bytes.length < NAME_MAX

theorem fitsName_nil : FitsName [] := ⟨List.not_mem_nil, Nat.zero_lt_succ _⟩

/-- The name of a pipe: 1 to `NAME_MAX - 1` characters. -/
structure PipeName where
  bytes : List UInt8
  fits : FitsName bytes
  ne_nil : bytes ≠ []

/-- A string in `name`, as the name of a semaphore. -/
def semName (bytes : List UInt8) (h : FitsName bytes) : Sem.Name where
  bytes := bytes
  no_nul := h.1
  length_lt := Nat.lt_trans h.2 (show NAME_MAX < Sem.NAME_CHAR_LIMIT by decide)

/-- The arrays `pipes` and `semaphores`. -/
structure Pipes where
  pipes : ℕ → PipeT
  semaphores : Sem.Table
  fits : ∀ i, FitsName (pipes i).name

/-- An assignment to `pipes[index]`. -/
def Pipes.set (s : Pipes) (index : ℕ) (p : PipeT) (h : FitsName p.name) : Pipes where
  pipes := Function.update s.pipes index p
  semaphores := s.semaphores
  fits i := by
    by_cases hi : i = index
    · rwa [hi, Function.update_self]
    · rw [Function.update_of_ne hi]
      exact s.fits i

/-- `my_strcmp`. The string `y` ends where the loop stops at the latest. -/
def myStrcmp : List UInt8 → List UInt8 → ℤ
  | [], y => -((y.headD 0).toNat : ℤ)
  | a :: x, y => if a = y.headD 0 then myStrcmp x y.tail else a.toNat - (y.headD 0).toNat

/-- `next_pipe`. -/
def nextPipe (pipes : ℕ → PipeT) : ℤ := Sem.searchFrom (fun i => (pipes i).created = 0) MAX_PIPES 0

/-- `look_pipe`. -/
def lookPipe (pipes : ℕ → PipeT) (name : List UInt8) : ℤ :=
  Sem.searchFrom (fun i => myStrcmp name (pipes i).name = 0) MAX_PIPES 0

/-- The assignments of `pipe_open` in front of `sem_open`. -/
def setUp (p : PipeT) (index : ℕ) : PipeT :=
  { p with
    fd := index + 3
    created := 1
    usingPipe := 0
    waitingPid := -1
    nread := 0
    nwrite := 0
    data := fun i => if i < PIPE_SIZE then 0 else p.data i }

/-- `pipe_open`: the result is missing if the call never returns. -/
def pipeOpen (s : Pipes) (name : PipeName) : Pipes × Option ℤ :=
  let i := lookPipe s.pipes name.bytes
  if i ≠ -1 then (s, some (s.pipes i.toNat).fd)
  else
    let firstFree := nextPipe s.pipes
    if firstFree = -1 then (s, some (-1))
    else
      let index := firstFree.toNat
      let s := s.set index (setUp (s.pipes index) index) (s.fits index)
      match Sem.semOpen s.semaphores (semName name.bytes name.fits) 1 with
      | none => (s, none)
      | some (t, _) =>
        ({ s with semaphores := t }.set index { s.pipes index with name := name.bytes } name.fits,
          some (s.pipes index).fd)

/-- The assignments of `pipe_close` behind `sem_close`. -/
def cleared (p : PipeT) : PipeT :=
  { p with
    rProcesses := fun i => if i < PROCS then 0 else p.rProcesses i
    wProcesses := fun i => if i < PROCS then 0 else p.wProcesses i
    name := []
    data := fun i => if i < PIPE_SIZE then 0 else p.data i
    nread := 0
    nwrite := 0
    created := 0 }

/-- `pipe_close`. -/
def pipeClose (s : Pipes) (index : ℕ) : Pipes :=
  let t := (Sem.semClose s.semaphores (semName (s.pipes index).name (s.fits index))).1
  { s with semaphores := t }.set index (cleared (s.pipes index)) fitsName_nil

/-- A call. `pipe_close` is given an index into the array. -/
inductive RegistryCall where
  | pipeOpen (name : PipeName)
  | pipeClose (index : Fin MAX_PIPES)

/-- A call that returns. -/
def Pipes.step (s : Pipes) : RegistryCall → Option Pipes
  | .pipeOpen name => (pipeOpen s name).2.map fun _ => (pipeOpen s name).1
  | .pipeClose index => some (pipeClose s index)

/-- The array before any call, with any semaphores. -/
def noPipes (t : Sem.Table) : Pipes where
  pipes _ :=
    { name := []
      created := 0
      data := fun _ => 0
      rProcesses := fun _ => 0
      wProcesses := fun _ => 0
      nread := 0
      nwrite := 0
      usingPipe := 0
      waitingPid := 0
      fd := 0 }
  semaphores := t
  fits _ := fitsName_nil

/-! ## Looking a name up -/

variable {s s' : Pipes} {name : PipeName} {i j : ℕ}

/-- Strings without NUL compare equal only if they are. -/
theorem myStrcmp_eq_zero_iff : ∀ {x y : List UInt8}, 0 ∉ x → 0 ∉ y → (myStrcmp x y = 0 ↔ x = y)
  | [], [], _, _ => by simp [myStrcmp]
  | [], b :: y, _, hy => by
    have hb : b.toNat ≠ 0 := fun h0 =>
      hy (by simp [UInt8.toNat_inj.mp (h0.trans UInt8.toNat_zero.symm)])
    simp only [myStrcmp, List.headD_cons, reduceCtorEq, iff_false]
    omega
  | a :: x, [], hx, _ => by
    have ha : a ≠ 0 := fun h0 => hx (by simp [h0])
    have hne : a.toNat ≠ 0 := fun h0 => ha (UInt8.toNat_inj.mp (h0.trans UInt8.toNat_zero.symm))
    simp only [myStrcmp, List.headD_nil, if_neg ha, UInt8.toNat_zero, reduceCtorEq, iff_false]
    omega
  | a :: x, b :: y, hx, hy => by
    by_cases hab : a = b
    · subst hab
      have ih := myStrcmp_eq_zero_iff (fun h => hx (List.mem_cons_of_mem a h))
        fun h => hy (List.mem_cons_of_mem a h)
      rw [myStrcmp, if_pos (show a = (a :: y).headD 0 from rfl), List.tail_cons, ih]
      simp
    · have hne : a.toNat ≠ b.toNat := fun h => hab (UInt8.toNat_inj.mp h)
      rw [myStrcmp, if_neg (show ¬ a = (b :: y).headD 0 from hab)]
      simp only [List.headD_cons, List.cons.injEq, hab, false_and, iff_false]
      omega

theorem lookPipe_cases (s : Pipes) (name : PipeName) :
    (lookPipe s.pipes name.bytes = -1 ∧ ∀ i < MAX_PIPES, (s.pipes i).name ≠ name.bytes) ∨
      ∃ i : ℕ, lookPipe s.pipes name.bytes = i ∧ i < MAX_PIPES ∧
        (s.pipes i).name = name.bytes := by
  have htest : ∀ i, decide (myStrcmp name.bytes (s.pipes i).name = 0) = true ↔
      (s.pipes i).name = name.bytes := fun i => by
    rw [decide_eq_true_eq, myStrcmp_eq_zero_iff name.fits.1 (s.fits i).1, eq_comm]
  rcases Sem.searchFrom_cases (fun i => myStrcmp name.bytes (s.pipes i).name = 0) MAX_PIPES 0 with
    ⟨hval, hnone⟩ | ⟨i, hval, -, hlt, hi, -⟩
  · refine Or.inl ⟨hval, fun i hi hname => ?_⟩
    have hfalse := hnone i (Nat.zero_le i) (by omega)
    rw [(htest i).mpr hname] at hfalse
    exact Bool.noConfusion hfalse
  · exact Or.inr ⟨i, hval, by omega, (htest i).mp hi⟩

theorem nextPipe_cases (s : Pipes) :
    (nextPipe s.pipes = -1 ∧ ∀ i < MAX_PIPES, (s.pipes i).created ≠ 0) ∨
      ∃ i : ℕ, nextPipe s.pipes = i ∧ i < MAX_PIPES ∧ (s.pipes i).created = 0 ∧
        ∀ j < i, (s.pipes j).created ≠ 0 := by
  rcases Sem.searchFrom_cases (fun i => (s.pipes i).created = 0) MAX_PIPES 0 with
    ⟨hval, hnone⟩ | ⟨i, hval, -, hlt, hi, hbefore⟩
  · exact Or.inl ⟨hval, fun i hi => by simpa using hnone i (Nat.zero_le i) (by omega)⟩
  · exact Or.inr ⟨i, hval, by omega, by simpa using hi,
      fun j hj => by simpa using hbefore j (Nat.zero_le j) hj⟩

/-! ## What a sequence of calls keeps -/

/-- A slot is created exactly if it has a name, no two have the same one, and each has its own
descriptor. -/
structure Tidy (s : Pipes) : Prop where
  created_iff : ∀ i < MAX_PIPES, (s.pipes i).created ≠ 0 ↔ (s.pipes i).name ≠ []
  name_inj : ∀ i < MAX_PIPES, ∀ j < MAX_PIPES, (s.pipes i).name ≠ [] →
    (s.pipes i).name = (s.pipes j).name → i = j
  fd_eq : ∀ i < MAX_PIPES, (s.pipes i).created ≠ 0 → (s.pipes i).fd = i + 3

theorem tidy_noPipes (t : Sem.Table) : Tidy (noPipes t) where
  created_iff i _ := by simp [noPipes]
  name_inj i _ j _ hi := by simp [noPipes] at hi
  fd_eq i _ hi := by simp [noPipes] at hi

/-- Only the array of pipes counts. -/
theorem Tidy.congr (h : Tidy s) (heq : s'.pipes = s.pipes) : Tidy s' where
  created_iff := by rw [heq]; exact h.created_iff
  name_inj := by rw [heq]; exact h.name_inj
  fd_eq := by rw [heq]; exact h.fd_eq

/-- A slot is filled with a pipe that has a new name, or it is cleared. -/
theorem Tidy.set (h : Tidy s) {p : PipeT} (hp : FitsName p.name)
    (hcreated : p.created ≠ 0 ↔ p.name ≠ []) (hfd : p.created ≠ 0 → p.fd = i + 3)
    (hnew : p.name ≠ [] → ∀ j < MAX_PIPES, (s.pipes j).name ≠ p.name) : Tidy (s.set i p hp) where
  created_iff j hj := by
    by_cases hji : j = i
    · simpa [Pipes.set, hji] using hcreated
    · simpa [Pipes.set, hji] using h.created_iff j hj
  name_inj j hj k hk hne heq := by
    simp only [Pipes.set, ne_eq] at hne heq
    by_cases hji : j = i
    · by_cases hki : k = i
      · rw [hji, hki]
      · rw [hji, Function.update_self] at hne
        rw [hji, Function.update_self, Function.update_of_ne hki] at heq
        exact absurd heq.symm (hnew hne k hk)
    · rw [Function.update_of_ne hji] at hne heq
      by_cases hki : k = i
      · rw [hki, Function.update_self] at heq
        exact absurd heq (hnew (heq ▸ hne) j hj)
      · rw [Function.update_of_ne hki] at heq
        exact h.name_inj j hj k hk hne heq
  fd_eq j hj hne := by
    by_cases hji : j = i
    · subst hji
      simp only [Pipes.set, Function.update_self] at hne ⊢
      exact hfd hne
    · simp only [Pipes.set, Function.update_of_ne hji] at hne ⊢
      exact h.fd_eq j hj hne

/-- The pipe of a new name in slot `i`: the first call of `pipe_open` has just set it up. -/
structure Made (s : Pipes) (name : PipeName) (i : ℕ) (r : Pipes × Option ℤ) : Prop where
  created : (r.1.pipes i).created = 1
  fd_eq : (r.1.pipes i).fd = i + 3
  nread : (r.1.pipes i).nread = 0
  nwrite : (r.1.pipes i).nwrite = 0
  data : ∀ k < PIPE_SIZE, (r.1.pipes i).data k = 0
  others : ∀ j, j ≠ i → r.1.pipes j = s.pipes j
  returns : ∀ v, r.2 = some v → v = i + 3 ∧ (r.1.pipes i).name = name.bytes

/-- `pipe_open` finds the name, finds no slot, or makes a pipe in the first free slot. -/
theorem pipeOpen_cases (s : Pipes) (name : PipeName) :
    (∃ i < MAX_PIPES, (s.pipes i).name = name.bytes ∧
        pipeOpen s name = (s, some (s.pipes i).fd)) ∨
      (∀ i < MAX_PIPES, (s.pipes i).name ≠ name.bytes) ∧
        ((∀ i < MAX_PIPES, (s.pipes i).created ≠ 0) ∧ pipeOpen s name = (s, some (-1)) ∨
        ∃ i < MAX_PIPES, (s.pipes i).created = 0 ∧ (∀ j < i, (s.pipes j).created ≠ 0) ∧
          Made s name i (pipeOpen s name) ∧ (s.step (.pipeOpen name)).map Pipes.semaphores =
            Sem.stepTable s.semaphores (.semOpen (semName name.bytes name.fits) 1)) := by
  rcases lookPipe_cases s name with ⟨hlook, hnone⟩ | ⟨i, hlook, hlt, hname⟩
  · refine Or.inr ⟨hnone, ?_⟩
    rcases nextPipe_cases s with ⟨hnext, hfull⟩ | ⟨i, hnext, hlt, hfree, hbefore⟩
    · exact Or.inl ⟨hfull, by simp [pipeOpen, hlook, hnext]⟩
    · have hne : (i : ℤ) ≠ -1 := by omega
      refine Or.inr ⟨i, hlt, hfree, hbefore, ?_⟩
      cases hsem : Sem.semOpen s.semaphores (semName name.bytes name.fits) 1 with
      | none =>
        have hval : pipeOpen s name = (s.set i (setUp (s.pipes i) i) (s.fits i), none) := by
          simp only [pipeOpen, hlook, hnext, ne_eq, not_true_eq_false, if_false, if_neg hne,
            Int.toNat_natCast]
          rw [show (s.set i (setUp (s.pipes i) i) (s.fits i)).semaphores = s.semaphores from rfl,
            hsem]
        rw [Sem.stepTable, Pipes.step, hsem, hval]
        refine ⟨⟨?_, ?_, ?_, ?_, fun k hk => ?_, fun j hj => Function.update_of_ne hj .., by simp⟩,
          rfl⟩
        all_goals simp only [Pipes.set, Function.update_self, setUp]
        rw [if_pos hk]
      | some r =>
        obtain ⟨t, v⟩ := r
        have hval : pipeOpen s name =
            (({ s.set i (setUp (s.pipes i) i) (s.fits i) with semaphores := t } : Pipes).set i
              { setUp (s.pipes i) i with name := name.bytes } name.fits, some ((i : ℤ) + 3)) := by
          simp only [pipeOpen, hlook, hnext, ne_eq, not_true_eq_false, if_false, if_neg hne,
            Int.toNat_natCast]
          rw [show (s.set i (setUp (s.pipes i) i) (s.fits i)).semaphores = s.semaphores from rfl,
            hsem]
          simp only [Pipes.set, Function.update_self]
          rfl
        rw [Sem.stepTable, Pipes.step, hsem, hval]
        refine ⟨⟨?_, ?_, ?_, ?_, fun k hk => ?_, fun j hj => ?_, fun v hv => ?_⟩, rfl⟩
        all_goals simp only [Pipes.set, Function.update_self, setUp]
        · rw [if_pos hk]
        · rw [Function.update_of_ne hj, Function.update_of_ne hj]
        · exact ⟨(Option.some.inj hv).symm, trivial⟩
  · have hne : (i : ℤ) ≠ -1 := by omega
    exact Or.inl ⟨i, hlt, hname, by simp [pipeOpen, hlook, hne]⟩

theorem Tidy.made (h : Tidy s) {r : Pipes × Option ℤ} {v : ℤ} (hm : Made s name i r)
    (hv : r.2 = some v) (hnew : ∀ j < MAX_PIPES, (s.pipes j).name ≠ name.bytes) : Tidy r.1 := by
  have hname := (hm.returns v hv).2
  have hset : Tidy (s.set i (r.1.pipes i) (r.1.fits i)) := by
    refine h.set (r.1.fits i) ?_ (fun _ => hm.fd_eq) fun _ => hname ▸ hnew
    simp [hm.created, hname, name.ne_nil]
  refine hset.congr (funext fun j => ?_)
  by_cases hji : j = i
  · simp [Pipes.set, hji]
  · simp [Pipes.set, hji, hm.others j hji]

theorem Tidy.pipeClose (h : Tidy s) (i : ℕ) : Tidy (pipeClose s i) := by
  have hclosed : Tidy { s with semaphores := (Sem.semClose s.semaphores
      (semName (s.pipes i).name (s.fits i))).1 } := h.congr rfl
  apply hclosed.set fitsName_nil
  all_goals simp [cleared]

theorem Tidy.step (h : Tidy s) {c : RegistryCall} (hstep : s.step c = some s') : Tidy s' := by
  cases c with
  | pipeClose index =>
    obtain rfl := Option.some.inj hstep
    exact h.pipeClose index
  | pipeOpen name =>
    obtain ⟨v, hv, rfl⟩ := Option.map_eq_some_iff.mp hstep
    rcases pipeOpen_cases s name with ⟨i, -, -, hval⟩ | ⟨hnew, ⟨-, hval⟩ | ⟨i, -, -, -, hm, -⟩⟩
    · rw [hval]; exact h
    · rw [hval]; exact h
    · exact h.made hm hv hnew

/-- What a caller may expect of the array. -/
structure Registry (s : Pipes) : Prop where
  name_inj : ∀ i < MAX_PIPES, ∀ j < MAX_PIPES, (s.pipes i).created ≠ 0 →
    (s.pipes j).created ≠ 0 → (s.pipes i).name = (s.pipes j).name → i = j
  fd_eq : ∀ i < MAX_PIPES, (s.pipes i).created ≠ 0 → (s.pipes i).fd = i + 3
  reopen : ∀ name : PipeName, ∀ i < MAX_PIPES, (s.pipes i).created ≠ 0 →
    (s.pipes i).name = name.bytes → pipeOpen s name = (s, some ((i : ℤ) + 3))
  full_iff : ∀ name : PipeName,
    (∀ i < MAX_PIPES, (s.pipes i).created ≠ 0 → (s.pipes i).name ≠ name.bytes) →
    ((pipeOpen s name).2 = some (-1) ↔ ∀ i < MAX_PIPES, (s.pipes i).created ≠ 0) ∧
      ((pipeOpen s name).2 = some (-1) → (pipeOpen s name).1 = s)
  create : ∀ name : PipeName,
    (∀ i < MAX_PIPES, (s.pipes i).created ≠ 0 → (s.pipes i).name ≠ name.bytes) →
    ∀ i < MAX_PIPES, (s.pipes i).created = 0 → (∀ j < i, (s.pipes j).created ≠ 0) →
      Made s name i (pipeOpen s name)
  close : ∀ i < MAX_PIPES, ((pipeClose s i).pipes i).created = 0 ∧
    ∀ j, j ≠ i → (pipeClose s i).pipes j = s.pipes j

theorem Tidy.registry (h : Tidy s) : Registry s where
  name_inj i hi j hj hci _ := h.name_inj i hi j hj ((h.created_iff i hi).mp hci)
  fd_eq := h.fd_eq
  reopen name i hi hc hname := by
    rcases pipeOpen_cases s name with ⟨j, hj, hnamej, hval⟩ | ⟨hnew, -⟩
    · obtain rfl := h.name_inj i hi j hj (hname ▸ name.ne_nil) (hname.trans hnamej.symm)
      rw [hval, h.fd_eq i hi hc]
    · exact absurd hname (hnew i hi)
  full_iff name hnew := by
    rcases pipeOpen_cases s name with
      ⟨j, hj, hname, -⟩ | ⟨-, ⟨hfull, hval⟩ | ⟨i, hi, hfree, -, hm, -⟩⟩
    · exact absurd hname (hnew j hj ((h.created_iff j hj).mpr (hname ▸ name.ne_nil)))
    · rw [hval]
      exact ⟨⟨fun _ => hfull, fun _ => rfl⟩, fun _ => rfl⟩
    · have hne : (pipeOpen s name).2 ≠ some (-1) := fun heq => by
        have := (hm.returns _ heq).1
        omega
      exact ⟨⟨fun heq => absurd heq hne, fun hfull => absurd hfree (hfull i hi)⟩,
        fun heq => absurd heq hne⟩
  create name hnew i hi hfree hbefore := by
    rcases pipeOpen_cases s name with
      ⟨j, hj, hname, -⟩ | ⟨-, ⟨hfull, -⟩ | ⟨j, hj, hfreej, hbeforej, hm, -⟩⟩
    · exact absurd hname (hnew j hj ((h.created_iff j hj).mpr (hname ▸ name.ne_nil)))
    · exact absurd hfree (hfull i hi)
    · obtain rfl : i = j := by
        rcases Nat.lt_trichotomy i j with hlt | heq | hlt
        · exact absurd hfree (hbeforej i hlt)
        · exact heq
        · exact absurd hfreej (hbefore j hlt)
      exact hm
  close i _ := ⟨by simp [Pipe.pipeClose, Pipes.set, cleared],
    fun j hj => Function.update_of_ne hj ..⟩

/-! ## Runs -/

/-- A call on the pipes makes at most one call on the semaphores. -/
theorem step_semaphores {c : RegistryCall} (hstep : s.step c = some s') :
    ∃ cs : List Sem.Call, cs.length ≤ 1 ∧
      run Sem.stepTable s.semaphores cs = some s'.semaphores := by
  cases c with
  | pipeClose index =>
    obtain rfl := Option.some.inj hstep
    exact ⟨[.semClose (semName (s.pipes index).name (s.fits index))], le_rfl, rfl⟩
  | pipeOpen name =>
    rcases pipeOpen_cases s name with ⟨i, -, -, hval⟩ | ⟨-, ⟨-, hval⟩ | ⟨i, -, -, -, -, hsem⟩⟩
    · rw [Pipes.step, hval] at hstep
      exact ⟨[], Nat.zero_le 1, congrArg (Option.map Pipes.semaphores) hstep⟩
    · rw [Pipes.step, hval] at hstep
      exact ⟨[], Nat.zero_le 1, congrArg (Option.map Pipes.semaphores) hstep⟩
    · refine ⟨[.semOpen (semName name.bytes name.fits) 1], le_rfl, ?_⟩
      rw [run_cons, ← hsem, hstep]
      rfl

theorem run_semaphores {calls : List RegistryCall} (hrun : run Pipes.step s calls = some s') :
    ∃ cs : List Sem.Call, cs.length ≤ calls.length ∧
      run Sem.stepTable s.semaphores cs = some s'.semaphores := by
  induction calls generalizing s with
  | nil =>
    obtain rfl := Option.some.inj hrun
    exact ⟨[], le_rfl, rfl⟩
  | cons c calls ih =>
    rw [run_cons, Option.bind_eq_some_iff] at hrun
    obtain ⟨s₁, hstep, hrun⟩ := hrun
    obtain ⟨cs₁, hlen₁, hrun₁⟩ := step_semaphores hstep
    obtain ⟨cs₂, hlen₂, hrun₂⟩ := ih hrun
    refine ⟨cs₁ ++ cs₂, ?_, by rw [run_append, hrun₁]; exact hrun₂⟩
    rw [List.length_append, List.length_cons]
    omega

/-- After any sequence of calls on the array without pipes it is a registry, whatever semaphores
have been opened and closed before. A call of `pipe_open` behind fewer than `2 ^ 31 - 1` others
returns. -/
theorem pipe_registry (before : List Sem.Call) (t : Sem.Table) (calls : List RegistryCall)
    (s : Pipes) (hbefore : run Sem.stepTable Sem.zeroTable before = some t)
    (hrun : run Pipes.step (noPipes t) calls = some s) :
    Registry s ∧ (before.length + calls.length < 2 ^ 31 - 1 →
      ∀ name, (pipeOpen s name).2.isSome = true) := by
  have htidy : Tidy s := run_preserves (P := fun _ _ => True) (tidy_noPipes t)
    (throughout_of_forall fun _ _ => trivial) (fun s c s' hs _ hstep => hs.step hstep) hrun
  refine ⟨htidy.registry, fun hlen name => ?_⟩
  obtain ⟨cs, hlencs, hruncs⟩ := run_semaphores hrun
  have hall : run Sem.stepTable Sem.zeroTable (before ++ cs) = some s.semaphores := by
    rw [run_append, hbefore]
    exact hruncs
  have hd : Sem.Distinct s.semaphores := run_preserves (P := fun _ _ => True) Sem.distinct_zeroTable
    (throughout_of_forall fun _ _ => trivial) (fun t c t' ht _ hstep => ht.step hstep) hall
  have hzero : Sem.CountsLe 0 Sem.zeroTable := fun i _ huse => by
    simp [Sem.zeroTable, Sem.isInUse] at huse
  have hlenall : (before ++ cs).length < 2 ^ 31 - 1 := by
    rw [List.length_append]
    omega
  have hle := hzero.run Sem.distinct_zeroTable (by omega) hall
  rcases pipeOpen_cases s name with ⟨i, -, -, hval⟩ | ⟨-, ⟨-, hval⟩ | ⟨i, -, -, -, -, hsem⟩⟩
  · rw [hval]; rfl
  · rw [hval]; rfl
  · obtain ⟨t', r, hopen, -⟩ := hle.semOpen hd (by omega) (semName name.bytes name.fits) 1
    rw [Sem.stepTable, hopen, Pipes.step] at hsem
    cases hr : (pipeOpen s name).2 with
    | none => simp [hr] at hsem
    | some v => rfl

/-- The calls for two pipes, of which the first is closed and its slot taken by a third one. -/
def twoThenThird : List RegistryCall :=
  [.pipeOpen ⟨[65], ⟨by decide, by decide⟩, by decide⟩,
    .pipeOpen ⟨[66], ⟨by decide, by decide⟩, by decide⟩, .pipeClose 0,
    .pipeOpen ⟨[67], ⟨by decide, by decide⟩, by decide⟩]

theorem pipe_registry_third :
    ∃ s, run Pipes.step (noPipes Sem.zeroTable) twoThenThird = some s ∧ Registry s := by
  have hsome : (run Pipes.step (noPipes Sem.zeroTable) twoThenThird).isSome = true := by
    decide +kernel
  obtain ⟨s, hrun⟩ := Option.isSome_iff_exists.mp hsome
  exact ⟨s, hrun, (pipe_registry [] Sem.zeroTable twoThenThird s rfl hrun).1⟩

end TronKernel.Pipe
