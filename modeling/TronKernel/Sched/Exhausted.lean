import TronKernel.Sched.Neutral

/-!
# `add_process` without memory

`add_process` does not look at what `newProcess` and `add_node` return. It counts a process whether
or not there is one (`ends_addProcess_counted`), and in the end it follows the pointer to the
process, be it NULL (`addProcess_without_process`). So no call in which an allocation fails is like
one that was never made (`failed_exec_traced`).
-/

namespace TronKernel.Sched

open Programs Sem

variable {H : Type} {s s' s₁ s₂ : Kernel H} {α β : Type}

/-- The count of processes is the same, and NULL is no process if it was none. -/
structure Uncounted (s s' : Kernel H) : Prop where
  counter : s'.counter = s.counter
  null : s.process? 0 = none → s'.process? 0 = none

theorem Uncounted.refl (s : Kernel H) : Uncounted s s := ⟨rfl, id⟩

theorem Uncounted.trans (h : Uncounted s s₁) (h' : Uncounted s₁ s₂) : Uncounted s s₂ :=
  ⟨h'.counter.trans h.counter, fun h0 => h'.null (h.null h0)⟩

/-- A block is filled, and not with a process at NULL. -/
theorem Uncounted.put {a : ℕ} {o : Object} (h : a = 0 → ∀ p, o ≠ .process p) :
    Uncounted s (s.put a o) := by
  refine ⟨rfl, fun hnone => ?_⟩
  by_cases h0 : a = 0
  · rw [Option.eq_none_iff_forall_ne_some]
    intro p hp
    rw [process?_eq_some, put_mem, if_pos h0.symm] at hp
    exact h h0 p (Option.some.inj hp)
  · rw [← hnone]
    simp only [Kernel.process?, put_mem, if_neg (Ne.symm h0)]

/-- An object takes the place of a process. -/
theorem Uncounted.put_process {a : ℕ} {p : Process} (hp : s.process? a = some p) (o : Object) :
    Uncounted s (s.put a o) := by
  by_cases h0 : a = 0
  · exact ⟨rfl, fun hnone => absurd (hp.symm.trans (h0 ▸ hnone)) (by simp)⟩
  · exact .put fun heq => absurd heq h0

theorem stable_uncounted : Stable (H := H) Uncounted fun _ _ => True where
  refl := .refl
  trans := .trans
  state _ hp := .put_process hp _
  counters _ _ _ _ := ⟨rfl, id⟩
  pipe _ _ _ _ := ⟨rfl, id⟩
  lists _ _ _ := trivial

/-! ## What leaves the count alone -/

section Keeps

variable [Allocator H]

theorem keeps_malloc (n : ℕ) : Keeps Uncounted (malloc n : Op H ℕ) := fun _ => ⟨rfl, id⟩

theorem keeps_free (a : ℕ) : Keeps Uncounted (free a : Op H Unit) := by
  refine fun s => ⟨rfl, fun hnone => ?_⟩
  by_cases h0 : 0 = a
  · simp [Kernel.process?, h0]
  · rw [← hnone]
    simp only [Kernel.process?, Function.update_of_ne h0]

theorem keeps_freeAll (as : List ℕ) : Keeps Uncounted (freeAll as : Op H Unit) := by
  induction as with
  | nil => exact stable_uncounted.pure _
  | cons a as ih => exact stable_uncounted.bind (keeps_free a) fun _ => ih

omit [Allocator H] in
theorem keeps_put {a : ℕ} {o : Object} (h : a = 0 → ∀ p, o ≠ .process p) :
    Keeps Uncounted (put a o : Op H Unit) :=
  keeps_modify fun _ => .put h

theorem keeps_copyArgs (ret : ℕ) (args : List (List UInt8)) (copies : List ℕ) :
    Keeps Uncounted (copyArgs ret copies args : Op H ℕ) := by
  induction args generalizing copies with
  | nil =>
    exact stable_uncounted.bind (keeps_put fun _ _ => by simp) fun _ => stable_uncounted.pure _
  | cons arg args ih =>
    refine stable_uncounted.bind (keeps_malloc _) fun copy => ?_
    split_ifs
    · refine stable_uncounted.bind (keeps_freeAll copies) fun _ => ?_
      exact stable_uncounted.bind (keeps_free ret) fun _ => stable_uncounted.pure _
    · exact stable_uncounted.bind (keeps_put fun _ _ => by simp) fun _ => ih _

theorem keeps_saveArgv (argc : ℤ) (argv : List (List UInt8)) :
    Keeps Uncounted (saveArgv argc argv : Op H ℕ) := by
  refine stable_uncounted.bind (keeps_malloc _) fun ret => ?_
  split_ifs
  · exact stable_uncounted.pure _
  · exact keeps_throw _
  · exact keeps_copyArgs ret _ []

theorem keeps_newProcess (name readFd writeFd priority : ℕ) (argv : List (List UInt8)) :
    Keeps Uncounted (newProcess interrupt name argv readFd writeFd priority : Op H ℕ) := by
  refine stable_uncounted.bind (keeps_malloc _) fun proc => ?_
  split_ifs with h0
  · exact stable_uncounted.pure _
  refine stable_uncounted.bind (keeps_saveArgv _ argv) fun saved => ?_
  refine stable_uncounted.bind (keeps_malloc _) fun stack => ?_
  split_ifs
  · exact stable_uncounted.bind (keeps_free proc) fun _ => stable_uncounted.pure _
  refine stable_uncounted.bind (keeps_put fun _ _ => by simp) fun _ => ?_
  refine stable_uncounted.bind (stable_uncounted.semWait (keeps_throw _) _) fun _ => ?_
  refine keeps_get_bind fun s => ?_
  refine stable_uncounted.bind (keeps_modify fun _ => ⟨rfl, id⟩) fun _ => ?_
  refine stable_uncounted.bind (stable_uncounted.semPost _) fun _ => ?_
  refine stable_uncounted.bind stable_uncounted.getRunningPid fun _ => ?_
  refine stable_uncounted.bind (keeps_put fun heq => absurd heq h0) fun _ => ?_
  exact stable_uncounted.pure _

end Keeps

/-! ## What follows `newProcess` -/

variable [Allocator H]

theorem addProcess_eq (force : Op H Unit) (name readFd writeFd priority isForeground : ℕ)
    (argv : List (List UInt8)) :
    addProcess force name argv readFd writeFd priority isForeground = (do
      schedulerDisable
      let proc ← newProcess force name argv readFd writeFd (min priority 5)
      registerProcess force proc isForeground) := rfl

theorem keeps_addNode (proc : ℕ) : Keeps Uncounted (addNode proc : Op H ℕ) := by
  refine stable_uncounted.bind (keeps_malloc _) fun newNode => ?_
  split_ifs
  · exact stable_uncounted.pure _
  refine keeps_get_bind fun s => ?_
  refine stable_uncounted.bind (stable_uncounted.procAt _) fun p => ?_
  refine stable_uncounted.bind (stable_uncounted.nodeAt _) fun n => ?_
  refine stable_uncounted.bind (keeps_put fun _ _ => by simp) fun _ => ?_
  refine stable_uncounted.bind (fun s => ?_) fun _ => stable_uncounted.pure _
  exact ends_editNode lenient_true fun n _ => .put fun _ _ => by simp

/-- Where `add_process` returns, the count has gone up, and the pointer that it has followed is no
NULL. -/
theorem ends_registerProcess (proc isForeground : ℕ) (s : Kernel H) :
    Ends (fun _ s' => s'.counter = incr64 s.counter ∧ (s.process? 0 = none → proc ≠ 0))
      (fun _ _ => True) (registerProcess interrupt proc isForeground) s := by
  rw [registerProcess, ends_bind]
  refine (stable_uncounted.semWait (keeps_throw _) _ s).mono (fun _ s₁ h₁ => ?_) fun _ _ h => h
  rw [ends_bind]
  refine (stable_uncounted.currentProc s₁).mono (fun a s₂ h₂ => ?_) fun _ _ h => h
  rw [ends_bind]
  refine ends_editProc lenient_true fun p hp => ?_
  have h₃ : Uncounted s _ := (h₁.trans h₂).trans
    (.put_process hp (.process { p with children := incr64 p.children }))
  rw [ends_bind]
  refine (stable_uncounted.semPost _ _).mono (fun _ s₄ h₄ => ?_) fun _ _ h => h
  rw [ends_bind]
  refine (keeps_addNode proc s₄).mono (fun newNode s₅ h₅ => ?_) fun _ _ h => h
  have h := (h₃.trans h₄).trans h₅
  refine ends_announce lenient_true fun p hp => ⟨?_, fun hnone heq => ?_⟩
  · rw [← h.counter]
    unfold Globals.promote
    split_ifs <;> rfl
  · exact absurd ((heq ▸ hp).symm.trans (h.null hnone)) (by simp)

/-! ## `add_process` -/

/-- Where `add_process` returns, it has counted a process. -/
theorem ends_addProcess_counted (name readFd writeFd priority isForeground : ℕ)
    (argv : List (List UInt8)) (s : Kernel H) :
    Ends (fun _ s' => s'.counter = incr64 s.counter) (fun _ _ => True)
      (addProcess interrupt name argv readFd writeFd priority isForeground) s := by
  rw [addProcess_eq, ends_bind]
  refine (stable_uncounted.schedulerDisable s).mono (fun _ s₁ h₁ => ?_) fun _ _ h => h
  rw [ends_bind]
  refine (keeps_newProcess _ _ _ _ _ s₁).mono (fun proc s₂ h₂ => ?_) fun _ _ h => h
  refine (ends_registerProcess proc isForeground s₂).mono (fun _ s₃ h₃ => ?_) fun _ _ h => h
  rw [h₃.1, h₂.counter, h₁.counter]

/-- Without memory for the process, `add_process` follows NULL. -/
theorem addProcess_without_process (name readFd writeFd priority isForeground : ℕ)
    (argv : List (List UInt8)) (hmalloc : (Allocator.malloc s.heap sizeofProcess).2 = 0)
    (hnull : s.process? 0 = none) {r : ℕ} :
    addProcess interrupt name argv readFd writeFd priority isForeground s ≠ .ok r s' := by
  intro hrun
  have hends : Ends (fun _ _ => False) (fun _ _ => True)
      (addProcess interrupt name argv readFd writeFd priority isForeground) s := by
    rw [addProcess_eq, ends_bind]
    refine ends_schedulerDisable lenient_true fun d _ => ?_
    have hnew : newProcess interrupt name argv readFd writeFd (min priority 5)
        { s with disableCount := d } = .ok 0 ({ s with disableCount := d }.afterMalloc
          sizeofProcess) := by
      rw [newProcess, bind_of_ok (malloc_ok _), if_pos hmalloc]
      rfl
    rw [ends_bind]
    refine ends_of_ok hnew ?_
    exact (ends_registerProcess 0 isForeground _).mono (fun _ _ h => h.2 hnull rfl) fun _ _ h => h
  exact hends.of_ok hrun

/-- The call has not been made: the same blocks are in use and hold the same, and the same globals
are there. -/
structure NoTrace (s s' : Kernel H) : Prop where
  live : ∀ a, Allocator.Live s'.heap a ↔ Allocator.Live s.heap a
  mem : ∀ a, Allocator.Live s.heap a → s'.mem a = s.mem a
  first : s'.first = s.first
  currentNode : s'.currentNode = s.currentNode
  counter : s'.counter = s.counter
  foreground : s'.foreground = s.foreground
  background : s'.background = s.background
  disableCount : s'.disableCount = s.disableCount

/-- The call reports its failure, and leaves no trace. -/
def FailsCleanly (s : Kernel H) (m : Op H ℕ) : Prop := ∃ s', m s = .ok failed s' ∧ NoTrace s s'

theorem incr64_ne (n : ℕ) : incr64 n ≠ n := by
  unfold incr64
  omega

theorem not_failsCleanly (s : Kernel H) (name readFd writeFd priority isForeground : ℕ)
    (argv : List (List UInt8)) :
    ¬ FailsCleanly s (addProcess interrupt name argv readFd writeFd priority isForeground) := by
  rintro ⟨s', hrun, htrace⟩
  have hcounted :=
    (ends_addProcess_counted name readFd writeFd priority isForeground argv s).of_ok hrun
  exact incr64_ne s.counter (hcounted.symm.trans htrace.counter)

/-- Whichever allocation fails, the call does not fail as it should. If it is the first one, the
call does not even return. -/
theorem failed_exec_traced (s : Kernel H) (name readFd writeFd priority isForeground : ℕ)
    (argv : List (List UInt8)) (_hfails : ¬ AllSucceed s.heap (requests argv ++ [sizeofNode])) :
    ¬ FailsCleanly s (addProcess interrupt name argv readFd writeFd priority isForeground) ∧
      ((Allocator.malloc s.heap sizeofProcess).2 = 0 → s.process? 0 = none → ∀ r s',
        addProcess interrupt name argv readFd writeFd priority isForeground s ≠ .ok r s') :=
  ⟨not_failsCleanly s name readFd writeFd priority isForeground argv, fun hmalloc hnull _ _ =>
    addProcess_without_process name readFd writeFd priority isForeground argv hmalloc hnull⟩

/-! ## No memory for the node -/

/-- Two processes, and memory for a third without a node for it. -/
def fullKernel : Kernel FirstFitHeap :=
  { Lives.pairKernel 2 with heap := (Allocator.malloc Lives.pairHeap 53008).1 }

theorem fullKernel_fails : ¬ AllSucceed fullKernel.heap (requests [] ++ [sizeofNode]) := by
  decide +kernel

/-- The process gets the pid 2 and is counted, and the current node is followed by the same one. -/
example : (match addProcess interrupt 0 [] 0 1 2 0 fullKernel with
    | .ok pid s => some (pid, s.counter, s.next s.currentNode)
    | .error _ _ => none) = some (2, 3, 8248) := by
  decide +kernel

theorem failed_exec_traced_full :
    ¬ FailsCleanly fullKernel (addProcess interrupt 0 [] 0 1 2 0) :=
  (failed_exec_traced fullKernel 0 0 1 2 0 [] fullKernel_fails).1

/-- Without memory for its node, a process that is in no ring is reported and counted. -/
theorem exec_without_node :
    ¬ ∀ (s : Kernel FirstFitHeap) (name readFd writeFd priority isForeground : ℕ)
        (argv : List (List UInt8)), ¬ AllSucceed s.heap (requests argv ++ [sizeofNode]) →
      FailsCleanly s (addProcess interrupt name argv readFd writeFd priority isForeground) :=
  fun h => not_failsCleanly fullKernel 0 0 1 2 0 [] (h fullKernel 0 0 1 2 0 [] fullKernel_fails)

end TronKernel.Sched
