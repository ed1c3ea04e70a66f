import TronKernel.Sched.Blocks
import TronKernel.Sched.Mutex

/-!
# Making a process

`newProcess` and `add_process` write to blocks that were not in use before, and of the others to the
current process's counter of children and to the current node's link.
-/

namespace TronKernel.Sched

open Programs Sem

variable {H : Type} {s s' s₀ : Kernel H} {a : ℕ} {own extra : List ℕ}
  {E : Stop → Kernel H → Prop}

/-! ## The arguments -/

/-- The copy of an argument list: NULL, or a list with its strings. `own` are its blocks. -/
structure HoldsArgs (s : Kernel H) (argv : ℕ) (args own : List ℕ) : Prop where
  blocks : own = if argv = 0 then [] else argv :: args
  argv_at : argv ≠ 0 → s.argv? argv = some args
  text_at : argv ≠ 0 → ∀ a ∈ args, ∃ b, s.mem a = some (.text b)

theorem HoldsArgs.null (s : Kernel H) : HoldsArgs s 0 [] [] :=
  ⟨rfl, fun h => absurd rfl h, fun h => absurd rfl h⟩

theorem HoldsArgs.congr {argv : ℕ} {args : List ℕ} (h : HoldsArgs s argv args own)
    (hmem : ∀ a ∈ own, s'.mem a = s.mem a) : HoldsArgs s' argv args own where
  blocks := h.blocks
  argv_at hne := by
    have hin : argv ∈ own := by simp [h.blocks, if_neg hne]
    rw [argv?_eq_some, hmem argv hin]
    exact argv?_eq_some.mp (h.argv_at hne)
  text_at hne a ha := by
    have hin : a ∈ own := by simp [h.blocks, if_neg hne, ha]
    rw [hmem a hin]
    exact h.text_at hne a ha

variable [Allocator H]

/-- The loop of `save_argv` with the copies made so far. -/
theorem copyArgs_ok {ret : ℕ} (args : List (List UInt8)) {copies : List ℕ} (hg : Grown s₀ s)
    (hf : Fresh s₀.heap s.heap (copies ++ ret :: extra))
    (htext : ∀ a ∈ copies, ∃ b, s.mem a = some (.text b)) :
    ∃ argv s' as own, copyArgs ret copies args s = .ok argv s' ∧ Grown s₀ s' ∧
      Fresh s₀.heap s'.heap (own ++ extra) ∧ HoldsArgs s' argv as own := by
  have hret : ret ∈ copies ++ ret :: extra := by simp
  induction args generalizing s copies with
  | nil =>
    have hnotin : ∀ a ∈ copies, a ≠ ret := fun a ha =>
      (List.nodup_append.mp hf.nodup).2.2 a ha ret (by simp)
    refine ⟨ret, s.put ret (.argv copies), copies, ret :: copies, rfl,
      hg.put (hf.not_live _ hret) (hf.live _ hret) (by simp) (by simp), ?_, ?_, ?_, ?_⟩
    · exact hf.perm List.perm_middle
    · rw [if_neg (live_ne_zero (hf.live _ hret))]
    · intro _
      rw [argv?_eq_some, put_mem, if_pos rfl]
    · intro _ a ha
      rw [put_mem, if_neg (hnotin a ha)]
      exact htext a ha
  | cons arg args ih =>
    rw [copyArgs, bind_of_ok (malloc_ok _)]
    by_cases h0 : (Allocator.malloc s.heap (arg.length + 1)).2 = 0
    · -- the copies and the list are freed again
      rw [if_pos h0]
      have hg₁ := hg.malloc (arg.length + 1)
      have hf₁ : Fresh s₀.heap (s.afterMalloc (arg.length + 1)).heap (copies ++ ret :: extra) :=
        ⟨hf.nodup, hf.not_live, fun a ha => live_malloc_of_live (hf.live a ha)⟩
      obtain ⟨s₂, hfree₂, hfreed₂⟩ := freeAll_ok
        (fun a ha => hf₁.live a (List.mem_append_left _ ha)) (List.nodup_append.mp hf.nodup).1
      have hf₂ := hf₁.freed hfreed₂
      obtain ⟨s₃, hfree₃, hfreed₃⟩ := free_ok (hf₂.live ret (by simp))
      have hg₃ := (hg₁.freed hfreed₂ fun a ha => hf.not_live a (List.mem_append_left _ ha)).freed
        hfreed₃ fun a ha => List.mem_singleton.mp ha ▸ hf.not_live ret hret
      replace hf₂ : Fresh s₀.heap s₂.heap ([ret] ++ extra) := hf₂
      have hf₃ := hf₂.freed hfreed₃
      refine ⟨0, s₃, [], [], ?_, hg₃, hf₃, HoldsArgs.null s₃⟩
      rw [bind_of_ok hfree₂, bind_of_ok hfree₃]
      rfl
    · rw [if_neg h0]
      have hf₁ := hf.malloc hg.live h0
      set copy := (Allocator.malloc s.heap (arg.length + 1)).2
      have hcopy : ∀ a ∈ copies, a ≠ copy := fun a ha heq =>
        (List.nodup_cons.mp hf₁.nodup).1 (heq ▸ List.mem_append_left _ ha)
      have hg₂ : Grown s₀ ((s.afterMalloc (arg.length + 1)).put copy (.text arg)) :=
        (hg.malloc _).put (hf₁.not_live _ (by simp)) (hf₁.live _ (by simp)) (by simp) (by simp)
      have hf₂ : Fresh s₀.heap (s.afterMalloc (arg.length + 1)).heap
          ((copies ++ [copy]) ++ ret :: extra) := by
        rw [List.append_assoc]
        exact hf₁.perm List.perm_middle.symm
      refine ih hg₂ hf₂ ?_ (by simp)
      · intro a ha
        rw [put_mem]
        by_cases hac : a = copy
        · exact ⟨arg, if_pos hac⟩
        · rw [if_neg hac]
          refine htext a ?_
          simpa [hac] using ha

/-- `save_argv` fills new blocks, or stores in front of one. -/
theorem saveArgv_cases (argc : ℤ) (args : List (List UInt8)) (hg : Grown s₀ s)
    (hf : Fresh s₀.heap s.heap extra) :
    (argc < 0 ∧ ∃ s', saveArgv argc args s = .error .fault s') ∨
      ∃ argv s' as own, saveArgv argc args s = .ok argv s' ∧ Grown s₀ s' ∧
        Fresh s₀.heap s'.heap (own ++ extra) ∧ HoldsArgs s' argv as own := by
  rw [saveArgv, bind_of_ok (malloc_ok _)]
  by_cases h0 : (Allocator.malloc s.heap (argvBytes argc)).2 = 0
  · rw [if_pos h0]
    exact Or.inr ⟨0, _, [], [], rfl, hg.malloc _,
      ⟨hf.nodup, hf.not_live, fun a ha => live_malloc_of_live (hf.live a ha)⟩, HoldsArgs.null _⟩
  rw [if_neg h0]
  by_cases hargc : argc < 0
  · rw [if_pos hargc]
    exact Or.inl ⟨hargc, _, rfl⟩
  · rw [if_neg hargc]
    exact Or.inr (copyArgs_ok _ (hg.malloc _) (hf.malloc hg.live h0) (by simp))

/-! ## `newProcess` -/

/-- The process that `newProcess` fills in. -/
def newProc (name argv pid ppid stack readFd writeFd priority : ℕ) : Process :=
  { name := name
    argv := argv
    pid := pid
    ppid := ppid
    sp := stack + STACK_FRAME_SIZE - sizeofStackFrame
    bp := stack + STACK_FRAME_SIZE - sizeofUInt64
    state := .new
    stack := stack
    readFd := readFd
    writeFd := writeFd
    priority := priority
    children := 0
    blockedByChildren := 0 }

/-- The stack pointer that `newProcess` sets up. -/
@[irreducible] def Process.initialSp (p : Process) : ℕ :=
  p.stack + STACK_FRAME_SIZE - sizeofStackFrame

theorem initialSp_congr {p q : Process} (h : p.stack = q.stack) : p.initialSp = q.initialSp := by
  unfold Process.initialSp
  rw [h]

theorem newProc_sp (name argv pid ppid stack readFd writeFd priority : ℕ) :
    (newProc name argv pid ppid stack readFd writeFd priority).sp =
      (newProc name argv pid ppid stack readFd writeFd priority).initialSp := by
  unfold Process.initialSp newProc
  rfl

/-- Between two states a process has been made in new blocks. -/
structure Created (s s' : Kernel H) (proc : ℕ) (p : Process) (args own : List ℕ) : Prop where
  live : ∀ a, Allocator.Live s.heap a → Allocator.Live s'.heap a
  kept : ∀ a, Allocator.Live s.heap a → s'.mem a = s.mem a
  within : Within s'
  node? : s'.node? = s.node?
  process? : ∀ a, s'.process? a = if a = proc then some p else s.process? a
  fresh : Fresh s.heap s'.heap (proc :: p.stack :: own)
  stack_at : s'.mem p.stack = some .stack
  args_at : HoldsArgs s' p.argv args own

/-- The process is put where there was nothing. -/
theorem Grown.created {proc : ℕ} {p : Process} {args : List ℕ} {g : Globals} (hs : Within s)
    (hg : Grown s s') (hf : Fresh s.heap s'.heap (proc :: p.stack :: own))
    (hstack : s'.mem p.stack = some .stack) (hargs : HoldsArgs s' p.argv args own) :
    Created s (({ s' with toGlobals := g } : Kernel H).put proc (.process p)) proc p args own where
  live := hg.live
  kept a ha := by
    have hap : a ≠ proc := fun hap => hf.not_live proc (by simp) (hap ▸ ha)
    rw [put_mem, if_neg hap]
    exact hg.kept a ha
  within := Within.put (s := { s' with toGlobals := g }) hg.within (hf.live proc (by simp))
  node? := by
    rw [← hg.node? hs]
    funext a
    by_cases hap : a = proc
    · have hnone := (hg.plain a (hap ▸ hf.not_live proc (by simp))).1
      rw [hnone, Option.eq_none_iff_forall_ne_some]
      intro n hn
      rw [node?_eq_some, put_mem, if_pos hap] at hn
      exact absurd (Option.some.inj hn) (by simp)
    · simp only [Kernel.node?, put_mem, if_neg hap]
  process? a := by
    rw [← hg.process? hs]
    split_ifs with hap
    · rw [process?_eq_some, put_mem, if_pos hap]
    · simp only [Kernel.process?, put_mem, if_neg hap]
  fresh := hf
  stack_at := by
    have hne : p.stack ≠ proc := fun heq => (List.nodup_cons.mp hf.nodup).1 (by simp [← heq])
    rw [put_mem, if_neg hne]
    exact hstack
  args_at := hargs.congr fun a ha => by
    have hne : a ≠ proc := fun heq => (List.nodup_cons.mp hf.nodup).1 (by simp [← heq, ha])
    rw [put_mem, if_neg hne]

theorem Kernel.Runs.grown {pid : ℕ} {g : Globals} (hs : Within s) (hg : Grown s s')
    (hcur : g.currentNode = s.currentNode)
    (h : ({ s' with toGlobals := g } : Kernel H).Runs pid) : s.Runs pid := by
  have hnode : ({ s' with toGlobals := g } : Kernel H).node? = s.node? := hg.node? hs
  have hprocess : ({ s' with toGlobals := g } : Kernel H).process? = s.process? := hg.process? hs
  simp only [Kernel.Runs, Holds, hnode, hprocess, hcur] at h
  exact h

theorem Kernel.Runs.eq {pid : ℕ} {cn : Node} {cp : Process} (h : s.Runs pid)
    (hcur : Allocator.Live s.heap s.currentNode) (hcn : s.node? s.currentNode = some cn)
    (hcp : s.process? cn.proc = some cp) : pid = cp.pid := by
  rcases h with ⟨h0, -⟩ | ⟨n, p, hn, hp, rfl⟩
  · exact absurd h0 (live_ne_zero hcur)
  · obtain rfl := Option.some.inj (hn.symm.trans hcn)
    obtain rfl := Option.some.inj (hp.symm.trans hcp)
    rfl

/-- `newProcess` behind the last `malloc`. -/
def startProcess (force : Op H Unit) (name proc savedArgv stack readFd writeFd priority : ℕ) :
    Op H ℕ := do
  let _ ← semWait force PIDC_MUTEX.bytes
  let pid := (← get).pidc
  modify fun s => { s with pidc := incr64 s.pidc }
  let _ ← semPost PIDC_MUTEX.bytes
  let ppid ← getRunningPid
  put proc (.process (newProc name savedArgv pid ppid stack readFd writeFd priority))
  return proc

/-- `newProcess` gives up, or has too many arguments, or comes to the pid with new blocks. -/
theorem newProcess_cases (force : Op H Unit) (hs : Within s)
    (name readFd writeFd priority : ℕ) (argv : List (List UInt8)) :
    (∃ s', newProcess force name argv readFd writeFd priority s = .ok 0 s' ∧ Grown s s') ∨
      (toInt (countArgv argv) < 0 ∧
        ∃ s', newProcess force name argv readFd writeFd priority s = .error .fault s') ∨
      ∃ proc saved stack args own s', newProcess force name argv readFd writeFd priority s =
          startProcess force name proc saved stack readFd writeFd priority s' ∧
        Grown s s' ∧ Fresh s.heap s'.heap (proc :: stack :: own) ∧ s'.mem stack = some .stack ∧
        HoldsArgs s' saved args own := by
  rw [newProcess, bind_of_ok (malloc_ok _)]
  have hg₁ := (Grown.refl hs).malloc sizeofProcess
  by_cases h0 : (Allocator.malloc s.heap sizeofProcess).2 = 0
  · rw [if_pos h0]
    exact Or.inl ⟨_, rfl, hg₁⟩
  rw [if_neg h0]
  have hf₁ := (Fresh.nil s.heap s.heap).malloc (n := sizeofProcess) (fun _ => id) h0
  generalize (Allocator.malloc s.heap sizeofProcess).2 = proc at hf₁ ⊢
  generalize hs₁ : s.afterMalloc sizeofProcess = s₁ at hg₁ ⊢
  replace hf₁ : Fresh s.heap s₁.heap [proc] := hs₁ ▸ hf₁
  -- the arguments and the stack
  dsimp only
  obtain ⟨hargc, s₂, hsave⟩ | ⟨saved, s₂, args, own, hsave, hg₂, hf₂, hargs⟩ :=
    saveArgv_cases (toInt (countArgv argv)) argv hg₁ hf₁
  · exact Or.inr (Or.inl ⟨hargc, s₂, bind_of_error hsave⟩)
  rw [bind_of_ok hsave, bind_of_ok (malloc_ok _)]
  have hg₃ := hg₂.malloc STACK_FRAME_SIZE
  by_cases h0 : (Allocator.malloc s₂.heap STACK_FRAME_SIZE).2 = 0
  · rw [if_pos h0]
    obtain ⟨s₄, hfree, hfreed⟩ := free_ok (s := s₂.afterMalloc STACK_FRAME_SIZE) (a := proc)
      (live_malloc_of_live (hf₂.live proc (by simp)))
    rw [bind_of_ok hfree]
    refine Or.inl ⟨s₄, rfl, hg₃.freed hfreed fun a ha => ?_⟩
    exact List.mem_singleton.mp ha ▸ hf₂.not_live proc (by simp)
  rw [if_neg h0]
  have hf₃ := hf₂.malloc (n := STACK_FRAME_SIZE) hg₂.live h0
  generalize (Allocator.malloc s₂.heap STACK_FRAME_SIZE).2 = stack at hf₃ ⊢
  have hg₄ := hg₃.put (a := stack) (o := .stack) (hf₃.not_live _ (by simp)) (hf₃.live _ (by simp))
    (by simp) (by simp)
  refine Or.inr (Or.inr ⟨proc, saved, stack, args, own, _, rfl, hg₄, hf₃.perm ?_, ?_, ?_⟩)
  · exact List.perm_append_singleton proc (stack :: own)
  · rw [put_mem, if_pos rfl]
  · refine hargs.congr fun a ha => ?_
    have hne : a ≠ stack := fun heq =>
      (List.nodup_cons.mp hf₃.nodup).1 (heq ▸ List.mem_append_left _ ha)
    rw [put_mem, if_neg hne]
    rfl

/-- `newProcess` gives up, or makes a process. -/
theorem ends_newProcess {force : Op H Unit} {Q : ℕ → Kernel H → Prop} (hE : Lenient E)
    (hs : Within s) (hmutex : MutexFree s.semaphores PIDC_MUTEX.bytes)
    {name readFd writeFd priority : ℕ} {argv : List (List UInt8)}
    (hnull : ∀ s', Grown s s' → Q 0 s')
    (hnew : ∀ s' proc args own saved ppid stack d,
      Created s s' proc (newProc name saved s.pidc ppid stack readFd writeFd priority) args own →
      s.Runs ppid → (s.disableCount < 2 ^ 31 - 1 → d = s.disableCount) →
      s'.toGlobals = { s.toGlobals with pidc := incr64 s.pidc, disableCount := d } → Q proc s') :
    Ends Q E (newProcess force name argv readFd writeFd priority) s := by
  rcases newProcess_cases force hs name readFd writeFd priority argv with
    ⟨s', hend, hg⟩ | ⟨-, s', hfault⟩ |
      ⟨proc, saved, stack, args, own, s₄, heq, hg₄, hf₄, hstack, hargs⟩
  · exact ends_of_ok hend (hnull s' hg)
  · exact ends_of_error hfault (hE _ _ (by simp))
  rw [Ends, heq]
  change Ends Q E (startProcess force name proc saved stack readFd writeFd priority) s₄
  -- the pid, behind its semaphore
  obtain ⟨g, heap, mem⟩ := s₄
  obtain rfl : g = s.toGlobals := hg₄.globals
  obtain ⟨r, hwait⟩ := semWait_free (s := ⟨s.toGlobals, heap, mem⟩) force hmutex
  rw [startProcess, ends_bind]
  refine ends_of_ok hwait ?_
  rw [ends_bind, ends_get, ends_bind, ends_modify, ends_bind]
  refine ends_semPost_held hE (t := s.semaphores) hmutex rfl fun r d hd => ?_
  rw [ends_bind]
  refine ends_getRunningPid hE fun ppid hruns => ?_
  rw [ends_bind, Sched.put, ends_modify, ends_pure]
  have hcreated :=
    hg₄.created hs (p := newProc name saved s.pidc ppid stack readFd writeFd priority)
    (g := { s.toGlobals with pidc := incr64 s.pidc, disableCount := d }) hf₄ hstack hargs
  exact hnew _ proc args own saved ppid stack d hcreated (.grown hs hg₄ rfl hruns) hd rfl

/-! ## `add_process` -/

/-- `is_foreground` in `add_process`. -/
def Globals.promote (g : Globals) (isForeground newNode : ℕ) : Globals :=
  if isForeground = 1 then
    { g with
      background := if g.background = 0 then g.foreground else g.background
      foreground := newNode }
  else g

omit [Allocator H] in
theorem takeForeground_ok (isForeground newNode : ℕ) :
    takeForeground isForeground newNode s =
      .ok () { s with toGlobals := s.toGlobals.promote isForeground newNode } := by
  rw [takeForeground, modify_apply, Globals.promote]
  split_ifs <;> rfl

/-- Between two states a process has been made, and a node for it behind the current one unless it
is 0. The current process has one child more. -/
structure Added (s s' : Kernel H) (cn : Node) (cp p : Process) (proc newNode : ℕ)
    (args own : List ℕ) : Prop where
  live : ∀ a, Allocator.Live s.heap a → Allocator.Live s'.heap a
  kept : ∀ a, Allocator.Live s.heap a → a ≠ s.currentNode → a ≠ cn.proc → s'.mem a = s.mem a
  within : Within s'
  node? : ∀ a, s'.node? a =
    if newNode = 0 then s.node? a
    else if a = newNode then some ⟨p.priority, proc, cn.next⟩
    else if a = s.currentNode then some { cn with next := newNode }
    else s.node? a
  process? : ∀ a, s'.process? a =
    if a = proc then some p
    else if a = cn.proc then some { cp with children := incr64 cp.children }
    else s.process? a
  fresh : Fresh s.heap s'.heap ((if newNode = 0 then [] else [newNode]) ++ proc :: p.stack :: own)
  stack_at : s'.mem p.stack = some .stack
  args_at : HoldsArgs s' p.argv args own

theorem Created.added {cn : Node} {cp p : Process} {proc : ℕ} {args : List ℕ} {g : Globals}
    (h : Created s s' proc p args own) (hs : Within s) (hcp : s.process? cn.proc = some cp) :
    Added s (({ s' with toGlobals := g } : Kernel H).put cn.proc
      (.process { cp with children := incr64 cp.children })) cn cp p proc 0 args own := by
  have hlive := hs.process_live hcp
  have hne : ∀ a ∈ proc :: p.stack :: own, a ≠ cn.proc :=
    fun a ha heq => h.fresh.not_live a ha (heq ▸ hlive)
  have hcp' : ({ s' with toGlobals := g } : Kernel H).process? cn.proc = some cp := by
    have := h.process? cn.proc
    rw [if_neg (hne proc (by simp)).symm, hcp] at this
    exact this
  obtain ⟨hnode, -, hother, hself⟩ :=
    put_process (q := { cp with children := incr64 cp.children }) hcp'
  constructor
  · exact h.live
  · intro a ha _ hap
    rw [put_mem, if_neg hap]
    exact h.kept a ha
  · exact Within.put (s := { s' with toGlobals := g }) h.within (h.live _ hlive)
  · intro a
    rw [if_pos rfl, hnode]
    exact congrFun h.node? a
  · intro a
    by_cases hap : a = cn.proc
    · rw [if_neg (hap ▸ (hne proc (by simp)).symm), if_pos hap, hap, hself]
    · rw [hother a hap, if_neg hap]
      exact h.process? a
  · exact h.fresh
  · rw [put_mem, if_neg (hne _ (by simp))]
    exact h.stack_at
  · exact h.args_at.congr fun a ha => by rw [put_mem, if_neg (hne a (by simp [ha]))]

/-- A new node is linked in. -/
theorem Added.linked {cn : Node} {cp p : Process} {proc newNode : ℕ} {args : List ℕ} {g : Globals}
    {heap : H} (h : Added s s' cn cp p proc 0 args own) (hs : Within s)
    (hcn : s.node? s.currentNode = some cn) (hempty : ¬ Allocator.Live s'.heap newNode)
    (hlive : ∀ a, Allocator.Live s'.heap a → Allocator.Live heap a)
    (hf : Fresh s.heap heap (newNode :: proc :: p.stack :: own)) :
    Added s ((Kernel.put ⟨g, heap, s'.mem⟩ newNode (.node ⟨p.priority, proc, cn.next⟩)).put
      s.currentNode (.node { cn with next := newNode })) cn cp p proc newNode args own := by
  have hcur := hs.node_live hcn
  have hne : ∀ a ∈ newNode :: proc :: p.stack :: own, ∀ b, Allocator.Live s.heap b → a ≠ b :=
    fun a ha b hb heq => hf.not_live a ha (heq ▸ hb)
  have hcurnew : s.currentNode ≠ newNode := (hne newNode (by simp) _ hcur).symm
  have h0 : newNode ≠ 0 := live_ne_zero (hf.live newNode (by simp))
  set m : Kernel H := ⟨g, heap, s'.mem⟩
  have hmnode : ∀ a, m.node? a = s.node? a := fun a => (h.node? a).trans (if_pos rfl)
  have hmprocess : m.process? = s'.process? := rfl
  have hplain := Within.plain h.within hempty
  have hcur₁ : (m.put newNode (.node ⟨p.priority, proc, cn.next⟩)).node? s.currentNode =
      some cn := by
    rw [node?_put_node, if_neg hcurnew, hmnode, hcn]
  have hmem : ∀ a, a ≠ newNode → a ≠ s.currentNode →
      ((m.put newNode (.node ⟨p.priority, proc, cn.next⟩)).put s.currentNode
        (.node { cn with next := newNode })).mem a = s'.mem a := fun a h₁ h₂ => by
    rw [put_mem, if_neg h₂, put_mem, if_neg h₁]
  constructor
  · exact fun a ha => hlive a (h.live a ha)
  · intro a ha hac hap
    rw [hmem a (hne newNode (by simp) a ha).symm hac]
    exact h.kept a ha hac hap
  · refine Within.put (Within.put ?_ (hf.live newNode (by simp))) (hlive _ (h.live _ hcur))
    exact fun a o ha => hlive a (h.within a o ha)
  · intro a
    rw [if_neg h0, node?_put_node, node?_put_node, hmnode]
    by_cases hac : a = s.currentNode
    · rw [if_pos hac, if_neg (hac ▸ hcurnew), if_pos hac]
    · rw [if_neg hac, if_neg hac]
  · rw [process?_put_node (process?_of_node hcur₁),
      process?_put_node (show m.process? newNode = none from hplain.2)]
    exact h.process?
  · rw [if_neg h0]
    exact hf
  · rw [hmem _ (fun heq => (List.nodup_cons.mp hf.nodup).1 (by simp [← heq]))
      (hne _ (by simp) _ hcur)]
    exact h.stack_at
  · refine h.args_at.congr fun a ha => hmem a (fun heq => ?_) (hne a (by simp [ha]) _ hcur)
    exact (List.nodup_cons.mp hf.nodup).1 (by simp [← heq, ha])

/-- More blocks come into use, and other globals. -/
theorem Added.more {cn : Node} {cp p : Process} {proc newNode : ℕ} {args : List ℕ} {g : Globals}
    {heap : H} (h : Added s s' cn cp p proc newNode args own)
    (hlive : ∀ a, Allocator.Live s'.heap a → Allocator.Live heap a) :
    Added s ⟨g, heap, s'.mem⟩ cn cp p proc newNode args own where
  live a ha := hlive a (h.live a ha)
  kept := h.kept
  within a o ha := hlive a (h.within a o ha)
  node? := h.node?
  process? := h.process?
  fresh := ⟨h.fresh.nodup, h.fresh.not_live, fun a ha => hlive a (h.fresh.live a ha)⟩
  stack_at := h.stack_at
  args_at := h.args_at.congr fun _ _ => rfl

omit [Allocator H] in
/-- `currentNode->proc->children++` behind its semaphore. -/
theorem ends_countChild {α : Type} {force : Op H Unit} {k : Op H α} {Q : α → Kernel H → Prop}
    (hE : Lenient E) (hmutex : MutexFree s.semaphores PROC_MUTEX.bytes) {cn : Node} {cp : Process}
    (hcn : s.node? s.currentNode = some cn) (hcp : s.process? cn.proc = some cp)
    (h : ∀ d, (s.disableCount < 2 ^ 31 - 1 → d = s.disableCount) →
      Ends Q E k (Kernel.put { s with disableCount := d } cn.proc
        (.process { cp with children := incr64 cp.children }))) :
    Ends Q E (do
      let _ ← semWait force PROC_MUTEX.bytes
      editProc (← currentProc) fun p => { p with children := incr64 p.children }
      let _ ← semPost PROC_MUTEX.bytes
      k) s := by
  obtain ⟨r, hwait⟩ := semWait_free (s := s) force hmutex
  rw [ends_bind]
  refine ends_of_ok hwait ?_
  rw [ends_bind]
  refine ends_currentProc hE fun n hn => ?_
  obtain rfl : cn = n := Option.some.inj (hcn.symm.trans hn)
  rw [ends_bind]
  refine ends_editProc hE fun p hp => ?_
  obtain rfl : cp = p := Option.some.inj (hcp.symm.trans hp)
  rw [ends_bind]
  exact ends_semPost_held hE hmutex rfl fun r d hd => h d hd

theorem ends_addNode {Q : ℕ → Kernel H → Prop} (hE : Lenient E) {process : ℕ} {cn : Node}
    (hcn : s.node? s.currentNode = some cn) (hcur : Allocator.Live s.heap s.currentNode)
    (hnull : (Allocator.malloc s.heap sizeofNode).2 = 0 → Q 0 (s.afterMalloc sizeofNode))
    (hnew : ∀ p newNode, newNode = (Allocator.malloc s.heap sizeofNode).2 → newNode ≠ 0 →
      s.process? process = some p →
      Q newNode (((s.afterMalloc sizeofNode).put newNode (.node ⟨p.priority, process, cn.next⟩)).put
        s.currentNode (.node { cn with next := newNode }))) :
    Ends Q E (addNode process) s := by
  rw [addNode, ends_bind]
  refine ends_of_ok (malloc_ok _) ?_
  have hfresh := Allocator.malloc_fresh s.heap sizeofNode
  generalize hm : (Allocator.malloc s.heap sizeofNode).2 = newNode at *
  split_ifs with h0
  · exact h0 ▸ hnull h0
  · rw [ends_bind, ends_get, ends_bind]
    refine ends_procAt hE fun p hp => ?_
    rw [ends_bind]
    refine ends_nodeAt hE fun n hn => ?_
    obtain rfl : cn = n := Option.some.inj (hcn.symm.trans hn)
    rw [ends_bind, Sched.put, ends_modify, ends_bind]
    refine ends_editNode hE fun n hn => ?_
    have hne : s.currentNode ≠ newNode := fun heq => hfresh (heq ▸ hcur)
    rw [node?_put_node, show (s.afterMalloc sizeofNode).currentNode = s.currentNode from rfl,
      if_neg hne] at hn
    obtain rfl : cn = n := Option.some.inj (hcn.symm.trans hn)
    exact hnew p newNode rfl h0 hp

omit [Allocator H] in
/-- The end of `add_process`. -/
theorem ends_announce {Q : ℕ → Kernel H → Prop} (hE : Lenient E) {proc newNode isForeground : ℕ}
    (h : ∀ p, s.process? proc = some p → Q p.pid { s with
      toGlobals := ({ s.toGlobals with
        counter := incr64 s.counter
        disableCount := s.disableCount - 1 } : Globals).promote isForeground newNode }) :
    Ends Q E (do
      takeForeground isForeground newNode
      modify fun s => { s with counter := incr64 s.counter }
      schedulerEnable
      return (← procAt proc).pid) s := by
  rw [ends_bind]
  refine ends_of_ok (takeForeground_ok _ _) ?_
  rw [ends_bind, ends_modify, ends_bind]
  refine ends_of_ok schedulerEnable_ok ?_
  rw [ends_bind]
  refine ends_procAt hE fun p hp => ?_
  have hQ := h p hp
  unfold Globals.promote at hQ ⊢
  split_ifs at hQ ⊢ <;> exact hQ

/-- `add_process` up to the process. -/
def makeProcess (force : Op H Unit) (name : ℕ) (argv : List (List UInt8))
    (readFd writeFd priority : ℕ) : Op H ℕ := do
  schedulerDisable
  newProcess force name argv readFd writeFd (min priority 5)

/-- `add_process` behind `newProcess`. -/
def registerProcess (force : Op H Unit) (proc isForeground : ℕ) : Op H ℕ := do
  let _ ← semWait force PROC_MUTEX.bytes
  editProc (← currentProc) fun p => { p with children := incr64 p.children }
  let _ ← semPost PROC_MUTEX.bytes
  let newNode ← addNode proc
  takeForeground isForeground newNode
  modify fun s => { s with counter := incr64 s.counter }
  schedulerEnable
  return (← procAt proc).pid

/-- `add_process`, with the current process `cp` on the node `cn`. The node is what the heap gives
after the process has been made. -/
theorem ends_addProcess {force : Op H Unit} {Q : ℕ → Kernel H → Prop} (hE : Lenient E)
    (hs : Within s) (hpidc : MutexFree s.semaphores PIDC_MUTEX.bytes)
    (hmutex : MutexFree s.semaphores PROC_MUTEX.bytes) {cn : Node} {cp : Process}
    (hcn : s.node? s.currentNode = some cn) (hcp : s.process? cn.proc = some cp)
    {name readFd writeFd priority isForeground : ℕ} {argv : List (List UInt8)}
    (h : ∀ s' proc newNode args own saved stack d,
      Added s s' cn cp (newProc name saved s.pidc cp.pid stack readFd writeFd (min priority 5)) proc
        newNode args own →
      (s.disableCount < 2 ^ 31 - 2 → d = s.disableCount) →
      s'.toGlobals = ({ s.toGlobals with
        pidc := incr64 s.pidc
        disableCount := d
        counter := incr64 s.counter } : Globals).promote isForeground newNode →
      (∃ t, makeProcess force name argv readFd writeFd priority s = .ok proc t ∧
        (Allocator.malloc t.heap sizeofNode).2 = newNode) →
      Q s.pidc s') :
    Ends Q E (addProcess force name argv readFd writeFd priority isForeground) s := by
  have heq : addProcess force name argv readFd writeFd priority isForeground =
      makeProcess force name argv readFd writeFd priority >>= fun proc =>
        registerProcess force proc isForeground := by
    rw [makeProcess, bind_assoc]
    rfl
  rw [heq]
  refine ends_bind_of_ok ?_
  rw [makeProcess, ends_bind]
  refine ends_schedulerDisable hE fun d hd => ?_
  refine ends_newProcess hE (s := { s with disableCount := d }) hs hpidc (fun s₁ hg _ => ?_)
    fun s₁ proc args own saved ppid stack d₁ hc hruns hd₁ hglob hmade => ?_
  · -- without a process, NULL is followed in the end
    obtain ⟨g, heap, mem⟩ := s₁
    obtain rfl := hg.globals
    have hnode := hg.node? hs
    have hcp₁ := (congrFun (hg.process? hs) cn.proc).trans hcp
    refine ends_countChild hE hmutex ((congrFun hnode _).trans hcn) hcp₁ fun d₂ _ => ?_
    have hproc : ∀ p, (Kernel.put (⟨{ s.toGlobals with disableCount := d₂ }, heap, mem⟩ : Kernel H)
        cn.proc (.process { cp with children := incr64 cp.children })).process? 0 ≠ some p := by
      intro p hp
      have hw := Within.put (s := ⟨{ s.toGlobals with disableCount := d₂ }, heap, mem⟩)
        (o := .process { cp with children := incr64 cp.children }) hg.within
        (hg.live _ (hs.process_live hcp))
      exact live_ne_zero (Within.process_live hw hp) rfl
    rw [ends_bind]
    refine ends_addNode hE ((congrFun (node?_put_process (node?_of_process hcp₁) _) _).trans
      ((congrFun hnode _).trans hcn)) (hg.live _ (hs.node_live hcn)) (fun _ => ?_)
      fun p newNode _ _ hp => absurd hp (hproc p)
    exact ends_announce hE fun p hp => absurd hp (hproc p)
  · have hne : cn.proc ≠ proc := fun heq =>
      hc.fresh.not_live proc (by simp) (heq ▸ hs.process_live hcp)
    replace hc : Created s s₁ proc
        (newProc name saved s.pidc ppid stack readFd writeFd (min priority 5)) args own :=
      ⟨hc.live, hc.kept, hc.within, hc.node?, hc.process?, hc.fresh, hc.stack_at, hc.args_at⟩
    obtain rfl : ppid = cp.pid := hruns.eq (hs.node_live hcn) hcn hcp
    obtain ⟨g, heap, mem⟩ := s₁
    obtain rfl := hglob
    have hcn₁ := (congrFun hc.node? _).trans hcn
    have hcp₁ := (hc.process? cn.proc).trans ((if_neg hne).trans hcp)
    refine ends_countChild hE hmutex hcn₁ hcp₁ fun d₂ hd₂ => ?_
    have hadd := hc.added (g := { s.toGlobals with
      pidc := incr64 s.pidc
      disableCount := d₂ }) hs hcp
    have hd₃ : s.disableCount < 2 ^ 31 - 2 → d₂ - 1 = s.disableCount := fun hlt => by
      have hd₁ : d < 2 ^ 31 - 1 → d₁ = d := hd₁
      have hd₂ : d₁ < 2 ^ 31 - 1 → d₂ = d₁ := hd₂
      omega
    rw [ends_bind]
    refine ends_addNode hE ((congrFun (node?_put_process (node?_of_process hcp₁) _) _).trans hcn₁)
      (hadd.live _ (hs.node_live hcn)) (fun hnone => ?_) fun p newNode hnew h0 hp => ?_
    · refine ends_announce hE fun p hp => ?_
      have hfinal := hadd.more (g := ({ s.toGlobals with
        pidc := incr64 s.pidc
        disableCount := d₂ - 1
        counter := incr64 s.counter } : Globals).promote isForeground 0)
        (fun a ha => live_malloc_of_live (n := sizeofNode) ha)
      obtain rfl := Option.some.inj (hp.symm.trans ((hadd.process? proc).trans (if_pos rfl)))
      exact h _ proc 0 args own saved stack (d₂ - 1) hfinal hd₃ rfl ⟨_, hmade, hnone⟩
    · refine ends_announce hE fun p' hp' => ?_
      have hf := hadd.fresh
      rw [if_pos rfl, List.nil_append] at hf
      subst hnew
      have hprocess := (hadd.process? proc).trans (if_pos rfl)
      obtain rfl := Option.some.inj (hp.symm.trans hprocess)
      have hlinked := hadd.linked (g := s.toGlobals) hs hcn (Allocator.malloc_fresh _ sizeofNode)
        (fun a ha => live_malloc_of_live ha) (hf.malloc hadd.live h0)
      obtain rfl := Option.some.inj (hp'.symm.trans ((hlinked.process? proc).trans (if_pos rfl)))
      exact h _ proc _ args own saved stack (d₂ - 1) (hlinked.more fun _ => id) hd₃ rfl
        ⟨_, hmade, rfl⟩

end TronKernel.Sched
