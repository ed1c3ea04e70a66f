import TronKernel.Interrupt.Timer
import TronKernel.Sched.Resume

/-!
# Every process goes on in the context it was interrupted in

The processor runs together with the kernel: programs and the kernel's calls go on as they like as
long as they leave the contexts alone that lie on the stacks of other processes, and the timer
interrupt takes the processor from one process to another through `scheduler`. Whichever process it
comes to, the registers, the flags, the stack pointer and the instruction pointer are those with
which this process was interrupted last (`context_switch`).
-/

namespace TronKernel.Sched.ContextSwitch

open X86 Resume Programs
open Interrupt (Code Context context savedAt frameAt irq00Handler pushState savedAt_of_eqOn
  savedAt_irq00Handler context_irq00Handler)

variable {H : Type} {code : Code} {back : Word}

/-- The context that lies at the stack pointer of the process at `a`. -/
def contextOf (s : Kernel H) (stack : Word → Word) (a : ℕ) : Context :=
  savedAt stack (BitVec.ofNat 64 (((s.process? a).map Process.sp).getD 0))

/-- The processor, the kernel with its history, and the context in which each process was
interrupted last. A process that has never run has the one that its first frame stands for. -/
structure Machine (H : Type) where
  cpu : Cpu
  traced : Traced H
  contexts : ℕ → Context

namespace Machine

abbrev kernel (m : Machine H) : Kernel H := m.traced.kernel

/-- The contexts of the processes that do not run lie at these addresses. -/
def saved (m : Machine H) : Set Word :=
  {w | ∃ a p, m.kernel.process? a = some p ∧ a ≠ m.kernel.current ∧
    w ∈ frameAt (BitVec.ofNat 64 p.sp)}

/-- The stack pointer that the timer interrupt hands to `scheduler`. -/
def interruptedSp (m : Machine H) : ℕ := ((run (X86.interrupt m.cpu) pushState).reg .rsp).toNat

/-- The processor after the timer interrupt, if `scheduler` returns `v`. -/
def afterTick (code : Code) (back : Word) (m : Machine H) (v : ℕ) : Cpu :=
  irq00Handler code back (BitVec.ofNat 64 v) (X86.interrupt m.cpu)

/-- The stacks of other processes have been left alone. -/
def Spares (m : Machine H) (cpu : Cpu) : Prop := ∀ w ∈ m.saved, cpu.stack w = m.cpu.stack w

/-- A call has led the kernel to `s'`. The first frame of a process lies on its stack when the
process has been made. -/
def called (m : Machine H) (c : Call) (s' : Kernel H) (cpu : Cpu) : Machine H where
  cpu := cpu
  traced := m.traced.after c s'
  contexts a := if (m.kernel.process? a).isSome then m.contexts a else contextOf s' cpu.stack a

/-- The timer interrupt has led the kernel to `s'`. -/
def ticked (code : Code) (back : Word) (m : Machine H) (v : ℕ) (s' : Kernel H) : Machine H where
  cpu := m.afterTick code back v
  traced := m.traced.after (.schedule m.interruptedSp) s'
  contexts := Function.update m.contexts m.kernel.current (context m.cpu)

end Machine

variable [Allocator H]

/-- The runs of the machine: programs and C code run (`work`), also for one of the kernel's calls
(`call`), and the timer interrupt comes (`tick`). -/
inductive Runs (code : Code) (back : Word) : Machine H → Prop
  | start {t : Traced H} (ht : Reachable t) (cpu : Cpu) :
    Runs code back ⟨cpu, t, contextOf t.kernel cpu.stack⟩
  | work {m : Machine H} (hm : Runs code back m) {cpu : Cpu} (hspares : m.Spares cpu) :
    Runs code back { m with cpu := cpu }
  | call {m : Machine H} (hm : Runs code back m) {c : Call} (hc : ∀ sp, c ≠ .schedule sp)
    {s' : Kernel H} (h : Leads c.run m.kernel s') {cpu : Cpu} (hspares : m.Spares cpu) :
    Runs code back (m.called c s' cpu)
  | tick {m : Machine H} (hm : Runs code back m) {v : ℕ} {s' : Kernel H}
    (h : scheduler Sched.interrupt m.interruptedSp m.kernel = .ok v s')
    (hspares : m.Spares (m.afterTick code back v)) :
    Runs code back (m.ticked code back v s')

/-- The contexts are where the kernel looks for them. -/
structure Kept (m : Machine H) : Prop where
  reachable : Reachable m.traced
  contexts : ∀ a p, m.kernel.process? a = some p → a ≠ m.kernel.current →
    savedAt m.cpu.stack (BitVec.ofNat 64 p.sp) = m.contexts a

variable {m : Machine H} {s' : Kernel H} {cpu : Cpu} {v : ℕ}

/-- A context on a stack that has been left alone is still there. -/
theorem Kept.spared (h : Kept m) (hspares : m.Spares cpu) {a : ℕ} {p : Process}
    (hp : m.kernel.process? a = some p) (ha : a ≠ m.kernel.current) :
    savedAt cpu.stack (BitVec.ofNat 64 p.sp) = m.contexts a := by
  rw [← h.contexts a p hp ha]
  exact savedAt_of_eqOn fun w hw => hspares w ⟨a, p, hp, ha, hw⟩

/-- What a call of `scheduler` from a reachable kernel ends in. -/
theorem Kept.scheduled (h : Kept m) {sp : ℕ}
    (hsched : scheduler Sched.interrupt sp m.kernel = .ok v s') :
    ∃ cn cp, m.kernel.node? m.kernel.currentNode = some cn ∧
      m.kernel.process? cn.proc = some cp ∧ Scheduled m.kernel cn cp sp v s' := by
  have hsaved := h.reachable.saved
  obtain ⟨cn, cp, hcn, hcp⟩ := hsaved.current
  have hends : Ends (Scheduled m.kernel cn cp sp) (fun _ _ => True) (scheduler Sched.interrupt sp)
      m.kernel :=
    ends_scheduler lenient_true hcn hcp (hsaved.alive _ cp hcp)
  exact ⟨cn, cp, hcn, hcp, hends.of_ok hsched⟩

/-- A call makes processes and changes some, but not the stack pointers. -/
theorem Kept.call (h : Kept m) {c : Call} (hc : ∀ sp, c ≠ .schedule sp)
    (hleads : Leads c.run m.kernel s') (hspares : m.Spares cpu) : Kept (m.called c s' cpu) where
  reachable := h.reachable.step hleads
  contexts := by
    intro a p' hp' ha
    have hsaved := h.reachable.saved
    have hquiet : Quiet m.kernel s' := hleads.holds (hsaved.ends_quiet hc)
    obtain ⟨n, p, hn, -⟩ := hsaved.current
    change s'.process? a = some p' at hp'
    show savedAt cpu.stack (BitVec.ofNat 64 p'.sp) =
      if (m.kernel.process? a).isSome then m.contexts a else contextOf s' cpu.stack a
    cases hold : m.kernel.process? a with
    | none =>
      rw [if_neg (by simp), contextOf, hp']
      rfl
    | some q =>
      obtain ⟨q', hq', hsp, -⟩ := hquiet.process a q hold
      obtain rfl := Option.some.inj (hp'.symm.trans hq')
      rw [Option.isSome_some, if_pos rfl, hsp]
      refine h.spared hspares hold fun hcur => ha ?_
      exact hcur.trans (hquiet.current_eq hn).symm

/-- The timer interrupt saves one context. -/
theorem Kept.tick (h : Kept m)
    (hsched : scheduler Sched.interrupt m.interruptedSp m.kernel = .ok v s')
    (hspares : m.Spares (m.afterTick code back v)) : Kept (m.ticked code back v s') where
  reachable := by
    refine Reachable.step h.reachable (c := .schedule m.interruptedSp) (Or.inl ⟨(), ?_⟩)
    rw [Call.run, bind_of_ok hsched]
    rfl
  contexts := by
    intro a p' hp' ha
    change s'.process? a = some p' at hp'
    change a ≠ s'.current at ha
    show savedAt (m.afterTick code back v).stack (BitVec.ofNat 64 p'.sp) =
      Function.update m.contexts m.kernel.current (context m.cpu) a
    obtain ⟨cn, cp, hcn, -, hs⟩ := h.scheduled hsched
    have hcur : m.kernel.current = cn.proc := Kernel.current_eq hcn
    -- another process has kept its stack pointer, and its stack has been left alone
    have hother : ∀ p, m.kernel.process? a = some p → p'.sp = p.sp → a ≠ m.kernel.current →
        savedAt (m.afterTick code back v).stack (BitVec.ofNat 64 p'.sp) =
          Function.update m.contexts m.kernel.current (context m.cpu) a := fun p hp hsp hne => by
      rw [Function.update_of_ne hne, hsp]
      exact h.spared hspares hp hne
    rcases hs with ⟨⟨-, hglob, hedits⟩, -⟩ | ⟨next, hsw⟩
    · have hcurn : s'.currentNode = m.kernel.currentNode := by rw [hglob]
      have hcur' : s'.current = cn.proc := hedits.current_eq (hcurn ▸ hcn)
      obtain ⟨p, hp, rfl | ⟨hac, -⟩⟩ := hedits.process a p' hp'
      · exact hother p' hp rfl fun hac => ha (hac.trans (hcur.trans hcur'.symm))
      · exact absurd (hac.trans hcur'.symm) ha
    · obtain ⟨n, hn, rfl⟩ := hsw.node
      have hcur' : s'.current = n.proc := hsw.edits.current_eq hn
      obtain ⟨p, hp, hrel⟩ := hsw.edits.process a p' hp'
      rw [if_neg (hcur' ▸ ha)] at hrel
      by_cases hac : a = cn.proc
      · -- the interrupted process
        rw [if_pos hac] at hrel
        have hsp : p'.sp = m.interruptedSp := by
          rw [hrel]
          rfl
        rw [hcur, hac, Function.update_self, hsp, Machine.interruptedSp, BitVec.ofNat_toNat,
          BitVec.setWidth_eq]
        exact savedAt_irq00Handler m.cpu
      · rw [if_neg hac] at hrel
        exact hother p hp (by rw [hrel]; rfl) (hcur ▸ hac)

/-- The contexts are kept in every run. -/
theorem Runs.kept (hm : Runs code back m) : Kept m := by
  induction hm with
  | start ht cpu =>
    refine ⟨ht, fun a p hp _ => ?_⟩
    show _ = contextOf _ cpu.stack a
    rw [contextOf, hp]
    rfl
  | work _ hspares ih => exact ⟨ih.reachable, fun a p hp ha => ih.spared hspares hp ha⟩
  | call _ hc h hspares ih => exact ih.call hc h hspares
  | tick _ h hspares ih => exact ih.tick h hspares

/-- In every run, the timer interrupt ends in the context in which the process that is current then
was interrupted last: all registers, the stack pointer, the flags and the place in the program. -/
theorem context_switch (code : Code) (back : Word) (m : Machine H) (hm : Runs code back m) (v : ℕ)
    (s' : Kernel H) (h : scheduler Sched.interrupt m.interruptedSp m.kernel = .ok v s')
    (hspares : m.Spares (m.afterTick code back v)) :
    context (m.afterTick code back v) =
      if s'.current = m.kernel.current then context m.cpu else m.contexts s'.current := by
  have hkept := hm.kept
  have hcontext : context (m.afterTick code back v) =
      savedAt (m.afterTick code back v).stack (BitVec.ofNat 64 v) := context_irq00Handler _
  -- the process that was interrupted goes on
  have hself : v = m.interruptedSp → context (m.afterTick code back v) = context m.cpu :=
    fun hv => by
    rw [hcontext, hv, Machine.interruptedSp, BitVec.ofNat_toNat, BitVec.setWidth_eq]
    exact savedAt_irq00Handler m.cpu
  obtain ⟨cn, cp, hcn, hcp, hs⟩ := hkept.scheduled h
  have hcur : m.kernel.current = cn.proc := Kernel.current_eq hcn
  rcases hs with ⟨⟨hv, hglob, hedits⟩, -⟩ | ⟨next, hsw⟩
  · have hcurn : s'.currentNode = m.kernel.currentNode := by rw [hglob]
    have hcur' : s'.current = cn.proc := hedits.current_eq (hcurn ▸ hcn)
    rw [if_pos (hcur'.trans hcur.symm)]
    exact hself hv
  · obtain ⟨n, hn, rfl⟩ := hsw.node
    have hcur' : s'.current = n.proc := hsw.edits.current_eq hn
    obtain ⟨p, hp, hready⟩ := hsw.ready
    rw [hcur', hcur]
    by_cases hnext : n.proc = cn.proc
    · rw [if_pos hnext] at hready ⊢
      exact hself hready.2
    · rw [if_neg hnext] at hready ⊢
      obtain ⟨-, rfl⟩ := hready
      rw [hcontext]
      exact hkept.spared hspares hp fun heq => hnext (heq.trans hcur)

/-- Compiled functions that return at once. -/
def returningAtOnce : Code where
  timerHandler := Cpu.dropWord
  scheduler v c := c.dropWord.set .rax v
  timerHandler_returns := returns_dropWord 0 20
  scheduler_returns v c := {
    rsp := (Cpu.set_reg_of_ne _ _ (by decide)).trans c.dropWord_rsp
    saved := fun r hr => (Cpu.set_reg_of_ne _ _ fun h => absurd (h ▸ hr) (by decide)).trans
      ((returns_dropWord 0 20 c).saved r hr)
    frame := fun k _ _ => (Cpu.set_word _ _ (by decide) k).trans (c.dropWord_word k) }
  scheduler_value _ _ := Cpu.set_reg_self ..

/-! ## A process comes back -/

/-- A processor with another value in each register, in the middle of a program. -/
def busyCpu : Cpu where
  reg
    | .rsp => 0x40000008
    | r => 0x1000 + BitVec.ofNat 64 (Interrupt.slot r)
  rip := 0x400123
  cs := 8
  ss := 0
  rflags := 0x202
  stack := fun a => a
  data := fun _ => 0

/-- The program goes on. -/
def program : List Instr := [.push .rbx, .addImm .rax 5, .mov .rdi .rax]

/-- What lies on the stack when the handler returns does not depend on what `scheduler` returns. -/
theorem tick_stack (c : Cpu) (v : Word) :
    (irq00Handler returningAtOnce 0 v (X86.interrupt c)).stack =
      ((Interrupt.enterHandler returningAtOnce 0 (X86.interrupt c)).pushWord 0).stack := by
  rw [Interrupt.irq00Handler_stack]
  rfl

/-- Neither the program nor the interrupt writes to the frame at 111. -/
theorem busy_spares : ∀ k < 20,
    (run busyCpu program).stack (111 + 8 * BitVec.ofNat 64 k) =
        busyCpu.stack (111 + 8 * BitVec.ofNat 64 k) ∧
      ((Interrupt.enterHandler returningAtOnce 0
          (X86.interrupt (run busyCpu program))).pushWord 0).stack (111 + 8 * BitVec.ofNat 64 k) =
        (run busyCpu program).stack (111 + 8 * BitVec.ofNat 64 k) := by
  decide +kernel

/-- The program of one process takes some steps, and the timer interrupt comes. The processor goes
back to the idle process, whose context lies at 111. -/
theorem context_switch_handOver : ∃ (m : Machine FirstFitHeap) (v : ℕ) (s' : Kernel FirstFitHeap),
    m.cpu = run busyCpu program ∧ s'.current ≠ m.kernel.current ∧
      context (m.afterTick returningAtOnce 0 v) = savedAt busyCpu.stack 111 := by
  let machine (t : Traced FirstFitHeap) (cpu : Cpu) : Machine FirstFitHeap :=
    ⟨cpu, t, contextOf t.kernel busyCpu.stack⟩
  have hrun : (handOver.map fun t =>
      decide (∀ b ∈ t.kernel.heap.1.alloc, ∀ p ∈ t.kernel.process? (FirstFit.wadd b.addr 16),
        FirstFit.wadd b.addr 16 ≠ t.kernel.current → p.sp = 111) &&
      match scheduler Sched.interrupt (machine t (run busyCpu program)).interruptedSp t.kernel with
      | .ok _ s' => decide (s'.current ≠ t.kernel.current ∧
          (t.kernel.process? s'.current).map Process.sp = some 111)
      | .error _ _ => false) = some true := by decide +kernel
  obtain ⟨t, ht, hcheck⟩ := Option.map_eq_some_iff.mp hrun
  obtain ⟨hsp, hcheck⟩ := (Bool.and_eq_true _ _).mp hcheck
  obtain ⟨s, hs, hreplay⟩ := Option.bind_eq_some_iff.mp ht
  have hfirst : s.first ≠ 0 := by simpa [hs] using booted_first
  have hinit := initScheduler_of_outcome booting_loaded hs hfirst
  have hreach := (Reachable.start booting_loaded hinit hfirst).replay hreplay
  -- the only frame that is to be left alone
  have hsaved : ∀ cpu, ∀ w ∈ (machine t cpu).saved, ∃ k < 20, w = 111 + 8 * BitVec.ofNat 64 k := by
    rintro cpu w ⟨a, p, hp, ha, hw⟩
    obtain ⟨-, b, hb, rfl⟩ := hreach.saved.within.process_live hp
    have hsp := of_decide_eq_true hsp b hb p hp ha
    rwa [hsp] at hw
  cases hend : scheduler Sched.interrupt (machine t (run busyCpu program)).interruptedSp
    t.kernel with
  | error e s' =>
    rw [hend] at hcheck
    simp at hcheck
  | ok v s' =>
    rw [hend] at hcheck
    obtain ⟨hne, hidle⟩ := of_decide_eq_true hcheck
    have hwork : (machine t busyCpu).Spares (run busyCpu program) := fun w hw => by
      obtain ⟨k, hk, rfl⟩ := hsaved _ w hw
      exact (busy_spares k hk).1
    have hspares : (machine t (run busyCpu program)).Spares
        ((machine t (run busyCpu program)).afterTick returningAtOnce 0 v) := fun w hw => by
      obtain ⟨k, hk, rfl⟩ := hsaved _ w hw
      exact (congrFun (tick_stack _ _) _).trans (busy_spares k hk).2
    have hcontext := context_switch returningAtOnce 0 (machine t (run busyCpu program))
      (.work (.start hreach busyCpu) hwork) v s' hend hspares
    rw [if_neg hne] at hcontext
    refine ⟨machine t (run busyCpu program), v, s', rfl, hne, hcontext.trans ?_⟩
    show contextOf t.kernel busyCpu.stack s'.current = _
    rw [contextOf, hidle]
    rfl

end TronKernel.Sched.ContextSwitch
