import TronKernel.Interrupt.Keyboard

/-!
# `Kernel/asm/interrupts.asm`: the timer interrupt

`_irq00Handler` saves the registers of the process that has been interrupted on that process's
stack, calls `scheduler` with the stack pointer, and restores whatever lies at the stack pointer
that `scheduler` returns (`savedAt_irq00Handler`, `context_irq00Handler`). `_force_scheduler` raises
the same interrupt. The C functions that the handler calls are parameters with the guarantees of the
calling convention.
-/

namespace TronKernel.Interrupt

open X86

/-- The C functions that the handler calls, as they are compiled. `scheduler v` is a run that
returns `v`. -/
structure Code where
  timerHandler : Cpu → Cpu
  scheduler : Word → Cpu → Cpu
  timerHandler_returns : ∀ entry, Returns 0 20 entry (timerHandler entry)
  scheduler_returns : ∀ v entry, Returns 0 20 entry (scheduler v entry)
  scheduler_value : ∀ v entry, (scheduler v entry).reg .rax = v

/-- The first part of `_irq00Handler`, up to the call of `scheduler`. `back` is pushed as the return
address of the calls. -/
def enterHandler (code : Code) (back : Word) (c : Cpu) : Cpu :=
  run (call back code.timerHandler (run c pushState)) [.mov .rdi .rsp]

/-- The second part of `_irq00Handler`, from the return of `scheduler`. -/
def leaveHandler (c : Cpu) : Cpu := iretq (run (run c [.mov .rsp .rax, .movAl 0x20]) popState)

/-- `_irq00Handler`, where `scheduler` returns `v`. -/
def irq00Handler (code : Code) (back v : Word) (c : Cpu) : Cpu :=
  leaveHandler (call back (code.scheduler v) (enterHandler code back c))

/-! ## Contexts -/

/-- What a process goes on with. -/
@[ext] structure Context where
  reg : Reg → Word
  rip : Word
  cs : Word
  rflags : Word
  ss : Word

/-- The context of the processor. -/
def context (c : Cpu) : Context := ⟨c.reg, c.rip, c.cs, c.rflags, c.ss⟩

/-- The word `k` places above `sp`. -/
def wordAt (stack : Word → Word) (sp : Word) (k : ℕ) : Word := stack (sp + 8 * BitVec.ofNat 64 k)

/-- The place of a register in a saved context. -/
def slot (r : Reg) : ℕ := if r = .rsp then 18 else stateRegs.reverse.idxOf r

/-- The context that lies at `sp`: the registers in the order of the pops, then the words of
`iretq`. -/
def savedAt (stack : Word → Word) (sp : Word) : Context where
  reg r := wordAt stack sp (slot r)
  rip := wordAt stack sp 15
  cs := wordAt stack sp 16
  rflags := wordAt stack sp 17
  ss := wordAt stack sp 19

/-- The addresses of a saved context. -/
def frameAt (sp : Word) : Set Word := {a | ∃ k < 20, a = sp + 8 * BitVec.ofNat 64 k}

variable {c : Cpu} {code : Code} {back v sp : Word} {stack stack' : Word → Word} {r : Reg}

theorem slot_lt (r : Reg) : slot r < 20 := by
  cases r <;> decide

theorem getElem?_slot (hr : r ≠ .rsp) : stateRegs.reverse[slot r]? = some r := by
  cases r <;> first | rfl | exact absurd rfl hr

/-- A saved context depends on its own words only. -/
theorem savedAt_congr (h : ∀ k < 20, wordAt stack' sp k = wordAt stack sp k) :
    savedAt stack' sp = savedAt stack sp := by
  apply Context.ext
  · funext r
    exact h _ (slot_lt r)
  · exact h 15 (by decide)
  · exact h 16 (by decide)
  · exact h 17 (by decide)
  · exact h 19 (by decide)

theorem savedAt_of_eqOn (h : ∀ a ∈ frameAt sp, stack' a = stack a) :
    savedAt stack' sp = savedAt stack sp :=
  savedAt_congr fun k hk => h _ ⟨k, hk, rfl⟩

/-- `popState` and `iretq` restore what lies at the stack pointer. -/
theorem context_restore (c : Cpu) :
    context (iretq (run c popState)) = savedAt c.stack (c.reg .rsp) := by
  have hrsp : Reg.rsp ∉ stateRegs.reverse := by decide
  have hword : ∀ k, (run c popState).word k = wordAt c.stack (c.reg .rsp) (k + 15) := fun k =>
    run_pops_word hrsp k
  apply Context.ext
  · funext r
    show (iretq (run c popState)).reg r = wordAt c.stack (c.reg .rsp) (slot r)
    by_cases hr : r = .rsp
    · subst hr
      rw [iretq_rsp, hword]
      rfl
    · rw [iretq_reg hr, popState_eq, run_pops_reg (by decide) hrsp (getElem?_slot hr)]
      rfl
  · exact hword 0
  · exact hword 1
  · exact hword 2
  · exact hword 4

/-- What the interrupt and `pushState` save. -/
theorem savedAt_entry (c : Cpu) :
    savedAt (run (interrupt c) pushState).stack ((run (interrupt c) pushState).reg .rsp) =
      context c := by
  have habove : ∀ k < 5, (run (interrupt c) pushState).word (k + 15) = (interrupt c).word k :=
    fun k hk => run_pushes_word (show k + stateRegs.length < 2 ^ 61 by
      simp only [stateRegs, List.length]
      omega)
  have hpushed : ∀ r, r ≠ .rsp → (run (interrupt c) pushState).word (slot r) = c.reg r :=
    fun r hr => by
      rw [pushState, run_pushes_word_of_reverse (by decide) (by decide) (getElem?_slot hr),
        interrupt_reg hr]
  obtain ⟨hrip, hcs, hflags, hrsp, hss⟩ := interrupt_word (c := c)
  generalize run (interrupt c) pushState = e at habove hpushed
  apply Context.ext
  · funext r
    by_cases hr : r = .rsp
    · subst hr
      exact (habove 3 (by decide)).trans hrsp
    · exact hpushed r hr
  · exact (habove 0 (by decide)).trans hrip
  · exact (habove 1 (by decide)).trans hcs
  · exact (habove 2 (by decide)).trans hflags
  · exact (habove 4 (by decide)).trans hss

/-! ## The handler -/

/-- The last instructions of the handler write no memory. -/
theorem irq00Handler_stack (c : Cpu) : (irq00Handler code back v c).stack =
    (call back (code.scheduler v) (enterHandler code back c)).stack := by
  rw [irq00Handler, leaveHandler, iretq_stack, popState_eq, run_pops_stack]
  rfl

/-- The handler restores what lies at the stack pointer that `scheduler` has returned. -/
theorem context_irq00Handler (c : Cpu) :
    context (irq00Handler code back v c) = savedAt (irq00Handler code back v c).stack v := by
  rw [irq00Handler_stack, irq00Handler, leaveHandler, context_restore]
  congr 1
  exact (Cpu.set_reg_of_ne _ _ (by decide)).trans
    ((Cpu.set_reg_self ..).trans (code.scheduler_value _ _))

/-- The argument of `scheduler` is the stack pointer behind `pushState`. -/
theorem enterHandler_reg (c : Cpu) :
    (enterHandler code back c).reg .rdi = (run c pushState).reg .rsp ∧
      (enterHandler code back c).reg .rsp = (run c pushState).reg .rsp := by
  have hrsp : (call back code.timerHandler (run c pushState)).reg .rsp =
      (run c pushState).reg .rsp := (code.timerHandler_returns _).rsp_call
  refine ⟨(Cpu.set_reg_self ..).trans hrsp, ?_⟩
  exact (Cpu.set_reg_of_ne _ _ (by decide)).trans hrsp

/-- The handler leaves the context of the interrupted process where `scheduler` has been told that
it is. -/
theorem savedAt_irq00Handler (c : Cpu) :
    savedAt (irq00Handler code back v (interrupt c)).stack
      ((run (interrupt c) pushState).reg .rsp) = context c := by
  rw [irq00Handler_stack, ← savedAt_entry c]
  have hscheduler := code.scheduler_returns v ((enterHandler code back (interrupt c)).pushWord back)
  have hrsp : (call back (code.scheduler v) (enterHandler code back (interrupt c))).reg .rsp =
      (run (interrupt c) pushState).reg .rsp :=
    hscheduler.rsp_call.trans (enterHandler_reg _).2
  refine savedAt_congr fun k hk => ?_
  have hbefore : (enterHandler code back (interrupt c)).word k =
      (run (interrupt c) pushState).word k :=
    (Cpu.set_word _ _ (by decide) k).trans
      ((code.timerHandler_returns _).word_call (Nat.zero_le k) (by omega) (by omega))
  have hafter : (call back (code.scheduler v) (enterHandler code back (interrupt c))).word k =
      (enterHandler code back (interrupt c)).word k :=
    hscheduler.word_call (Nat.zero_le k) (by omega) (by omega)
  have hword := hafter.trans hbefore
  rw [Cpu.word, hrsp] at hword
  exact hword

end TronKernel.Interrupt
