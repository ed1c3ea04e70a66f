import TronKernel.Lib.X86

/-!
# System calls: the stubs and the dispatcher

The stubs of `uCodeModule/asm/syscalls.asm` load the number of the call into `rax` and raise
interrupt 0x80; `syscallINTHandler` of `Kernel/asm/interrupts.asm` compares `rax` with each number,
moves registers and calls the function of the kernel. The functions of the kernel are C functions
and parameters here; `KernelFn.arity` counts the parameters of their declarations. `out` changes
nothing that is modelled.
-/

namespace TronKernel.Interrupt

open X86

/-- The stubs of `syscalls.asm`. -/
inductive Syscall where
  | sysWrite | sysRead | sysWriteAt | sysClearScreen | sysWait | sysTime | sysDate
  | sysGetScreenHeight | sysGetScreenWidth | sysTimedRead | sysDrawRectangle | sysChangeFontSize
  | sysInforeg | sysBeep | sysMalloc | sysFree | sysExec | sysPipeOpen | sysPipesInfo
  | sysPipeClose | sysSemOpen | sysSemClose | sysSemPost | sysSemWait | sysSemInfo | sysSemCount
  | sysGetPid | sysKill | sysBlock | sysUnblock | sysYield | sysChangePriority | sysPs
  | sysWaitPid | sysMemInfo
deriving DecidableEq, Repr

/-- The functions of `syscallManager.c` that the dispatcher calls. -/
inductive KernelFn where
  | sysWrite | sysRead | sysWriteAt | sysClearScreen | sysWait | sysTime | sysDate
  | sysHeightScr | sysWidthScr | sysTimedRead | sysDrawRectangle | sysChangeFontSize
  | sysInforeg | sysBeep | sysMalloc | sysFree | sysExec | sysPipeOpen | sysPipesInfo
  | sysPipeClose | sysSemOpen | sysSemClose | sysSemPost | sysSemWait | sysSemInfo | sysSemCount
  | sysGetPid | sysKill | sysBlock | sysUnblock | sysYield | sysChangePriority | sysPs
  | sysWaitPid | sysMemInfo
deriving DecidableEq, Repr

/-- The number of parameters. -/
def KernelFn.arity : KernelFn → ℕ
  | .sysWrite => 4
  | .sysRead => 3
  | .sysWriteAt => 4
  | .sysClearScreen => 0
  | .sysWait => 1
  | .sysTime => 0
  | .sysDate => 0
  | .sysHeightScr => 0
  | .sysWidthScr => 0
  | .sysTimedRead => 4
  | .sysDrawRectangle => 5
  | .sysChangeFontSize => 1
  | .sysInforeg => 1
  | .sysBeep => 1
  | .sysMalloc => 1
  | .sysFree => 1
  | .sysExec => 7
  | .sysPipeOpen => 1
  | .sysPipesInfo => 0
  | .sysPipeClose => 1
  | .sysSemOpen => 2
  | .sysSemClose => 1
  | .sysSemPost => 1
  | .sysSemWait => 1
  | .sysSemInfo => 2
  | .sysSemCount => 0
  | .sysGetPid => 0
  | .sysKill => 1
  | .sysBlock => 1
  | .sysUnblock => 1
  | .sysYield => 0
  | .sysChangePriority => 2
  | .sysPs => 0
  | .sysWaitPid => 0
  | .sysMemInfo => 1

/-- The words of arguments on the stack. -/
def KernelFn.stackArgs (f : KernelFn) : ℕ := f.arity - 6

/-- The function of the kernel that a stub is for. -/
def Syscall.function : Syscall → KernelFn
  | .sysWrite => .sysWrite
  | .sysRead => .sysRead
  | .sysWriteAt => .sysWriteAt
  | .sysClearScreen => .sysClearScreen
  | .sysWait => .sysWait
  | .sysTime => .sysTime
  | .sysDate => .sysDate
  | .sysGetScreenHeight => .sysHeightScr
  | .sysGetScreenWidth => .sysWidthScr
  | .sysTimedRead => .sysTimedRead
  | .sysDrawRectangle => .sysDrawRectangle
  | .sysChangeFontSize => .sysChangeFontSize
  | .sysInforeg => .sysInforeg
  | .sysBeep => .sysBeep
  | .sysMalloc => .sysMalloc
  | .sysFree => .sysFree
  | .sysExec => .sysExec
  | .sysPipeOpen => .sysPipeOpen
  | .sysPipesInfo => .sysPipesInfo
  | .sysPipeClose => .sysPipeClose
  | .sysSemOpen => .sysSemOpen
  | .sysSemClose => .sysSemClose
  | .sysSemPost => .sysSemPost
  | .sysSemWait => .sysSemWait
  | .sysSemInfo => .sysSemInfo
  | .sysSemCount => .sysSemCount
  | .sysGetPid => .sysGetPid
  | .sysKill => .sysKill
  | .sysBlock => .sysBlock
  | .sysUnblock => .sysUnblock
  | .sysYield => .sysYield
  | .sysChangePriority => .sysChangePriority
  | .sysPs => .sysPs
  | .sysWaitPid => .sysWaitPid
  | .sysMemInfo => .sysMemInfo

/-- What a stub does in front of `int 0x80`. -/
def Syscall.stub : Syscall → List Instr
  | .sysWrite => [.movImm .rax 0x00, .mov .r10 .rcx]
  | .sysRead => [.movImm .rax 0x01]
  | .sysWriteAt => [.movImm .rax 0x02, .mov .r10 .rcx]
  | .sysClearScreen => [.movImm .rax 0x03]
  | .sysWait => [.movImm .rax 0x04]
  | .sysTime => [.movImm .rax 0x05]
  | .sysDate => [.movImm .rax 0x06]
  | .sysGetScreenHeight => [.movImm .rax 0x07]
  | .sysGetScreenWidth => [.movImm .rax 0x08]
  | .sysTimedRead => [.movImm .rax 0x09, .mov .r10 .rcx]
  | .sysDrawRectangle => [.movImm .rax 0x0A, .mov .r10 .rcx]
  | .sysChangeFontSize => [.movImm .rax 0x0B]
  | .sysInforeg => [.movImm .rax 0x0C, .mov .r10 .rcx]
  | .sysBeep => [.movImm .rax 0x0D]
  | .sysMalloc => [.movImm .rax 0x0E]
  | .sysFree => [.movImm .rax 0x0F]
  | .sysExec => [.loadStack .r11 1, .movImm .rax 0x10]
  | .sysPipeOpen => [.movImm .rax 0x11, .mov .r10 .rcx]
  | .sysPipesInfo => [.movImm .rax 0x12, .mov .r10 .rcx]
  | .sysPipeClose => [.movImm .rax 0x13, .mov .r10 .rcx]
  | .sysSemOpen => [.movImm .rax 0x14, .mov .r10 .rcx]
  | .sysSemClose => [.movImm .rax 0x15, .mov .r10 .rcx]
  | .sysSemPost => [.movImm .rax 0x16, .mov .r10 .rcx]
  | .sysSemWait => [.movImm .rax 0x17, .mov .r10 .rcx]
  | .sysSemInfo => [.movImm .rax 0x18, .mov .r10 .rcx]
  | .sysSemCount => [.movImm .rax 0x19, .mov .r10 .rcx]
  | .sysGetPid => [.movImm .rax 0x1A, .mov .r10 .rcx]
  | .sysKill => [.movImm .rax 0x1B, .mov .r10 .rcx]
  | .sysBlock => [.movImm .rax 0x1C, .mov .r10 .rcx]
  | .sysUnblock => [.movImm .rax 0x1D, .mov .r10 .rcx]
  | .sysYield => [.movImm .rax 0x1E, .mov .r10 .rcx]
  | .sysChangePriority => [.movImm .rax 0x1F, .mov .r10 .rcx]
  | .sysPs => [.movImm .rax 0x20, .mov .r10 .rcx]
  | .sysWaitPid => [.movImm .rax 0x21, .mov .r10 .rcx]
  | .sysMemInfo => [.movImm .rax 0x22, .mov .r10 .rcx]

/-- The code behind a label of the dispatcher, around its `call`. -/
structure Arm where
  before : List Instr := []
  function : KernelFn
  after : List Instr := []

/-- The comparisons of `syscallINTHandler` in their order, each with the code it jumps to. -/
def arms : List (Word × Arm) :=
  [(0x00, { before := [.mov .rcx .r10], function := .sysWrite }),
    (0x01, { function := .sysRead }),
    (0x02, { before := [.mov .rcx .r10], function := .sysWriteAt }),
    (0x03, { function := .sysClearScreen }),
    (0x04, { function := .sysWait }),
    (0x05, { function := .sysTime }),
    (0x06, { function := .sysDate }),
    (0x07, { function := .sysHeightScr }),
    (0x08, { function := .sysWidthScr }),
    (0x09, { function := .sysTimedRead }),
    (0x0A, { before := [.mov .rcx .r10], function := .sysDrawRectangle }),
    (0x0B, { function := .sysChangeFontSize }),
    (0x0C, { function := .sysInforeg }),
    (0x0D, { function := .sysBeep }),
    (0x0E, { function := .sysMalloc }),
    (0x0F, { function := .sysFree }),
    (0x10, { before := [.push .r11], function := .sysExec, after := [.pop .r11] }),
    (0x11, { function := .sysPipeOpen }),
    (0x12, { function := .sysPipesInfo }),
    (0x13, { function := .sysPipeClose }),
    (0x14, { function := .sysSemOpen }),
    (0x15, { function := .sysSemClose }),
    (0x16, { function := .sysSemPost }),
    (0x17, { function := .sysSemWait }),
    (0x18, { before := [.mov .rsi .r10], function := .sysSemInfo }),
    (0x19, { function := .sysSemCount }),
    (0x1A, { function := .sysGetPid }),
    (0x1B, { function := .sysKill }),
    (0x1C, { function := .sysBlock }),
    (0x1D, { function := .sysUnblock }),
    (0x1E, { function := .sysYield }),
    (0x1F, { function := .sysChangePriority }),
    (0x20, { function := .sysPs }),
    (0x21, { function := .sysWaitPid }),
    (0x22, { function := .sysMemInfo })]

/-- `.end` of the dispatcher. -/
def handlerEnd (c : Cpu) : Cpu := iretq (run c [.push .rax, .movAl 0x20, .pop .rax])

/-- `syscallINTHandler`, with the function it calls and the state in which that function starts.
`back` is the return address of the call. -/
def syscallINTHandler (kernel : KernelFn → Cpu → Cpu) (back : Word) (c : Cpu) :
    Option (KernelFn × Cpu) × Cpu :=
  match arms.find? fun arm => c.reg .rax = arm.1 with
  | none => (none, handlerEnd c)
  | some (_, arm) =>
    let entry := (run c arm.before).pushWord back
    (some (arm.function, entry), handlerEnd (run (kernel arm.function entry) arm.after))

/-- A stub up to its `ret`, which is at the address `next`. -/
def Syscall.raise (s : Syscall) (kernel : KernelFn → Cpu → Cpu) (back next : Word) (c : Cpu) :
    Option (KernelFn × Cpu) × Cpu :=
  syscallINTHandler kernel back (interrupt { run c s.stub with rip := next })

/-! ## Arguments and results -/

/-- The function of the kernel is called once, with the arguments of the stub; the interrupt goes
back to the stub's `ret`, and the stub returns what the function returned. -/
def Intact (kernel : KernelFn → Cpu → Cpu) (back next : Word) (s : Syscall) (c : Cpu) : Prop :=
  ∃ entry c', s.raise kernel back next c = (some (s.function, entry), c') ∧
    (∀ i < s.function.arity, entry.arg i = c.arg i) ∧
    c'.rip = next ∧ c'.reg .rsp = c.reg .rsp ∧
    (ret c').reg .rax = (kernel s.function entry).reg .rax

/-- The argument registers, and the stack pointer. -/
def argRegs : List Reg := [.rdi, .rsi, .rdx, .rcx, .r8, .r9, .rsp]

/-- No stub writes an argument register. -/
theorem stub_reg (s : Syscall) (c : Cpu) {r : Reg} (hr : r ∈ argRegs) :
    (run c s.stub).reg r = c.reg r := by
  refine run_reg_of_notMem c ?_
  cases s <;> revert r <;> decide

/-- What the code around a call does to the arguments. -/
inductive ArmOf (s : Syscall) (c : Cpu) : Arm → Prop where
  | plain (hargs : s.function.stackArgs = 0) (hmem : s ≠ .sysSemInfo) :
      ArmOf s c { function := s.function }
  | fourth (hargs : s.function.stackArgs = 0) (hmem : s ≠ .sysSemInfo)
      (h : (run c s.stub).reg .r10 = c.reg .rcx) :
      ArmOf s c { before := [.mov .rcx .r10], function := s.function }
  | semInfo (hs : s = .sysSemInfo) :
      ArmOf s c { before := [.mov .rsi .r10], function := .sysSemInfo }
  | exec (hs : s = .sysExec) :
      ArmOf s c { before := [.push .r11], function := .sysExec, after := [.pop .r11] }

/-- The dispatcher jumps to the arm of the stub. -/
theorem find_arm (s : Syscall) (c : Cpu) :
    ∃ number arm, (arms.find? fun arm => (run c s.stub).reg .rax = arm.1) = some (number, arm) ∧
      ArmOf s c arm := by
  cases s
  case sysWrite => exact ⟨_, _, rfl, .fourth rfl (by decide) rfl⟩
  case sysWriteAt => exact ⟨_, _, rfl, .fourth rfl (by decide) rfl⟩
  case sysDrawRectangle => exact ⟨_, _, rfl, .fourth rfl (by decide) rfl⟩
  case sysSemInfo => exact ⟨_, _, rfl, .semInfo rfl⟩
  case sysExec => exact ⟨_, _, rfl, .exec rfl⟩
  all_goals exact ⟨_, _, rfl, .plain rfl (by decide)⟩

/-- The end of the dispatcher: with the interrupt's frame on top of the stack, it goes back to the
interrupted stub and keeps `rax`. -/
theorem handlerEnd_returns {c k : Cpu} (hwords : ∀ j < 5, k.word j = (interrupt c).word j) :
    (handlerEnd k).rip = c.rip ∧ (handlerEnd k).reg .rsp = c.reg .rsp ∧
      (ret (handlerEnd k)).reg .rax = k.reg .rax := by
  have hsaved : (run k [.push .rax, .movAl 0x20]).word 0 = k.reg .rax :=
    (Cpu.set_word _ _ (by decide) 0).trans (k.pushWord_word_zero _)
  have hframe : ∀ j < 5, (run k [.push .rax, .movAl 0x20, .pop .rax]).word j =
      (interrupt c).word j := fun j hj => by
    rw [← hwords j hj, ← k.pushWord_word_succ (k.reg .rax) (show j + 1 < 2 ^ 61 by omega)]
    refine (Cpu.set_word _ _ (by decide) j).trans ?_
    rw [Cpu.dropWord_word]
    exact Cpu.set_word _ _ (by decide) (j + 1)
  obtain ⟨hrip, hrsp, -⟩ := iretq_interrupt hframe
  refine ⟨hrip, hrsp, ?_⟩
  rw [ret_reg (by decide), handlerEnd, iretq_reg (by decide)]
  exact (Cpu.set_reg_self ..).trans hsaved

section

variable {kernel : KernelFn → Cpu → Cpu} {back next : Word} {s : Syscall} {c : Cpu}

variable (back) in
/-- The function of an arm returns to the dispatcher with the interrupt's frame on the stack and its
result in `rax`. -/
theorem arm_frame {arm : Arm} (i : Cpu) (harm : ArmOf s c arm)
    (hkernel : ∀ f entry, Returns f.stackArgs 5 entry (kernel f entry)) :
    arm.function = s.function ∧
      (∀ j < 5, (run (kernel arm.function ((run i arm.before).pushWord back)) arm.after).word j =
        i.word j) ∧
      (run (kernel arm.function ((run i arm.before).pushWord back)) arm.after).reg .rax =
        (kernel arm.function ((run i arm.before).pushWord back)).reg .rax := by
  -- an arm that pushes nothing, whatever registers it moves
  have hmoves : ∀ (f : KernelFn) (i' : Cpu), f.stackArgs = 0 → (∀ j, i'.word j = i.word j) →
      ∀ j < 5, (kernel f (i'.pushWord back)).word j = i.word j := fun f i' hargs hi' j hj => by
    have hreturns := hkernel f (i'.pushWord back)
    rw [hargs] at hreturns
    rw [hreturns.frame j (Nat.zero_le j) (by omega), Cpu.pushWord_word_succ _ _ (by omega), hi']
  cases harm with
  | plain hargs _ => exact ⟨rfl, hmoves _ i hargs fun _ => rfl, rfl⟩
  | fourth hargs _ _ =>
    exact ⟨rfl, hmoves _ _ hargs fun j => i.set_word _ (by decide) j, rfl⟩
  | semInfo hs =>
    subst hs
    exact ⟨rfl, hmoves _ _ rfl fun j => i.set_word _ (by decide) j, rfl⟩
  | exec hs =>
    subst hs
    refine ⟨rfl, fun j hj => ?_, ?_⟩
    · have hreturns := hkernel .sysExec ((i.pushWord (i.reg .r11)).pushWord back)
      refine (Cpu.set_word _ _ (by decide) j).trans ?_
      rw [Cpu.dropWord_word]
      refine (hreturns.frame (j + 1) (Nat.succ_le_succ (Nat.zero_le j)) ?_).trans ?_
      · show j + 1 < 1 + 5
        omega
      · rw [Cpu.pushWord_word_succ _ _ (by omega), Cpu.pushWord_word_succ _ _ (by omega)]
    · exact (Cpu.set_reg_of_ne _ _ (by decide)).trans (Cpu.dropWord_reg _ (by decide))

variable (back next) in
/-- The arm of a stub calls its function, with the argument registers as the arm leaves them; the
interrupt goes back to the stub with the result in `rax`. -/
theorem raise_eq (hkernel : ∀ f entry, Returns f.stackArgs 5 entry (kernel f entry)) :
    ∃ arm c', ArmOf s c arm ∧
      s.raise kernel back next c = (some (s.function,
        (run (interrupt { run c s.stub with rip := next }) arm.before).pushWord back), c') ∧
      c'.rip = next ∧ c'.reg .rsp = c.reg .rsp ∧
      (ret c').reg .rax = (kernel s.function
        ((run (interrupt { run c s.stub with rip := next }) arm.before).pushWord
          back)).reg .rax := by
  obtain ⟨number, arm, hfind, harm⟩ := find_arm s c
  set i := interrupt { run c s.stub with rip := next } with hi
  obtain ⟨hfunction, hwords, hrax⟩ := arm_frame back i harm hkernel
  obtain ⟨hrip, hrsp, hret⟩ := handlerEnd_returns hwords
  refine ⟨arm, _, harm, ?_, hrip, hrsp.trans (stub_reg s c (by decide)), hret.trans ?_⟩
  · have hnumber : i.reg .rax = (run c s.stub).reg .rax := interrupt_reg (by decide)
    rw [← hfunction, Syscall.raise, syscallINTHandler, ← hi, hnumber, hfind]
  · rw [hrax, hfunction]

/-- A function with up to six parameters reads them from the argument registers. -/
theorem arg_eq_of_regs {c c' : Cpu} (h : ∀ r ∈ argRegs, r ≠ .rsp → c'.reg r = c.reg r) :
    ∀ k < 6, c'.arg k = c.arg k
  | 0, _ => h .rdi (by decide) (by decide)
  | 1, _ => h .rsi (by decide) (by decide)
  | 2, _ => h .rdx (by decide) (by decide)
  | 3, _ => h .rcx (by decide) (by decide)
  | 4, _ => h .r8 (by decide) (by decide)
  | 5, _ => h .r9 (by decide) (by decide)

variable (back next) in
/-- What an arm hands over in the registers and on the stack. -/
theorem entry_arg {arm : Arm} (harm : ArmOf s c arm) :
    (∀ k < s.function.arity,
      ((run (interrupt { run c s.stub with rip := next }) arm.before).pushWord back).arg k =
        c.arg k) ↔ (s = .sysSemInfo → c.reg .rcx = c.reg .rsi) := by
  set i := interrupt { run c s.stub with rip := next } with hi
  have hstub : ∀ r, r ≠ .rsp → i.reg r = (run c s.stub).reg r := fun r hr => interrupt_reg hr
  have hreg : ∀ r ∈ argRegs, r ≠ .rsp → i.reg r = c.reg r := fun r hr hsp =>
    (hstub r hsp).trans (stub_reg s c hr)
  cases harm with
  | plain hargs hmem =>
    refine iff_of_true (fun k hk => ?_) fun hs => absurd hs hmem
    refine arg_eq_of_regs (fun r hr hsp => ?_) k (hk.trans_le (Nat.sub_eq_zero_iff_le.mp hargs))
    exact (i.pushWord_reg _ hsp).trans (hreg r hr hsp)
  | fourth hargs hmem hfourth =>
    refine iff_of_true (fun k hk => ?_) fun hs => absurd hs hmem
    refine arg_eq_of_regs (fun r hr hsp => ?_) k (hk.trans_le (Nat.sub_eq_zero_iff_le.mp hargs))
    refine (Cpu.pushWord_reg _ _ hsp).trans ?_
    by_cases hrcx : r = .rcx
    · subst hrcx
      exact (i.set_reg_self .rcx _).trans ((hstub .r10 (by decide)).trans hfourth)
    · exact (i.set_reg_of_ne _ hrcx).trans (hreg r hr hsp)
  | semInfo hs =>
    have hfirst : ((run i [.mov .rsi .r10]).pushWord back).arg 0 = c.arg 0 :=
      (Cpu.pushWord_reg _ _ (by decide)).trans
        ((i.set_reg_of_ne _ (by decide)).trans (hreg .rdi (by decide) (by decide)))
    have hsecond : ((run i [.mov .rsi .r10]).pushWord back).arg 1 = c.reg .rcx := by
      refine (Cpu.pushWord_reg _ _ (by decide)).trans ((i.set_reg_self .rsi _).trans ?_)
      rw [hstub .r10 (by decide), hs]
      rfl
    constructor
    · intro hargs _
      exact hsecond.symm.trans (hargs 1 (by rw [hs]; decide))
    · intro h k hk
      rw [hs] at hk
      match k, hk with
      | 0, _ => exact hfirst
      | 1, _ => exact hsecond.trans (h hs)
  | exec hs =>
    refine iff_of_true (fun k hk => ?_) fun hs' => absurd (hs.symm.trans hs') (by decide)
    by_cases hk6 : k < 6
    · refine arg_eq_of_regs (fun r hr hsp => ?_) k hk6
      exact (Cpu.pushWord_reg _ _ hsp).trans ((i.pushWord_reg _ hsp).trans (hreg r hr hsp))
    · -- the seventh argument goes from the stub's stack through `r11`
      obtain rfl : k = 6 := by
        rw [hs] at hk
        change k < 7 at hk
        omega
      have hpushed : ((i.pushWord (i.reg .r11)).pushWord back).word 1 = i.reg .r11 :=
        (Cpu.pushWord_word_succ _ _ (by decide)).trans (i.pushWord_word_zero _)
      refine hpushed.trans ((hstub .r11 (by decide)).trans ?_)
      rw [hs]
      exact Cpu.set_reg_of_ne _ _ (by decide)

/-- Every system call but `sys_sem_info` gives the kernel its arguments and its caller the result;
`sys_sem_info` gives the kernel its fourth register as the second argument. -/
theorem syscall_arguments_intact (kernel : KernelFn → Cpu → Cpu)
    (hkernel : ∀ f entry, Returns f.stackArgs 5 entry (kernel f entry)) (back next : Word)
    (s : Syscall) (c : Cpu) :
    Intact kernel back next s c ↔ (s = .sysSemInfo → c.reg .rcx = c.reg .rsi) := by
  obtain ⟨arm, c', harm, hraise, hrip, hrsp, hrax⟩ :=
    @raise_eq kernel back next s c hkernel
  rw [← entry_arg back next harm]
  constructor
  · rintro ⟨entry, c'', h, hargs, -⟩
    rw [hraise, Prod.mk.injEq, Option.some.injEq, Prod.mk.injEq] at h
    exact h.1.2 ▸ hargs
  · exact fun hargs => ⟨_, c', hraise, hargs, hrip, hrsp, hrax⟩

end

/-- A program that has called a stub with 3 as its first and the address `0x5000` as its second
argument. -/
def someCall : Cpu where
  reg := Function.update (Function.update (Function.update (fun _ => 0) .rsp 0x7008) .rdi 3)
    .rsi 0x5000
  rip := 0x400010
  cs := 0x08
  ss := 0x10
  rflags := 0x202
  stack := fun _ => 0
  data := fun _ => 0

/-- `sys_sem_open(3, 0x5000)`, with a function of the kernel that returns at once. -/
theorem syscall_arguments_intact_sem_open :
    Intact (fun _ => Cpu.dropWord) 0x100f 0x400020 .sysSemOpen someCall :=
  (syscall_arguments_intact (fun _ => Cpu.dropWord) (fun f => returns_dropWord f.stackArgs 5) 0x100f
    0x400020 .sysSemOpen someCall).mpr (fun h => absurd h (by decide))

/-- `sys_sem_info(3, 0x5000)`: the buffer that `get_sem_info` gets is what `rcx` happens to hold. -/
theorem sem_info_loses_buffer :
    ¬ ∀ s, Intact (fun _ => Cpu.dropWord) 0x100f 0x400020 s someCall := by
  intro hclaim
  obtain ⟨entry, c', hraise, hargs, -⟩ := hclaim .sysSemInfo
  have hbuffer : (Syscall.raise .sysSemInfo (fun _ => Cpu.dropWord) 0x100f 0x400020
      someCall).1.map (fun called => called.2.arg 1) = some 0 := by decide +kernel
  rw [hraise] at hbuffer
  have hsecond := hargs 1 (by decide)
  rw [Option.map_some, Option.some.injEq] at hbuffer
  exact absurd (hbuffer.symm.trans hsecond) (by decide)

end TronKernel.Interrupt
