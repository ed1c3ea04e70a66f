import TronKernel.Interrupt.Keyboard
import TronKernel.Lib.Split
import TronKernel.Modules.Memcpy
import TronKernel.Sched.Create

/-!
# The first frame of a process

`newProcess` puts a `StackFrame` at the end of the stack block, and the first switch to the process
restores it like that of an interrupt. So the order of the fields has to be the order of the pops,
then that of `iretq`, and the word behind it is the return address of the entry point.

The number of arguments goes through an `int` on its way to `rdi` (`starts_iff`).
-/

namespace TronKernel.Sched.StartFrame

open X86 Mem
open Interrupt (popState)
open Modules (memcpy memcpy_eq)
open Sem (toInt)

structure StackFrame where
  r15 : Word
  r14 : Word
  r13 : Word
  r12 : Word
  r11 : Word
  r10 : Word
  r9 : Word
  r8 : Word
  rsi : Word
  rdi : Word
  rbp : Word
  rdx : Word
  rcx : Word
  rbx : Word
  rax : Word
  ip : Word
  cs : Word
  eflags : Word
  sp : Word
  ss : Word
  returnAddress : Word

/-- The fields as they lie in memory. -/
def StackFrame.words (f : StackFrame) : List Word :=
  [f.r15, f.r14, f.r13, f.r12, f.r11, f.r10, f.r9, f.r8, f.rsi, f.rdi, f.rbp, f.rdx, f.rcx, f.rbx,
    f.rax, f.ip, f.cs, f.eflags, f.sp, f.ss, f.returnAddress]

/-- `createStack`. -/
def createStack (killCurrentProcess entryPoint stackBase argc argv : Word) : StackFrame where
  r15 := 0x0
  r14 := 0x0
  r13 := 0x0
  r12 := 0x0
  r11 := 0x0
  r10 := 0x0
  r9 := 0x0
  r8 := 0x0
  rsi := argv
  rdi := argc
  rbp := 0x0
  rdx := 0x0
  rcx := 0x0
  rbx := 0x0
  rax := 0x0
  ip := entryPoint
  cs := 0x8
  eflags := 0x202
  sp := stackBase
  ss := 0x0
  returnAddress := killCurrentProcess

/-- An argument list: the pointers from its address on, up to the end of the address space or some
place before, with a `NULL` among them. -/
structure Argv where
  pointers : List ℕ
  terminated : 0 ∈ pointers
  inSpace : 8 * pointers.length ≤ 2 ^ 64

/-- The arguments are those before the first `NULL`. -/
def Argv.args (argv : Argv) : List ℕ := argv.pointers.takeWhile (· ≠ 0)

def countPointers : List ℕ → ℕ
  | [] => 0
  | p :: pointers => if p ≠ 0 then countPointers pointers + 1 else 0

/-- `count_argv`. -/
def countArgv (argv : Argv) : ℕ := countPointers argv.pointers

/-- The addresses of the stack block and of the local variable `stackFrame`, which are two
objects. -/
structure Objects where
  stack : ℕ
  stackFrame : ℕ
  inSpace : stack + STACK_FRAME_SIZE ≤ 2 ^ 64
  apart : stackFrame + sizeofStackFrame ≤ stack ∨ stack + STACK_FRAME_SIZE ≤ stackFrame

/-- The frame is made in the local variable and copied to the end of the block. -/
def copyFrame (m : Mem) (o : Objects) (f : StackFrame) : Mem :=
  memcpy (m.storeWords o.stackFrame (f.words.map BitVec.toNat))
    (o.stack + STACK_FRAME_SIZE - sizeofStackFrame) o.stackFrame sizeofStackFrame

/-- What `newProcess` does to the memory, where it has found the block. -/
def setUp (killCurrentProcess entryPoint : Word) (argv : Argv) (savedArgv : ℕ) (o : Objects)
    (m : Mem) : Mem :=
  let argc := toInt (countArgv argv)
  let stackBase := o.stack + STACK_FRAME_SIZE - sizeofUInt64
  copyFrame m o (createStack killCurrentProcess entryPoint (BitVec.ofNat 64 stackBase)
    (BitVec.ofInt 64 argc) (BitVec.ofNat 64 savedArgv))

/-- A processor with this stack pointer and memory. -/
def onStack (c : Cpu) (m : Mem) (sp : ℕ) : Cpu :=
  { c.set .rsp (BitVec.ofNat 64 sp) with stack := fun a => BitVec.ofNat 64 (load64 m a.toNat) }

/-- `mov rsp, rax`, `popState` and `iretq`, at the end of the timer interrupt. -/
def restore (c : Cpu) (m : Mem) (sp : ℕ) : Cpu := iretq (run (onStack c m sp) popState)

/-- The process starts at its entry point with its arguments. -/
structure Starts (c : Cpu) (p : Process) (killCurrentProcess entryPoint : Word) (argv : Argv) :
    Prop where
  rip : c.rip = entryPoint
  rdi : (c.reg .rdi).toNat = argv.args.length
  rsi : c.reg .rsi = BitVec.ofNat 64 p.argv
  others : ∀ r, r ≠ .rdi → r ≠ .rsi → r ≠ .rsp → c.reg r = 0
  rsp : (c.reg .rsp).toNat = p.bp
  returnAddress : c.word 0 = killCurrentProcess

variable {c : Cpu} {m : Mem} {o : Objects} {f : StackFrame} {argv : Argv} {v : Word} {k sp : ℕ}

theorem countArgv_eq (argv : Argv) : countArgv argv = argv.args.length := by
  unfold countArgv Argv.args
  generalize argv.pointers = pointers
  induction pointers with
  | nil => rfl
  | cons p pointers ih =>
    by_cases hp : p ≠ 0
    · rw [countPointers, if_pos hp, List.takeWhile_cons_of_pos (by simpa using hp),
        List.length_cons, ih]
    · rw [countPointers, if_neg hp, List.takeWhile_cons_of_neg (by simpa using hp), List.length_nil]

/-- The copy has the fields of the frame. -/
theorem load64_copyFrame (hv : f.words[k]? = some v) :
    load64 (copyFrame m o f) (o.stack + STACK_FRAME_SIZE - sizeofStackFrame + 8 * k) = v.toNat := by
  have hk : k < 21 := (List.getElem?_eq_some_iff.mp hv).1
  have hsize : STACK_FRAME_SIZE = 4000 ∧ sizeofStackFrame = 168 := ⟨rfl, rfl⟩
  have happart := o.apart
  have hvalue : (f.words.map BitVec.toNat)[k]? = some v.toNat := by rw [List.getElem?_map, hv]; rfl
  rw [copyFrame, memcpy_eq _ _ _ _ (by omega), load64_copied (by omega)]
  exact load64_storeWords hvalue v.isLt

/-- The words that the processor finds there. -/
theorem word_onStack (hv : f.words[k]? = some v)
    (hsp : sp = o.stack + STACK_FRAME_SIZE - sizeofStackFrame) :
    (onStack c (copyFrame m o f) sp).word k = v := by
  have hk : k < 21 := (List.getElem?_eq_some_iff.mp hv).1
  have hsize : STACK_FRAME_SIZE = 4000 ∧ sizeofStackFrame = 168 := ⟨rfl, rfl⟩
  have hspace := o.inSpace
  have haddress : (BitVec.ofNat 64 sp + 8 * BitVec.ofNat 64 k).toNat = sp + 8 * k := by
    rw [BitVec.toNat_add, BitVec.toNat_mul, BitVec.toNat_ofNat, BitVec.toNat_ofNat]
    show (sp % 2 ^ 64 + 8 * (k % 2 ^ 64) % 2 ^ 64) % 2 ^ 64 = _
    omega
  have hrsp : (onStack c (copyFrame m o f) sp).reg .rsp = BitVec.ofNat 64 sp :=
    c.set_reg_self .rsp (BitVec.ofNat 64 sp)
  rw [Cpu.word, hrsp]
  show BitVec.ofNat 64 (load64 _ (BitVec.ofNat 64 sp + 8 * BitVec.ofNat 64 k).toNat) = v
  rw [haddress, hsp, load64_copyFrame hv, BitVec.ofNat_toNat, BitVec.setWidth_eq]

/-- The registers in the order of the pops. -/
abbrev popOrder : List Reg :=
  [.r15, .r14, .r13, .r12, .r11, .r10, .r9, .r8, .rsi, .rdi, .rbp, .rdx, .rcx, .rbx, .rax]

/-- Restoring the copy: each register has its field, then come the words of `iretq`. -/
structure Restored (c : Cpu) (f : StackFrame) : Prop where
  regs : ∀ (k : ℕ) r v, popOrder[k]? = some r → f.words[k]? = some v → c.reg r = v
  rip : c.rip = f.ip
  rsp : c.reg .rsp = f.sp

theorem restored (hsp : sp = o.stack + STACK_FRAME_SIZE - sizeofStackFrame) :
    Restored (restore c (copyFrame m o f) sp) f := by
  have hrsp : Reg.rsp ∉ popOrder := by decide
  have hpops : popState = pops popOrder := rfl
  set c₀ := onStack c (copyFrame m o f) sp with hc₀
  have hword : ∀ k v, f.words[k]? = some v → c₀.word k = v := fun k v hv => word_onStack hv hsp
  rw [restore, ← hc₀, hpops]
  refine ⟨fun k r v hr hv => ?_, ?_, ?_⟩
  · have hne : r ≠ .rsp := fun h => hrsp (h ▸ List.mem_of_getElem? hr)
    rw [iretq_reg hne, run_pops_reg (by decide) hrsp hr, hword k v hv]
  · rw [iretq_rip, run_pops_word hrsp 0]
    exact hword 15 f.ip rfl
  · rw [iretq_rsp, run_pops_word hrsp 3]
    exact hword 18 f.sp rfl

/-- Every register but three is zero in the frame. -/
theorem words_createStack (killCurrentProcess entryPoint stackBase argc saved : Word) {r : Reg}
    (hrsp : r ≠ .rsp) : ∃ k : ℕ, popOrder[k]? = some r ∧
      (createStack killCurrentProcess entryPoint stackBase argc saved).words[k]? =
        some (if r = .rdi then argc else if r = .rsi then saved else 0) := by
  cases r with
  | rsp => exact absurd rfl hrsp
  | r15 => exact ⟨0, rfl, rfl⟩
  | r14 => exact ⟨1, rfl, rfl⟩
  | r13 => exact ⟨2, rfl, rfl⟩
  | r12 => exact ⟨3, rfl, rfl⟩
  | r11 => exact ⟨4, rfl, rfl⟩
  | r10 => exact ⟨5, rfl, rfl⟩
  | r9 => exact ⟨6, rfl, rfl⟩
  | r8 => exact ⟨7, rfl, rfl⟩
  | rsi => exact ⟨8, rfl, rfl⟩
  | rdi => exact ⟨9, rfl, rfl⟩
  | rbp => exact ⟨10, rfl, rfl⟩
  | rdx => exact ⟨11, rfl, rfl⟩
  | rcx => exact ⟨12, rfl, rfl⟩
  | rbx => exact ⟨13, rfl, rfl⟩
  | rax => exact ⟨14, rfl, rfl⟩

/-- An argument list in the address space has less than `2 ^ 61` arguments. -/
theorem length_args_lt (argv : Argv) : argv.args.length < 2 ^ 61 := by
  have hle : argv.args.length ≤ argv.pointers.length := (List.takeWhile_prefix _).length_le
  have hne : argv.args.length ≠ argv.pointers.length := by
    intro heq
    have hall : argv.args = argv.pointers := (List.takeWhile_prefix _).eq_of_length heq
    have hzero : 0 ∈ argv.args := hall ▸ argv.terminated
    exact Split.notMem_takeWhile hzero
  have hspace := argv.inSpace
  omega

/-- Less than `2 ^ 31` arguments survive the `int`. -/
theorem argc_iff (argv : Argv) :
    (BitVec.ofInt 64 (toInt (countArgv argv))).toNat = argv.args.length ↔
      argv.args.length < 2 ^ 31 := by
  have hlt := length_args_lt argv
  rw [countArgv_eq, BitVec.toNat_ofInt]
  unfold toInt
  omega

/-- The word at the restored stack pointer is the last one of the frame, if that is where it
points. -/
theorem word_zero_restore (hsp : sp = o.stack + STACK_FRAME_SIZE - sizeofStackFrame)
    (hbase : f.sp = BitVec.ofNat 64 (sp + 8 * 20)) :
    (restore c (copyFrame m o f) sp).word 0 = f.returnAddress := by
  have hlast : (onStack c (copyFrame m o f) sp).word 20 = f.returnAddress := word_onStack rfl hsp
  have hstack : (restore c (copyFrame m o f) sp).stack =
      (onStack c (copyFrame m o f) sp).stack := by
    rw [restore, popState, iretq_stack, run_pops_stack]
  have hrsp : (onStack c (copyFrame m o f) sp).reg .rsp = BitVec.ofNat 64 sp :=
    c.set_reg_self .rsp (BitVec.ofNat 64 sp)
  have haddress : f.sp + 8 * BitVec.ofNat 64 0 =
      BitVec.ofNat 64 sp + 8 * BitVec.ofNat 64 20 := by
    rw [hbase, BitVec.ofNat_add]
    simp
  rw [Cpu.word, hstack, (restored hsp).rsp, haddress, ← hrsp]
  exact hlast

/-- The frame lies inside the stack block, and the process starts from it as requested. -/
def StartsAsRequested (c : Cpu) (m : Mem) (killCurrentProcess entryPoint : Word) (argv : Argv)
    (o : Objects) (p : Process) : Prop :=
  (p.stack ≤ p.sp ∧ p.sp + sizeofStackFrame ≤ p.stack + STACK_FRAME_SIZE) ∧
    Starts (restore c (setUp killCurrentProcess entryPoint argv p.argv o m) p.sp) p
      killCurrentProcess entryPoint argv

/-- The number of arguments is the only thing that can be lost. -/
theorem startsAsRequested_of_argc {p : Process} {name saved pid ppid readFd writeFd priority : ℕ}
    {killCurrentProcess entryPoint : Word}
    (hp : p = newProc name saved pid ppid o.stack readFd writeFd priority) :
    StartsAsRequested c m killCurrentProcess entryPoint argv o p ↔
      (BitVec.ofInt 64 (toInt (countArgv argv))).toNat = argv.args.length := by
  have hsp : p.sp = o.stack + STACK_FRAME_SIZE - sizeofStackFrame := by rw [hp]; rfl
  have hbp : p.bp = o.stack + STACK_FRAME_SIZE - sizeofUInt64 := by rw [hp]; rfl
  have hstack : p.stack = o.stack := by rw [hp]; rfl
  have hsize : STACK_FRAME_SIZE = 4000 ∧ sizeofStackFrame = 168 ∧ sizeofUInt64 = 8 :=
    ⟨rfl, rfl, rfl⟩
  have hspace := o.inSpace
  set argc := BitVec.ofInt 64 (toInt (countArgv argv)) with hargc
  set frame := createStack killCurrentProcess entryPoint (BitVec.ofNat 64 p.bp) argc
    (BitVec.ofNat 64 p.argv) with hframe
  have hmem : setUp killCurrentProcess entryPoint argv p.argv o m = copyFrame m o frame := by
    rw [hframe, hbp]
    rfl
  have hall : Restored (restore c (copyFrame m o frame) p.sp) frame := restored hsp
  have hregs : ∀ {r : Reg}, r ≠ .rsp → (restore c (copyFrame m o frame) p.sp).reg r =
      if r = .rdi then argc else if r = .rsi then BitVec.ofNat 64 p.argv else 0 := by
    intro r hr
    obtain ⟨k, hk, hv⟩ := words_createStack killCurrentProcess entryPoint (BitVec.ofNat 64 p.bp)
      argc (BitVec.ofNat 64 p.argv) hr
    exact hall.regs k r _ hk hv
  have hrdi := hregs (r := .rdi) (by decide)
  rw [if_pos rfl] at hrdi
  unfold StartsAsRequested
  rw [hmem]
  constructor
  · rintro ⟨-, hstarts⟩
    rw [← hrdi, hstarts.rdi]
  · intro hcount
    refine ⟨by omega, hall.rip, hrdi ▸ hcount, ?_, fun r hdi hsi hsp' => ?_, ?_, ?_⟩
    · rw [hregs (by decide), if_neg (by decide), if_pos rfl]
    · rw [hregs hsp', if_neg hdi, if_neg hsi]
    · rw [hall.rsp, hframe]
      show (BitVec.ofNat 64 p.bp).toNat = p.bp
      rw [BitVec.toNat_ofNat, Nat.mod_eq_of_lt (by omega)]
    · refine word_zero_restore hsp ?_
      have hlast : p.bp = p.sp + 8 * 20 := by omega
      rw [hframe, ← hlast]
      rfl

/-- A new process starts as requested exactly if it has less than `2 ^ 31` arguments. -/
theorem starts_iff (c : Cpu) (m : Mem) (killCurrentProcess entryPoint : Word) (argv : Argv)
    (o : Objects) (name saved pid ppid readFd writeFd priority : ℕ) :
    StartsAsRequested c m killCurrentProcess entryPoint argv o
        (newProc name saved pid ppid o.stack readFd writeFd priority) ↔
      argv.args.length < 2 ^ 31 :=
  (startsAsRequested_of_argc rfl).trans (argc_iff argv)

/-- So many arguments, all of them the string at one address. -/
def sameArguments (n : ℕ) (h : 8 * (n + 1) ≤ 2 ^ 64) : Argv where
  pointers := List.replicate n 1 ++ [0]
  terminated := by simp
  inSpace := by simpa using h

theorem length_sameArguments {n : ℕ} (h : 8 * (n + 1) ≤ 2 ^ 64) :
    (sameArguments n h).args.length = n := by
  rw [Argv.args, sameArguments, List.takeWhile_append_of_pos (by simp)]
  simp

/-- With `2 ^ 31` arguments `rdi` is negative. -/
theorem many_arguments_lost :
    ¬ ∀ (c : Cpu) (m : Mem) (killCurrentProcess entryPoint : Word) (argv : Argv) (o : Objects)
      (name saved pid ppid readFd writeFd priority : ℕ),
      StartsAsRequested c m killCurrentProcess entryPoint argv o
        (newProc name saved pid ppid o.stack readFd writeFd priority) := by
  intro h
  have hfits : 8 * (2 ^ 31 + 1) ≤ 2 ^ 64 := by decide
  have hstarts := h ⟨fun _ => 0, 0, 0, 0, 0, fun _ => 0, fun _ => 0⟩ (fun _ => 0) 0 0
    (sameArguments _ hfits) ⟨4096, 0, by decide, Or.inl (by decide)⟩ 0 0 0 0 0 0 0
  have hlt := (argc_iff _).mp ((startsAsRequested_of_argc rfl).mp hstarts)
  rw [length_sameArguments hfits] at hlt
  exact absurd hlt (by decide)

end TronKernel.Sched.StartFrame
