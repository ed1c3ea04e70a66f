import Mathlib.Data.BitVec
import Mathlib.Data.List.Nodup
import Mathlib.Logic.Function.Basic

/-!
# Register moves, the stack and interrupts of the x86-64

The instructions that interrupt entry code is made of, on the general registers, a stack of 64-bit
words and the words of a data section that the code names. `Cpu.word k` is the word `k` places above
the stack pointer; what a push, a pop, an interrupt and an `iretq` do is said in terms of it.
Pushing registers and popping them in the opposite order gives them back, whatever happens in
between, as long as it leaves the stack pointer and the pushed words alone (`run_pops`).

Pushes and pops are 8 bytes wide and an interrupt aligns the stack to 16, so a stack word is never
read or written in parts. The flags are those an interrupt saves and `iretq` restores; instructions
in between do not change what they restore, and conditional jumps are the `if`s of the programs.
-/

namespace TronKernel.X86

abbrev Word := BitVec 64

/-- The general registers. -/
inductive Reg where
  | rax | rbx | rcx | rdx | rbp | rdi | rsi | rsp
  | r8 | r9 | r10 | r11 | r12 | r13 | r14 | r15
deriving DecidableEq, Repr

/-- The registers, the stack and the data section. -/
structure Cpu where
  reg : Reg → Word
  rip : Word
  cs : Word
  ss : Word
  rflags : Word
  stack : Word → Word
  data : ℕ → Word

namespace Cpu

variable (c : Cpu)

/-- The word `k` places above the stack pointer. -/
def word (k : ℕ) : Word := c.stack (c.reg .rsp + 8 * BitVec.ofNat 64 k)

/-- `mov r, v`. -/
def set (r : Reg) (v : Word) : Cpu := { c with reg := Function.update c.reg r v }

@[simp] theorem set_reg_self (r : Reg) (v : Word) : (c.set r v).reg r = v :=
  Function.update_self ..

theorem set_reg_of_ne {r r' : Reg} (v : Word) (h : r' ≠ r) : (c.set r v).reg r' = c.reg r' :=
  Function.update_of_ne h ..

@[simp] theorem set_stack (r : Reg) (v : Word) : (c.set r v).stack = c.stack := rfl

@[simp] theorem set_data (r : Reg) (v : Word) : (c.set r v).data = c.data := rfl

@[simp] theorem set_set (r : Reg) (v v' : Word) : (c.set r v).set r v' = c.set r v' := by
  simp [set]

theorem set_word {r : Reg} (v : Word) (h : r ≠ .rsp) (k : ℕ) : (c.set r v).word k = c.word k := by
  rw [word, word, set_reg_of_ne c v h.symm, set_stack]

/-- Push a word. -/
def pushWord (v : Word) : Cpu :=
  { c.set .rsp (c.reg .rsp - 8) with stack := Function.update c.stack (c.reg .rsp - 8) v }

/-- Drop the word on top of the stack. -/
def dropWord : Cpu := c.set .rsp (c.reg .rsp + 8)

@[simp] theorem pushWord_rsp (v : Word) : (c.pushWord v).reg .rsp = c.reg .rsp - 8 :=
  c.set_reg_self .rsp (c.reg .rsp - 8)

theorem pushWord_reg {r : Reg} (v : Word) (h : r ≠ .rsp) : (c.pushWord v).reg r = c.reg r :=
  Function.update_of_ne h ..

@[simp] theorem pushWord_data (v : Word) : (c.pushWord v).data = c.data := rfl

@[simp] theorem dropWord_rsp : c.dropWord.reg .rsp = c.reg .rsp + 8 :=
  c.set_reg_self .rsp (c.reg .rsp + 8)

theorem dropWord_reg {r : Reg} (h : r ≠ .rsp) : c.dropWord.reg r = c.reg r :=
  Function.update_of_ne h ..

@[simp] theorem dropWord_data : c.dropWord.data = c.data := rfl

@[simp] theorem pushWord_word_zero (v : Word) : (c.pushWord v).word 0 = v := by
  simp [word, pushWord]

/-- The words that were there are one place deeper. -/
theorem pushWord_word_succ (v : Word) {k : ℕ} (hk : k + 1 < 2 ^ 61) :
    (c.pushWord v).word (k + 1) = c.word k := by
  have haddr : c.reg .rsp - 8 + 8 * BitVec.ofNat 64 (k + 1) =
      c.reg .rsp + 8 * BitVec.ofNat 64 k := by
    rw [BitVec.ofNat_add, BitVec.mul_add]
    bv_omega
  have hne : c.reg .rsp + 8 * BitVec.ofNat 64 k ≠ c.reg .rsp - 8 := by
    bv_omega
  rw [word, word, pushWord_rsp, haddr]
  exact Function.update_of_ne hne ..

theorem dropWord_word (k : ℕ) : c.dropWord.word k = c.word (k + 1) := by
  rw [word, word, dropWord_rsp]
  refine congrArg c.stack ?_
  rw [BitVec.ofNat_add, BitVec.mul_add]
  bv_omega

end Cpu

/-- Straight-line instructions. -/
inductive Instr where
  /-- `mov d, v` -/
  | movImm (d : Reg) (v : Word)
  /-- `mov d, s` -/
  | mov (d s : Reg)
  /-- `mov d, [rsp + 8 * k]` -/
  | loadStack (d : Reg) (k : ℕ)
  /-- `mov [i], s` for word `i` of the data section -/
  | storeData (i : ℕ) (s : Reg)
  /-- `mov [i], v` for word `i` of the data section -/
  | storeDataImm (i : ℕ) (v : Word)
  /-- `add d, v` -/
  | addImm (d : Reg) (v : Word)
  /-- `mov al, v` or `in al, port` -/
  | movAl (v : BitVec 8)
  /-- `and al, v` -/
  | andAl (v : BitVec 8)
  | push (s : Reg)
  | pop (d : Reg)
deriving DecidableEq, Repr

/-- The low byte of `rax`. -/
def Cpu.al (c : Cpu) : BitVec 8 := (c.reg .rax).setWidth 8

/-- `rax` with another low byte. -/
def withAl (rax : Word) (v : BitVec 8) : Word := rax &&& ~~~0xff#64 ||| v.setWidth 64

@[simp] theorem setWidth_withAl (rax : Word) (v : BitVec 8) : (withAl rax v).setWidth 8 = v := by
  refine BitVec.eq_of_getLsbD_eq fun i hi => ?_
  have hmask : ∀ j < 8, (0xff#64).getLsbD j = true := by decide
  simp only [withAl, BitVec.getLsbD_setWidth, BitVec.getLsbD_or, BitVec.getLsbD_and,
    BitVec.getLsbD_not, hmask i hi]
  simp [hi, show i < 64 by omega]

/-- One instruction. -/
def Instr.exec (c : Cpu) : Instr → Cpu
  | .movImm d v => c.set d v
  | .mov d s => c.set d (c.reg s)
  | .loadStack d k => c.set d (c.word k)
  | .storeData i s => { c with data := Function.update c.data i (c.reg s) }
  | .storeDataImm i v => { c with data := Function.update c.data i v }
  | .addImm d v => c.set d (c.reg d + v)
  | .movAl v => c.set .rax (withAl (c.reg .rax) v)
  | .andAl v => c.set .rax (withAl (c.reg .rax) (c.al &&& v))
  | .push s => c.pushWord (c.reg s)
  | .pop d => c.dropWord.set d (c.word 0)

/-- Straight-line code. -/
def run (c : Cpu) (code : List Instr) : Cpu := code.foldl Instr.exec c

@[simp] theorem run_nil (c : Cpu) : run c [] = c := rfl

@[simp] theorem run_cons (c : Cpu) (i : Instr) (code : List Instr) :
    run c (i :: code) = run (i.exec c) code := rfl

theorem run_append (c : Cpu) (code code' : List Instr) :
    run c (code ++ code') = run (run c code) code' := List.foldl_append ..

/-- The registers that an instruction writes. -/
def Instr.writes : Instr → List Reg
  | .movImm d _ | .mov d _ | .loadStack d _ | .addImm d _ => [d]
  | .movAl _ | .andAl _ => [.rax]
  | .push _ => [.rsp]
  | .pop d => [d, .rsp]
  | .storeData _ _ | .storeDataImm _ _ => []

/-- Code leaves the registers alone that it does not write. -/
theorem run_reg_of_notMem {code : List Instr} {r : Reg} (c : Cpu)
    (hr : ∀ i ∈ code, r ∉ i.writes) : (run c code).reg r = c.reg r := by
  induction code generalizing c with
  | nil => rfl
  | cons i code ih =>
    rw [run_cons, ih _ fun j hj => hr j (List.mem_cons_of_mem i hj)]
    have hi := hr i List.mem_cons_self
    cases i with
    | pop d =>
      simp only [Instr.writes, List.mem_cons, List.not_mem_nil, or_false, not_or] at hi
      exact (Cpu.set_reg_of_ne _ _ hi.1).trans (c.dropWord_reg hi.2)
    | push s => exact c.pushWord_reg _ (by simpa [Instr.writes] using hi)
    | storeData k s => rfl
    | storeDataImm k v => rfl
    | _ => exact Cpu.set_reg_of_ne _ _ (by simpa [Instr.writes] using hi)

/-! ## Saving and restoring registers -/

variable {c : Cpu} {rs : List Reg}

/-- `push` each of the registers. -/
def pushes (rs : List Reg) : List Instr := rs.map .push

/-- `pop` each of the registers. -/
def pops (rs : List Reg) : List Instr := rs.map .pop

theorem run_pushes_data : (run c (pushes rs)).data = c.data := by
  induction rs generalizing c with
  | nil => rfl
  | cons s rs ih => exact ih

theorem run_pushes_rsp :
    (run c (pushes rs)).reg .rsp = c.reg .rsp - 8 * BitVec.ofNat 64 rs.length := by
  induction rs generalizing c with
  | nil => simp [pushes]
  | cons s rs ih =>
    refine ih.trans ?_
    show (c.pushWord (c.reg s)).reg .rsp - _ = _
    rw [Cpu.pushWord_rsp, List.length_cons, BitVec.ofNat_add, BitVec.mul_add]
    bv_omega

/-- The words that were there lie above the registers. -/
theorem run_pushes_word {k : ℕ} (hk : k + rs.length < 2 ^ 61) :
    (run c (pushes rs)).word (k + rs.length) = c.word k := by
  induction rs generalizing c k with
  | nil => rfl
  | cons s rs ih =>
    rw [List.length_cons] at hk
    have hstep := ih (c := c.pushWord (c.reg s)) (k := k + 1) (by omega)
    rw [Cpu.pushWord_word_succ _ _ (by omega)] at hstep
    rw [List.length_cons, Nat.add_comm rs.length, ← Nat.add_assoc]
    exact hstep

/-- The register pushed last is on top. -/
theorem run_pushes_word_of_reverse (hrsp : Reg.rsp ∉ rs) (hlength : rs.length < 2 ^ 61) {k : ℕ}
    {r : Reg} (hr : rs.reverse[k]? = some r) : (run c (pushes rs)).word k = c.reg r := by
  induction rs generalizing c with
  | nil => simp at hr
  | cons s rs ih =>
    rw [List.length_cons] at hlength
    rw [List.reverse_cons] at hr
    by_cases hk : k < rs.length
    · rw [List.getElem?_append_left (by simpa using hk)] at hr
      have hmem : r ∈ rs := List.mem_reverse.mp (List.mem_of_getElem? hr)
      have hne : r ≠ .rsp := fun h => hrsp (h ▸ List.mem_cons_of_mem s hmem)
      refine (ih (c := c.pushWord (c.reg s)) (fun h => hrsp (List.mem_cons_of_mem s h)) (by omega)
        hr).trans (c.pushWord_reg _ hne)
    · rw [List.getElem?_append_right (by simpa using hk), List.length_reverse] at hr
      obtain ⟨hzero, rfl⟩ : k - rs.length = 0 ∧ s = r := by
        have := List.getElem?_eq_some_iff.mp hr
        obtain ⟨hlt, heq⟩ := this
        have hzero : k - rs.length = 0 := by simpa using hlt
        exact ⟨hzero, by simpa [hzero] using heq⟩
      obtain rfl : k = 0 + rs.length := by omega
      have htop : (run (c.pushWord (c.reg s)) (pushes rs)).word (0 + rs.length) =
          (c.pushWord (c.reg s)).word 0 := run_pushes_word (by omega)
      exact htop.trans (c.pushWord_word_zero _)

theorem run_pops_of_notMem {r : Reg} (hr : r ∉ rs) (hrsp : r ≠ .rsp) :
    (run c (pops rs)).reg r = c.reg r := by
  induction rs generalizing c with
  | nil => rfl
  | cons d rs ih =>
    have hd : r ≠ d := fun h => hr (h ▸ List.mem_cons_self)
    refine (ih fun h => hr (List.mem_cons_of_mem d h)).trans ?_
    exact (Cpu.set_reg_of_ne _ _ hd).trans (c.dropWord_reg hrsp)

theorem run_pops_data : (run c (pops rs)).data = c.data := by
  induction rs generalizing c with
  | nil => rfl
  | cons d rs ih => exact ih

theorem run_pops_stack : (run c (pops rs)).stack = c.stack := by
  induction rs generalizing c with
  | nil => rfl
  | cons d rs ih => exact ih

theorem run_pops_word (hrsp : Reg.rsp ∉ rs) (k : ℕ) :
    (run c (pops rs)).word k = c.word (k + rs.length) := by
  induction rs generalizing c with
  | nil => rfl
  | cons d rs ih =>
    have hd : d ≠ .rsp := fun h => hrsp (h ▸ List.mem_cons_self)
    refine (ih fun h => hrsp (List.mem_cons_of_mem d h)).trans ?_
    show (c.dropWord.set d (c.word 0)).word (k + rs.length) = _
    rw [Cpu.set_word _ _ hd, Cpu.dropWord_word, List.length_cons, Nat.add_assoc]

theorem run_pops_rsp (hrsp : Reg.rsp ∉ rs) :
    (run c (pops rs)).reg .rsp = c.reg .rsp + 8 * BitVec.ofNat 64 rs.length := by
  induction rs generalizing c with
  | nil => simp [pops]
  | cons d rs ih =>
    have hd : d ≠ .rsp := fun h => hrsp (h ▸ List.mem_cons_self)
    refine (ih fun h => hrsp (List.mem_cons_of_mem d h)).trans ?_
    show (c.dropWord.set d (c.word 0)).reg .rsp + _ = _
    rw [Cpu.set_reg_of_ne _ _ hd.symm, Cpu.dropWord_rsp, List.length_cons, BitVec.ofNat_add,
      BitVec.mul_add]
    bv_omega

/-- Each register gets the word at its place. -/
theorem run_pops_reg (hnodup : rs.Nodup) (hrsp : Reg.rsp ∉ rs) {k : ℕ} {r : Reg}
    (hr : rs[k]? = some r) : (run c (pops rs)).reg r = c.word k := by
  induction rs generalizing c k with
  | nil => simp at hr
  | cons d rs ih =>
    have hd : d ≠ .rsp := fun h => hrsp (h ▸ List.mem_cons_self)
    cases k with
    | zero =>
      obtain rfl : d = r := by simpa using hr
      exact (run_pops_of_notMem (List.nodup_cons.mp hnodup).1 hd).trans (Cpu.set_reg_self ..)
    | succ k =>
      refine (ih (List.nodup_cons.mp hnodup).2 (fun h => hrsp (List.mem_cons_of_mem d h))
        (by simpa using hr)).trans ?_
      show (c.dropWord.set d (c.word 0)).word k = _
      rw [Cpu.set_word _ _ hd, Cpu.dropWord_word]

/-- Registers that were pushed come back when they are popped in the opposite order from the same
place of the stack. -/
theorem run_pops_pushes {c' : Cpu} (hnodup : rs.Nodup) (hrsp : Reg.rsp ∉ rs)
    (hlength : rs.length < 2 ^ 61) (hsp : c'.reg .rsp = (run c (pushes rs)).reg .rsp)
    (hwords : ∀ k < rs.length, c'.word k = (run c (pushes rs)).word k) :
    (∀ r ∈ rs, (run c' (pops rs.reverse)).reg r = c.reg r) ∧
      (run c' (pops rs.reverse)).reg .rsp = c.reg .rsp ∧
      ∀ k, (run c' (pops rs.reverse)).word k = c'.word (k + rs.length) := by
  have hrsp' : Reg.rsp ∉ rs.reverse := fun h => hrsp (List.mem_reverse.mp h)
  refine ⟨fun r hr => ?_, ?_, fun k => ?_⟩
  · obtain ⟨k, hk⟩ := List.mem_iff_getElem?.mp (List.mem_reverse.mpr hr)
    have hlt : k < rs.length := by simpa using (List.getElem?_eq_some_iff.mp hk).1
    rw [run_pops_reg (List.nodup_reverse.mpr hnodup) hrsp' hk, hwords k hlt,
      run_pushes_word_of_reverse hrsp hlength hk]
  · rw [run_pops_rsp hrsp', hsp, run_pushes_rsp, List.length_reverse]
    bv_omega
  · rw [run_pops_word hrsp', List.length_reverse]

/-! ## Interrupts -/

/-- An interrupt aligns the stack and saves `ss`, `rsp`, the flags, `cs` and `rip`. -/
def interrupt (c : Cpu) : Cpu :=
  let top := c.set .rsp (c.reg .rsp &&& ~~~15#64)
  ((((top.pushWord c.ss).pushWord (c.reg .rsp)).pushWord c.rflags).pushWord c.cs).pushWord c.rip

/-- `iretq`. -/
def iretq (c : Cpu) : Cpu :=
  { c.set .rsp (c.word 3) with
    rip := c.word 0, cs := c.word 1, rflags := c.word 2, ss := c.word 4 }

theorem interrupt_reg {r : Reg} (hr : r ≠ .rsp) : (interrupt c).reg r = c.reg r := by
  simp only [interrupt]
  rw [Cpu.pushWord_reg _ _ hr, Cpu.pushWord_reg _ _ hr, Cpu.pushWord_reg _ _ hr,
    Cpu.pushWord_reg _ _ hr, Cpu.pushWord_reg _ _ hr, Cpu.set_reg_of_ne _ _ hr]

theorem interrupt_rsp : (interrupt c).reg .rsp = (c.reg .rsp &&& ~~~15#64) - 40 := by
  simp only [interrupt, Cpu.pushWord_rsp, Cpu.set_reg_self]
  bv_omega

/-- The saved stack pointer is less than 16 bytes above the frame. -/
theorem interrupt_rsp_add_ne {d : Word} (hd : 56 ≤ d.toNat) (hd' : d.toNat < 2 ^ 63) :
    (interrupt c).reg .rsp + d ≠ c.reg .rsp := by
  have hdisjoint : (c.reg .rsp &&& ~~~15#64) &&& (c.reg .rsp &&& 15#64) = 0#64 := by
    refine BitVec.eq_of_getLsbD_eq fun i hi => ?_
    simp only [BitVec.getLsbD_and, BitVec.getLsbD_not, BitVec.getLsbD_zero]
    cases (15#64).getLsbD i <;> simp
  have hsplit : (c.reg .rsp &&& ~~~15#64) + (c.reg .rsp &&& 15#64) = c.reg .rsp := by
    rw [BitVec.add_eq_or_of_and_eq_zero _ _ hdisjoint]
    refine BitVec.eq_of_getLsbD_eq fun i hi => ?_
    simp only [BitVec.getLsbD_or, BitVec.getLsbD_and, BitVec.getLsbD_not, hi]
    cases (15#64).getLsbD i <;> simp
  have hlow : (c.reg .rsp &&& 15#64).toNat ≤ 15 := by
    rw [BitVec.toNat_and]
    exact Nat.and_le_right
  rw [interrupt_rsp]
  intro heq
  generalize c.reg .rsp &&& ~~~15#64 = top at heq hsplit
  generalize c.reg .rsp &&& 15#64 = low at hsplit hlow
  generalize c.reg .rsp = rsp at heq hsplit
  bv_omega

@[simp] theorem interrupt_data : (interrupt c).data = c.data := rfl

theorem interrupt_word :
    (interrupt c).word 0 = c.rip ∧ (interrupt c).word 1 = c.cs ∧ (interrupt c).word 2 = c.rflags ∧
      (interrupt c).word 3 = c.reg .rsp ∧ (interrupt c).word 4 = c.ss := by
  simp only [interrupt]
  refine ⟨?_, ?_, ?_, ?_, ?_⟩
  · rw [Cpu.pushWord_word_zero]
  · rw [Cpu.pushWord_word_succ _ _ (by decide), Cpu.pushWord_word_zero]
  · rw [Cpu.pushWord_word_succ _ _ (by decide), Cpu.pushWord_word_succ _ _ (by decide),
      Cpu.pushWord_word_zero]
  · rw [Cpu.pushWord_word_succ _ _ (by decide), Cpu.pushWord_word_succ _ _ (by decide),
      Cpu.pushWord_word_succ _ _ (by decide), Cpu.pushWord_word_zero]
  · rw [Cpu.pushWord_word_succ _ _ (by decide), Cpu.pushWord_word_succ _ _ (by decide),
      Cpu.pushWord_word_succ _ _ (by decide), Cpu.pushWord_word_succ _ _ (by decide),
      Cpu.pushWord_word_zero]

theorem iretq_reg {r : Reg} (hr : r ≠ .rsp) : (iretq c).reg r = c.reg r :=
  Cpu.set_reg_of_ne c _ hr

@[simp] theorem iretq_rsp : (iretq c).reg .rsp = c.word 3 :=
  c.set_reg_self .rsp (c.word 3)

@[simp] theorem iretq_rip : (iretq c).rip = c.word 0 := rfl

@[simp] theorem iretq_stack : (iretq c).stack = c.stack := rfl

@[simp] theorem iretq_data : (iretq c).data = c.data := rfl

/-- From an untouched frame, `iretq` goes back to where the interrupt came. -/
theorem iretq_interrupt {c' : Cpu} (h : ∀ k < 5, c'.word k = (interrupt c).word k) :
    (iretq c').rip = c.rip ∧ (iretq c').reg .rsp = c.reg .rsp ∧ (iretq c').cs = c.cs ∧
      (iretq c').rflags = c.rflags ∧ (iretq c').ss = c.ss := by
  obtain ⟨hrip, hcs, hflags, hrsp, hss⟩ := interrupt_word (c := c)
  refine ⟨?_, ?_, ?_, ?_, ?_⟩
  · exact (h 0 (by decide)).trans hrip
  · exact iretq_rsp.trans ((h 3 (by decide)).trans hrsp)
  · exact (h 1 (by decide)).trans hcs
  · exact (h 2 (by decide)).trans hflags
  · exact (h 4 (by decide)).trans hss

/-! ## Calls of C functions -/

/-- `call`: the callee starts with its return address, `back`, on top of the stack. -/
def call (back : Word) (callee : Cpu → Cpu) (c : Cpu) : Cpu := callee (c.pushWord back)

/-- `ret`. -/
def ret (c : Cpu) : Cpu := { c.dropWord with rip := c.word 0 }

theorem ret_reg {r : Reg} (hr : r ≠ .rsp) : (ret c).reg r = c.reg r := c.dropWord_reg hr

/-- Argument `i` of a C function, with its return address on top of the stack. -/
def Cpu.arg (c : Cpu) : ℕ → Word
  | 0 => c.reg .rdi
  | 1 => c.reg .rsi
  | 2 => c.reg .rdx
  | 3 => c.reg .rcx
  | 4 => c.reg .r8
  | 5 => c.reg .r9
  | i + 6 => c.word (i + 1)

/-- The registers a function gives back as it found them. -/
def calleeSaved : List Reg := [.rbx, .rbp, .r12, .r13, .r14, .r15]

/-- A function with `args` words of arguments on the stack, entered in `c`, returns in `c'`: its
return address is off the stack, and it has kept the callee-saved registers and the `words` words of
its caller's stack above the arguments. -/
structure Returns (args words : ℕ) (c c' : Cpu) : Prop where
  rsp : c'.reg .rsp = c.reg .rsp + 8
  saved : ∀ r ∈ calleeSaved, c'.reg r = c.reg r
  frame : ∀ k, args ≤ k → k < args + words → c'.word k = c.word (k + 1)

/-- A function that returns at once. -/
theorem returns_dropWord (args words : ℕ) (c : Cpu) : Returns args words c c.dropWord where
  rsp := c.dropWord_rsp
  saved r hr := c.dropWord_reg fun h => absurd (h ▸ hr) (by decide)
  frame k _ _ := c.dropWord_word k

/-- The stack of the caller after a call. -/
theorem Returns.word_call {args words : ℕ} {back : Word} {callee : Cpu → Cpu}
    (h : Returns args words (c.pushWord back) (call back callee c)) {k : ℕ} (hargs : args ≤ k)
    (hwords : k < args + words) (hk : k + 1 < 2 ^ 61) : (call back callee c).word k = c.word k := by
  rw [h.frame k hargs hwords, Cpu.pushWord_word_succ _ _ hk]

theorem Returns.rsp_call {args words : ℕ} {back : Word} {callee : Cpu → Cpu}
    (h : Returns args words (c.pushWord back) (call back callee c)) :
    (call back callee c).reg .rsp = c.reg .rsp := by
  rw [h.rsp, Cpu.pushWord_rsp]
  bv_omega

end TronKernel.X86
