import TronKernel.Lib.X86

/-!
# `Kernel/asm/interrupts.asm`: the keyboard interrupt

`_irq01Handler` saves the registers, reads a key and either passes it to `saveKey` or, for the left
Alt key, takes a snapshot of the registers. `saveKey` is a C function and a parameter here. The
words `registers[0]` to `registers[16]` are the words 0 to 16 of the data section and
`registersSaved` is the next one. `cli`, `sti` and `out` change nothing that is modelled.
-/

namespace TronKernel.Interrupt

open X86

/-- The registers `pushState` pushes, in its order. -/
def stateRegs : List Reg :=
  [.rax, .rbx, .rcx, .rdx, .rbp, .rdi, .rsi, .r8, .r9, .r10, .r11, .r12, .r13, .r14, .r15]

/-- `pushState`. -/
def pushState : List Instr := pushes stateRegs

/-- `popState`. -/
def popState : List Instr :=
  pops [.r15, .r14, .r13, .r12, .r11, .r10, .r9, .r8, .rsi, .rdi, .rbp, .rdx, .rcx, .rbx, .rax]

/-- The index of `registersSaved` in the data section. -/
abbrev registersSaved : ℕ := 17

/-- `snapshot`. -/
def snapshot : List Instr :=
  [.storeData 1 .rax, .storeData 2 .rbx, .storeData 3 .rcx, .storeData 4 .rdx, .storeData 5 .rsi,
    .storeData 6 .rdi, .storeData 7 .rbp,
    .mov .rax .rsp, .addImm .rax 120, .storeData 8 .rax,
    .storeData 9 .r8, .storeData 10 .r9, .storeData 11 .r10, .storeData 12 .r11,
    .storeData 13 .r12, .storeData 14 .r13, .storeData 15 .r14, .storeData 16 .r15,
    .loadStack .rax 15, .storeData 0 .rax,
    .storeDataImm registersSaved 1]

/-- The loop of `keyPressed`. The status port gives `polls`, one byte at each read, and the data
port gives `key`. -/
def keyLoop (key : BitVec 8) : List (BitVec 8) → Cpu → Option Cpu
  | [], _ => none
  | status :: polls, c =>
    let c := run c [.movAl status, .andAl 0x01]
    if c.al = 0 then keyLoop key polls c else some (run c [.movAl key])

/-- `keyPressed`, with its `ret`. -/
def keyPressed (polls : List (BitVec 8)) (key : BitVec 8) (c : Cpu) : Option Cpu :=
  (keyLoop key polls (run c [.movImm .rax 0])).map Cpu.dropWord

/-- `_irq01Handler`. `back` is pushed as the return address of the calls. -/
def irq01Handler (saveKey : Cpu → Cpu) (back : Word) (polls : List (BitVec 8)) (key : BitVec 8)
    (c : Cpu) : Option Cpu := do
  let c ← keyPressed polls key ((run c pushState).pushWord back)
  let c :=
    if c.al = 0b111000 then run c (popState ++ snapshot ++ pushState)
    else call back saveKey (run c [.mov .rdi .rax])
  return iretq (run (run c [.movAl 0x20]) popState)

/-! ## What the handler leaves of the interrupted context -/

/-- The interrupted context is back. -/
def ContextKept (c c' : Cpu) : Prop := (∀ r, c'.reg r = c.reg r) ∧ c'.rip = c.rip

/-- `registers[0..16]` of an interrupted context. -/
def contextWords (c : Cpu) : List Word :=
  c.rip :: [.rax, .rbx, .rcx, .rdx, .rsi, .rdi, .rbp, .rsp, .r8, .r9, .r10, .r11, .r12, .r13, .r14,
    .r15].map c.reg

/-- The snapshot in the data section is that of the interrupted context. -/
def SnapshotOf (c c' : Cpu) : Prop := ∀ i < 17, (contextWords c)[i]? = some (c'.data i)

theorem popState_eq : popState = pops stateRegs.reverse := rfl

theorem mem_stateRegs {r : Reg} (hr : r ≠ .rsp) : r ∈ stateRegs := by
  cases r <;> first | decide | exact absurd rfl hr

/-- The keyboard is ready at one of the reads. -/
def Ready (polls : List (BitVec 8)) : Prop := ∃ status ∈ polls, status &&& 0x01 ≠ 0

/-- `keyPressed` ends when the keyboard is ready; it changes `rax` only and leaves the key in
`al`. -/
theorem keyLoop_ready {key : BitVec 8} {polls : List (BitVec 8)} (hready : Ready polls) (c : Cpu) :
    ∃ v : Word, v.setWidth 8 = key ∧ keyLoop key polls c = some (c.set .rax v) := by
  induction polls generalizing c with
  | nil =>
    obtain ⟨status, hmem, -⟩ := hready
    exact absurd hmem List.not_mem_nil
  | cons status polls ih =>
    have hstep : run c [.movAl status, .andAl 0x01] =
        c.set .rax (withAl (withAl (c.reg .rax) status) (status &&& 0x01)) := by
      simp [Instr.exec, Cpu.al]
    have hal : (run c [.movAl status, .andAl 0x01]).al = status &&& 0x01 := by
      rw [hstep, Cpu.al, Cpu.set_reg_self, setWidth_withAl]
    by_cases hbit : status &&& 0x01 = 0
    · have hrest : Ready polls := by
        obtain ⟨other, hmem, hother⟩ := hready
        rcases List.mem_cons.mp hmem with rfl | hmem
        · exact absurd hbit hother
        · exact ⟨other, hmem, hother⟩
      obtain ⟨v, hv, hloop⟩ := ih hrest (run c [.movAl status, .andAl 0x01])
      refine ⟨v, hv, ?_⟩
      rw [keyLoop, if_pos (hal.trans hbit), hloop, hstep, Cpu.set_set]
    · refine ⟨withAl (withAl (withAl (c.reg .rax) status) (status &&& 0x01)) key,
        setWidth_withAl _ key, ?_⟩
      rw [keyLoop, if_neg (by rwa [hal]), hstep, run_cons, run_nil, Instr.exec, Cpu.set_set,
        Cpu.set_reg_self]

/-- The state after `call keyPressed` differs from the one before in `rax`. -/
theorem keyPressed_ready {key : BitVec 8} {polls : List (BitVec 8)} (hready : Ready polls)
    (back : Word) (c : Cpu) :
    ∃ c', keyPressed polls key (c.pushWord back) = some c' ∧ c'.al = key ∧
      (∀ r, r ≠ .rax → c'.reg r = c.reg r) ∧ (∀ k, k + 1 < 2 ^ 61 → c'.word k = c.word k) ∧
      c'.data = c.data := by
  obtain ⟨v, hv, hloop⟩ := @keyLoop_ready key polls hready
    (run (c.pushWord back) [.movImm .rax 0])
  rw [run_cons, run_nil, Instr.exec, Cpu.set_set] at hloop
  refine ⟨((c.pushWord back).set .rax v).dropWord, ?_, ?_, fun r hr => ?_, fun k hk => ?_, rfl⟩
  · rw [keyPressed, run_cons, run_nil, Instr.exec, hloop, Option.map_some]
  · rw [Cpu.al, Cpu.dropWord_reg _ (by decide), Cpu.set_reg_self]
    exact hv
  · by_cases hsp : r = .rsp
    · subst hsp
      rw [Cpu.dropWord_rsp, Cpu.set_reg_of_ne _ _ (by decide), Cpu.pushWord_rsp]
      bv_omega
    · rw [Cpu.dropWord_reg _ hsp, Cpu.set_reg_of_ne _ _ hr, Cpu.pushWord_reg _ _ hsp]
  · rw [Cpu.dropWord_word, Cpu.set_word _ _ (by decide), Cpu.pushWord_word_succ _ _ hk]

/-- The end of the handler: from the saved registers and the interrupt's frame it goes back to the
interrupted context. -/
theorem leave_context {c k : Cpu} (hsp : k.reg .rsp = (run (interrupt c) pushState).reg .rsp)
    (hwords : ∀ i < 20, k.word i = (run (interrupt c) pushState).word i) :
    ContextKept c (iretq (run (run k [.movAl 0x20]) popState)) := by
  have hmov : ∀ i, (run k [.movAl 0x20]).word i = k.word i := fun i =>
    k.set_word _ (by decide) i
  obtain ⟨hregs, hrsp, hrest⟩ := run_pops_pushes (c := interrupt c)
    (show stateRegs.Nodup by decide) (by decide) (by decide)
    (show (run k [.movAl 0x20]).reg .rsp = _ from (k.set_reg_of_ne _ (by decide)).trans hsp)
    fun i hi => (hmov i).trans (hwords i (hi.trans (by decide)))
  have hframe : ∀ i < 5, (run (run k [.movAl 0x20]) popState).word i = (interrupt c).word i :=
    fun i hi => by
      have habove : (run (interrupt c) (pushes stateRegs)).word (i + stateRegs.length) =
          (interrupt c).word i :=
        run_pushes_word (by simp only [stateRegs, List.length]; omega)
      rw [popState_eq, hrest, hmov, ← habove]
      exact hwords _ (by simp only [stateRegs, List.length]; omega)
  obtain ⟨hrip, hsp', -⟩ := iretq_interrupt hframe
  refine ⟨fun r => ?_, hrip⟩
  by_cases hr : r = .rsp
  · exact hr ▸ hsp'
  · rw [iretq_reg hr, popState_eq, hregs r (mem_stateRegs hr), interrupt_reg hr]

/-- The place of `rsp` in the snapshot holds the address 120 bytes above the interrupt's frame, and
not the interrupted `rsp`. -/
theorem snapshot_rsp {c k : Cpu} (hsp : k.reg .rsp = (run (interrupt c) pushState).reg .rsp) :
    ¬ SnapshotOf c (iretq (run (run (run k (popState ++ snapshot ++ pushState)) [.movAl 0x20])
      popState)) := by
  intro h
  have hpopped : (run k popState).reg .rsp = (interrupt c).reg .rsp := by
    rw [popState_eq, run_pops_rsp (by decide), hsp, pushState, run_pushes_rsp, List.length_reverse]
    bv_omega
  have hdata : (iretq (run (run (run k (popState ++ snapshot ++ pushState)) [.movAl 0x20])
      popState)).data 8 = (interrupt c).reg .rsp + 120 := by
    have hsnapshot : (run (run k popState) snapshot).data 8 = (run k popState).reg .rsp + 120 := by
      simp [snapshot, Instr.exec, Function.update]
    rw [iretq_data, popState_eq, run_pops_data, run_cons, run_nil, Instr.exec, Cpu.set_data,
      run_append, run_append, pushState, run_pushes_data, ← popState_eq, hsnapshot, hpopped]
  have hexpected := h 8 (by decide)
  rw [hdata] at hexpected
  exact interrupt_rsp_add_ne (c := c) (d := 120) (by decide) (by decide)
    (Option.some.inj hexpected).symm

/-- The keyboard interrupt gives the interrupted context back, with the right snapshot if it takes
one, if and only if the key is not the one that takes a snapshot. -/
theorem irq01_returns_context (saveKey : Cpu → Cpu)
    (hsave : ∀ entry, Returns 0 20 entry (saveKey entry)) (back : Word) (polls : List (BitVec 8))
    (hready : Ready polls) (key : BitVec 8) (c : Cpu) :
    ∃ c', irq01Handler saveKey back polls key (interrupt c) = some c' ∧
      (ContextKept c c' ∧ (key = 0b111000 → SnapshotOf c c') ↔ key ≠ 0b111000) := by
  obtain ⟨k, hk, hal, hreg, hword, hdata⟩ :=
    @keyPressed_ready key polls hready back (run (interrupt c) pushState)
  have hsp := hreg .rsp (by decide)
  refine ⟨_, by rw [irq01Handler, hk]; rfl, ?_⟩
  simp only [hal]
  by_cases hkey : key = 0b111000
  · rw [if_pos hkey]
    exact iff_of_false (fun h => snapshot_rsp hsp (h.2 hkey)) (fun h => h hkey)
  · rw [if_neg hkey]
    refine iff_of_true ⟨leave_context ?_ fun i hi => ?_, fun h => absurd h hkey⟩ hkey
    · have hreturns := hsave ((run k [.mov .rdi .rax]).pushWord back)
      rw [Returns.rsp_call hreturns]
      exact (k.set_reg_of_ne _ (by decide)).trans hsp
    · have hreturns := hsave ((run k [.mov .rdi .rax]).pushWord back)
      rw [Returns.word_call hreturns (Nat.zero_le i) (by omega) (by omega)]
      exact (k.set_word _ (by decide) i).trans (hword i (by omega))

/-- A program about to run the instruction at `0x400010`, with 42 in `rax` and an empty stack. -/
def someContext : Cpu where
  reg := Function.update (Function.update (fun _ => 0) .rsp 0x7008) .rax 42
  rip := 0x400010
  cs := 0x08
  ss := 0x10
  rflags := 0x202
  stack := fun _ => 0
  data := fun _ => 0

/-- The key `a`, read at the second look at the status port. -/
theorem irq01_returns_context_key :
    ∃ c', irq01Handler Cpu.dropWord 0x100f [0, 1] 0x1e (interrupt someContext) = some c' ∧
      ContextKept someContext c' := by
  obtain ⟨c', hc', hiff⟩ := irq01_returns_context Cpu.dropWord (returns_dropWord 0 20) 0x100f [0, 1]
    ⟨1, by decide, by decide⟩ 0x1e someContext
  exact ⟨c', hc', (hiff.mpr (by decide)).1⟩

/-- The left Alt key: the program goes on with another `rax`. -/
theorem alt_key_loses_rax :
    ¬ ∀ c', irq01Handler Cpu.dropWord 0x100f [1] 0b111000 (interrupt someContext) = some c' →
      ContextKept someContext c' ∧ SnapshotOf someContext c' := by
  intro hclaim
  have hrax : (irq01Handler Cpu.dropWord 0x100f [1] 0b111000 (interrupt someContext)).map
      (fun c' => c'.reg .rax) = some 0 := by decide +kernel
  obtain ⟨c', hc', hzero⟩ := Option.map_eq_some_iff.mp hrax
  have hkept := (hclaim c' hc').1.1 .rax
  rw [hzero] at hkept
  exact absurd hkept (by decide)

end TronKernel.Interrupt
