import TronKernel.Lib.Memory
import Mathlib.Data.List.Nodup

/-!
# `Kernel/idtLoader.c`: the interrupt descriptor table

A gate of the table has 16 bytes, in which the address of its handler lies in three pieces. The
table is at address 0. `gateAt` reads a gate as the processor does, and `load_idt` leaves the gates
of its five vectors with their handlers, and nothing else of the memory changed (`load_idt_exact`).
-/

namespace TronKernel.Interrupt

open Mem

/-! ## The code -/

/-- The size of a `DESCR_INT`, which is packed. -/
abbrev sizeofDescrInt : ℕ := 16

def ACS_PRESENT : ℕ := 0x80

def ACS_INT_386 : ℕ := 0x0E

def ACS_INT : ℕ := ACS_PRESENT ||| ACS_INT_386

/-- `setup_IDT_entry`, with one store for each field of `idt[index]`. -/
def setupIDTEntry (m : Mem) (index offset : ℕ) : Mem :=
  let entry := sizeofDescrInt * index
  let m := storeLE m entry 2 (offset &&& 0xFFFF)
  let m := storeLE m (entry + 2) 2 0x08
  let m := storeLE m (entry + 4) 1 0
  let m := storeLE m (entry + 5) 1 ACS_INT
  let m := storeLE m (entry + 6) 2 (offset >>> 16 &&& 0xFFFF)
  let m := storeLE m (entry + 8) 4 (offset >>> 32 &&& 0xFFFFFFFF)
  storeLE m (entry + 12) 4 0

/-- The addresses of the handlers. -/
structure Handlers where
  irq00Handler : ℕ
  irq01Handler : ℕ
  exception0Handler : ℕ
  exception6Handler : ℕ
  syscallINTHandler : ℕ

/-- `load_idt`, as far as it writes to the memory. -/
def loadIdt (h : Handlers) (m : Mem) : Mem :=
  let m := setupIDTEntry m 0x20 h.irq00Handler
  let m := setupIDTEntry m 0x21 h.irq01Handler
  let m := setupIDTEntry m 0x00 h.exception0Handler
  let m := setupIDTEntry m 0x06 h.exception6Handler
  setupIDTEntry m 0x80 h.syscallINTHandler

/-! ## What the processor reads -/

/-- An interrupt gate. -/
structure Gate where
  offset : ℕ
  selector : ℕ
  stackTable : ℕ
  access : ℕ
  reserved : ℕ
deriving DecidableEq

/-- Gate `index` of the table. -/
def gateAt (m : Mem) (index : ℕ) : Gate where
  offset := loadLE m (16 * index) 2 + 2 ^ 16 * loadLE m (16 * index + 6) 2 +
    2 ^ 32 * loadLE m (16 * index + 8) 4
  selector := loadLE m (16 * index + 2) 2
  stackTable := loadLE m (16 * index + 4) 1
  access := loadLE m (16 * index + 5) 1
  reserved := loadLE m (16 * index + 12) 4

/-- The gate of a handler in the kernel's code segment: present, for ring 0, an interrupt gate that
switches no stack. -/
def interruptGate (offset : ℕ) : Gate := ⟨offset, 0x08, 0, 0x8E, 0⟩

/-- The vectors and their handlers. -/
def Handlers.vectors (h : Handlers) : List (ℕ × ℕ) :=
  [(0x20, h.irq00Handler), (0x21, h.irq01Handler), (0x00, h.exception0Handler),
    (0x06, h.exception6Handler), (0x80, h.syscallINTHandler)]

/-! ## One entry -/

variable {m : Mem} {index offset k a : ℕ}

/-- A gate reads its own 16 bytes. -/
theorem gateAt_congr {m' : Mem} (h : ∀ x, 16 * index ≤ x → x < 16 * index + 16 → m' x = m x) :
    gateAt m' index = gateAt m index := by
  have hload : ∀ d n, d + n ≤ 16 →
      loadLE m' (16 * index + d) n = loadLE m (16 * index + d) n :=
    fun d n hd => loadLE_congr fun x hle hlt => h x (by omega) (by omega)
  simp only [gateAt, hload 2 2 (by decide), hload 4 1 (by decide), hload 5 1 (by decide),
    hload 6 2 (by decide), hload 8 4 (by decide), hload 12 4 (by decide)]
  rw [show loadLE m' (16 * index) 2 = loadLE m (16 * index) 2 from hload 0 2 (by decide)]

/-- An entry has 16 bytes. -/
theorem setupIDTEntry_frame (h : a < 16 * index ∨ 16 * index + 16 ≤ a) :
    setupIDTEntry m index offset a = m a := by
  have hframe : ∀ (m : Mem) d n v, d + n ≤ 16 →
      storeLE m (16 * index + d) n v a = m a :=
    fun m d n v hd => storeLE_frame (by omega)
  simp only [setupIDTEntry, sizeofDescrInt]
  rw [hframe _ 12 4 _ (by decide), hframe _ 8 4 _ (by decide), hframe _ 6 2 _ (by decide),
    hframe _ 5 1 _ (by decide), hframe _ 4 1 _ (by decide), hframe _ 2 2 _ (by decide)]
  exact hframe m 0 2 _ (by decide)

/-- The three pieces of an address. -/
theorem pieces_eq (h : offset < 2 ^ 64) : (offset &&& 0xFFFF) % 256 ^ 2 +
    2 ^ 16 * ((offset >>> 16 &&& 0xFFFF) % 256 ^ 2) +
      2 ^ 32 * ((offset >>> 32 &&& 0xFFFFFFFF) % 256 ^ 4) = offset := by
  rw [show (0xFFFF : ℕ) = 2 ^ 16 - 1 from rfl, show (0xFFFFFFFF : ℕ) = 2 ^ 32 - 1 from rfl,
    Nat.and_two_pow_sub_one_eq_mod, Nat.and_two_pow_sub_one_eq_mod,
    Nat.and_two_pow_sub_one_eq_mod, Nat.shiftRight_eq_div_pow, Nat.shiftRight_eq_div_pow]
  omega

/-- The gate that is set up is the one of the handler. -/
theorem gateAt_setupIDTEntry (m : Mem) (index : ℕ) (h : offset < 2 ^ 64) :
    gateAt (setupIDTEntry m index offset) index = interruptGate offset := by
  have hpieces := pieces_eq h
  simp only [gateAt, setupIDTEntry, sizeofDescrInt]
  simp (disch := omega) only [loadLE_storeLE_of_disjoint, loadLE_storeLE]
  rw [hpieces]
  rfl

/-- Another gate is left alone. -/
theorem gateAt_setup_of_ne (m : Mem) (offset : ℕ) (h : k ≠ index) :
    gateAt (setupIDTEntry m index offset) k = gateAt m k :=
  gateAt_congr fun _ _ _ => setupIDTEntry_frame (by omega)

/-! ## The table -/

/-- Entries that are set up one after the other. -/
def setupAll (m : Mem) (entries : List (ℕ × ℕ)) : Mem :=
  entries.foldl (fun m e => setupIDTEntry m e.1 e.2) m

theorem loadIdt_eq (h : Handlers) (m : Mem) : loadIdt h m = setupAll m h.vectors := rfl

/-- An index that does not occur keeps its gate. -/
theorem gateAt_setupAll_of_notMem (entries : List (ℕ × ℕ)) (h : k ∉ entries.map Prod.fst) :
    gateAt (setupAll m entries) k = gateAt m k := by
  induction entries generalizing m with
  | nil => rfl
  | cons e entries ih =>
    rw [List.map_cons, List.mem_cons, not_or] at h
    exact (ih h.2).trans (gateAt_setup_of_ne m e.2 h.1)

/-- The order of the entries does not matter as long as no index occurs twice. -/
theorem gateAt_setupAll {entries : List (ℕ × ℕ)} (hnodup : (entries.map Prod.fst).Nodup)
    (hlt : ∀ e ∈ entries, e.2 < 2 ^ 64) (hmem : (index, offset) ∈ entries) :
    gateAt (setupAll m entries) index = interruptGate offset := by
  induction entries generalizing m with
  | nil => exact absurd hmem List.not_mem_nil
  | cons e entries ih =>
    rw [List.map_cons, List.nodup_cons] at hnodup
    rcases List.mem_cons.mp hmem with rfl | hmem
    · exact (gateAt_setupAll_of_notMem entries hnodup.1).trans
        (gateAt_setupIDTEntry m index (hlt _ List.mem_cons_self))
    · exact ih hnodup.2 (fun e he => hlt e (List.mem_cons_of_mem _ he)) hmem

theorem setupAll_frame (entries : List (ℕ × ℕ))
    (h : ∀ e ∈ entries, a < 16 * e.1 ∨ 16 * e.1 + 16 ≤ a) : setupAll m entries a = m a := by
  induction entries generalizing m with
  | nil => rfl
  | cons e entries ih =>
    exact (ih fun e he => h e (List.mem_cons_of_mem _ he)).trans
      (setupIDTEntry_frame (h e List.mem_cons_self))

/-- After `load_idt` the processor finds the handler of each of the five vectors, and no byte
outside their gates has changed. -/
theorem load_idt_exact (h : Handlers) (m : Mem) (hlt : ∀ e ∈ h.vectors, e.2 < 2 ^ 64) :
    (∀ e ∈ h.vectors, gateAt (loadIdt h m) e.1 = interruptGate e.2) ∧
      ∀ a, (∀ e ∈ h.vectors, a < 16 * e.1 ∨ 16 * e.1 + 16 ≤ a) → loadIdt h m a = m a := by
  have hnodup : (h.vectors.map Prod.fst).Nodup := by
    show [0x20, 0x21, 0x00, 0x06, 0x80].Nodup
    decide
  rw [loadIdt_eq]
  exact ⟨fun e he => gateAt_setupAll hnodup hlt he, fun a ha => setupAll_frame _ ha⟩

/-- The system call's gate, with the handlers in the kernel's image. -/
theorem load_idt_exact_syscall :
    gateAt (loadIdt ⟨0x100100, 0x100180, 0x100200, 0x100240, 0x100280⟩ fun _ => 0xFF) 0x80 =
      interruptGate 0x100280 :=
  (load_idt_exact ⟨0x100100, 0x100180, 0x100200, 0x100240, 0x100280⟩ (fun _ => 0xFF)
    (by decide)).1 (0x80, 0x100280) (by decide)

end TronKernel.Interrupt
