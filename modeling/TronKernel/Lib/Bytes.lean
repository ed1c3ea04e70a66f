import TronKernel.Lib.Memory
import Mathlib.Data.List.Basic
import Mathlib.Order.Interval.Set.Basic

/-!
# Byte strings in memory

`Holds m a bs` says that the bytes `bs` lie in the memory `m` from the address `a` on. A string laid
out as an append splits there (`holds_append`), a held string depends on its own range only
(`Holds.congr`), and a held little-endian number is what a load reads (`Holds.loadLE`). `CString` is
a string with the byte zero behind it, and `copied` the memory after a copy between ranges that do
not meet.
-/

namespace TronKernel.Mem

/-- The `n` bytes of a number, least significant byte first. -/
def bytesLE : ℕ → ℕ → List UInt8
  | 0, _ => []
  | n + 1, v => UInt8.ofNat v :: bytesLE n (v / 256)

/-- The bytes `bs` lie in memory from the address `a` on. -/
def Holds (m : Mem) (a : ℕ) : List UInt8 → Prop
  | [] => True
  | b :: bs => m a = b ∧ Holds m (a + 1) bs

/-- The memory in which the `n` bytes from `d` on are those that `m` has from `s` on. -/
def copied (m : Mem) (d s n : ℕ) : Mem :=
  fun x => if d ≤ x ∧ x < d + n then m (s + (x - d)) else m x

variable {m m' : Mem} {a d s n : ℕ} {bs cs : List UInt8}

@[simp] theorem length_bytesLE (n v : ℕ) : (bytesLE n v).length = n := by
  induction n generalizing v with
  | zero => rfl
  | succ n ih => rw [bytesLE, List.length_cons, ih]

@[simp] theorem holds_nil : Holds m a [] := trivial

@[simp] theorem holds_cons {b : UInt8} : Holds m a (b :: bs) ↔ m a = b ∧ Holds m (a + 1) bs :=
  Iff.rfl

theorem holds_append : Holds m a (bs ++ cs) ↔ Holds m a bs ∧ Holds m (a + bs.length) cs := by
  induction bs generalizing a with
  | nil => simp
  | cons b bs ih =>
    have hshift : a + 1 + bs.length = a + (b :: bs).length := by
      rw [List.length_cons]
      ring
    rw [List.cons_append, holds_cons, holds_cons, ih, hshift, and_assoc]

/-- A held string, byte by byte. -/
theorem holds_iff_getElem : Holds m a bs ↔ ∀ i (hi : i < bs.length), m (a + i) = bs[i] := by
  induction bs generalizing a with
  | nil => simp
  | cons b bs ih =>
    rw [holds_cons, ih]
    constructor
    · rintro ⟨hhead, htail⟩ i hi
      cases i with
      | zero => exact hhead
      | succ i =>
        rw [List.getElem_cons_succ, ← htail i (by simpa using hi)]
        congr 1
        omega
    · intro h
      refine ⟨h 0 (by simp), fun i hi => ?_⟩
      have hnext := h (i + 1) (by simpa using hi)
      rw [List.getElem_cons_succ] at hnext
      rw [← hnext]
      congr 1
      omega

/-- A held string depends on the bytes of its own range only. -/
theorem Holds.congr (h : Holds m a bs) (heq : ∀ x, a ≤ x → x < a + bs.length → m' x = m x) :
    Holds m' a bs := by
  induction bs generalizing a with
  | nil => trivial
  | cons b bs ih =>
    rw [List.length_cons] at heq
    refine ⟨(heq a (by omega) (by omega)).trans h.1, ih h.2 ?_⟩
    intro x hle hlt
    exact heq x (by omega) (by omega)

/-- A copy of a held string is held where it was copied to. -/
theorem Holds.copy (h : Holds m s bs) (heq : ∀ x < bs.length, m' (d + x) = m (s + x)) :
    Holds m' d bs := by
  induction bs generalizing d s with
  | nil => trivial
  | cons b bs ih =>
    rw [List.length_cons] at heq
    refine ⟨(heq 0 (by omega)).trans h.1, ih h.2 ?_⟩
    intro x hlt
    have := heq (x + 1) (by omega)
    rwa [Nat.add_right_comm, Nat.add_right_comm s, Nat.add_assoc d, Nat.add_assoc s]

/-- Every string is held by the memory that consists of it. -/
theorem holds_getD (bs : List UInt8) (a : ℕ) : Holds (fun x => bs.getD (x - a) 0) a bs := by
  suffices h : ∀ (cs bs : List UInt8),
      Holds (fun x => (cs ++ bs).getD (x - a) 0) (a + cs.length) bs from h [] bs
  intro cs bs
  induction bs generalizing cs with
  | nil => trivial
  | cons b bs ih =>
    refine ⟨by simp, ?_⟩
    have hrest := ih (cs ++ [b])
    rwa [List.append_assoc, List.length_append] at hrest

/-- The string at `a`, up to the byte zero that ends it. -/
def CString (m : Mem) (a : ℕ) (cs : List UInt8) : Prop := Holds m a (cs ++ [0]) ∧ 0 ∉ cs

/-- There is one string at most at an address. -/
theorem CString.unique (h : CString m a bs) (h' : CString m a cs) : bs = cs := by
  induction bs generalizing a cs with
  | nil =>
    cases cs with
    | nil => rfl
    | cons c cs => exact absurd (h.1.1.symm.trans h'.1.1) fun heq => h'.2 (by simp [heq])
  | cons b bs ih =>
    cases cs with
    | nil => exact absurd (h'.1.1.symm.trans h.1.1) fun heq => h.2 (by simp [heq])
    | cons c cs =>
      have hrest : bs = cs := by
        apply ih ⟨h.1.2, fun hmem => h.2 (List.mem_cons_of_mem b hmem)⟩
        exact ⟨h'.1.2, fun hmem => h'.2 (List.mem_cons_of_mem c hmem)⟩
      rw [hrest, h.1.1.symm.trans h'.1.1]

/-- A load reads the number whose bytes are held. -/
theorem Holds.loadLE {v : ℕ} (h : Holds m a (bytesLE n v)) : loadLE m a n = v % 256 ^ n := by
  induction n generalizing a v with
  | zero => simp [Mem.loadLE, Nat.mod_one]
  | succ n ih =>
    rw [Mem.loadLE, h.1, ih h.2, pow_succ, Nat.mul_comm (256 ^ n), Nat.mod_mul]
    simp [UInt8.toNat_ofNat']

/-- A word stored from a load carries the loaded bytes over. -/
theorem storeLE_loadLE (m m' : Mem) (a b n x : ℕ) (hle : a ≤ x) (hlt : x < a + n) :
    storeLE m a n (Mem.loadLE m' b n) x = m' (b + (x - a)) := by
  induction n generalizing m a b with
  | zero => omega
  | succ n ih =>
    have hlow : (Mem.loadLE m' b (n + 1)) / 256 = Mem.loadLE m' (b + 1) n := by
      have hbyte : (m' b).toNat < 256 := UInt8.toNat_lt (m' b)
      rw [Mem.loadLE]
      omega
    rw [storeLE, hlow]
    by_cases hx : x = a
    · have hhead : UInt8.ofNat (Mem.loadLE m' b (n + 1)) = m' b := by
        rw [Mem.loadLE, UInt8.ofNat_add, UInt8.ofNat_mul]
        simp
      rw [storeLE_frame (by omega), hx, Function.update_self, hhead, Nat.sub_self, Nat.add_zero]
    · rw [ih _ (a + 1) (b + 1) (by omega) (by omega)]
      congr 1
      omega

/-- A word of a copy is the word it was copied from. -/
theorem load64_copied {i : ℕ} (hi : i + 8 ≤ n) :
    load64 (copied m d s n) (d + i) = load64 m (s + i) := by
  suffices h : ∀ k j, j + k ≤ n →
      Mem.loadLE (copied m d s n) (d + j) k = Mem.loadLE m (s + j) k from h 8 i hi
  intro k
  induction k with
  | zero => exact fun _ _ => rfl
  | succ k ih =>
    intro j hj
    have hbyte : copied m d s n (d + j) = m (s + j) := by
      rw [copied, if_pos (by omega), Nat.add_sub_cancel_left]
    have hrest := ih (j + 1) (by omega)
    rw [← Nat.add_assoc, ← Nat.add_assoc] at hrest
    rw [Mem.loadLE, Mem.loadLE, hbyte, hrest]

end TronKernel.Mem
