import Mathlib.Logic.Function.Basic
import Mathlib.Data.Nat.Basic
import Mathlib.Tactic.Ring

/-!
# Byte memory with little-endian words

A memory gives a byte to every address. `loadLE` and `storeLE` read and write `n` consecutive bytes
as one little-endian number. A word reads back what was stored (`loadLE_storeLE`), a store touches
only its own bytes (`storeLE_frame`), and words on disjoint ranges do not interfere
(`loadLE_storeLE_of_disjoint`).
-/

namespace TronKernel

/-- A byte for every address. -/
abbrev Mem := ℕ → UInt8

namespace Mem

/-- The little-endian number in the `n` bytes from `a` on. -/
def loadLE (m : Mem) (a : ℕ) : ℕ → ℕ
  | 0 => 0
  | n + 1 => (m a).toNat + 256 * loadLE m (a + 1) n

/-- Write the low `n` bytes of `v` from `a` on, least significant byte first. -/
def storeLE (m : Mem) (a : ℕ) : ℕ → ℕ → Mem
  | 0, _ => m
  | n + 1, v => storeLE (Function.update m a (UInt8.ofNat v)) (a + 1) n (v / 256)

/-- A store changes no byte outside its range. -/
theorem storeLE_frame {m : Mem} {a n v x : ℕ} (h : x < a ∨ a + n ≤ x) :
    storeLE m a n v x = m x := by
  induction n generalizing m a v with
  | zero => rfl
  | succ n ih =>
    rw [storeLE, ih (by omega), Function.update_of_ne (by omega)]

/-- A load depends on the bytes of its range only. -/
theorem loadLE_congr {m m' : Mem} {a n : ℕ} (h : ∀ x, a ≤ x → x < a + n → m' x = m x) :
    loadLE m' a n = loadLE m a n := by
  induction n generalizing a with
  | zero => rfl
  | succ n ih =>
    rw [loadLE, loadLE, h a (by omega) (by omega), ih fun x h₁ h₂ => h x (by omega) (by omega)]

theorem loadLE_lt (m : Mem) (a n : ℕ) : loadLE m a n < 256 ^ n := by
  induction n generalizing a with
  | zero => simp [loadLE]
  | succ n ih =>
    have hbyte : (m a).toNat < 256 := UInt8.toNat_lt (m a)
    have hrest := ih (a + 1)
    rw [loadLE, pow_succ]
    omega

/-- A word reads back the number stored in it, reduced to the word's width. -/
theorem loadLE_storeLE (m : Mem) (a n v : ℕ) : loadLE (storeLE m a n v) a n = v % 256 ^ n := by
  induction n generalizing m a v with
  | zero => simp [loadLE, Nat.mod_one]
  | succ n ih =>
    rw [loadLE, storeLE, ih, storeLE_frame (by omega), Function.update_self, pow_succ]
    rw [Nat.mul_comm (256 ^ n), Nat.mod_mul]
    simp [UInt8.toNat_ofNat']

/-- A store to a disjoint range is invisible to a load. -/
theorem loadLE_storeLE_of_disjoint {m : Mem} {a n v b k : ℕ} (h : a + n ≤ b ∨ b + k ≤ a) :
    loadLE (storeLE m a n v) b k = loadLE m b k :=
  loadLE_congr fun _ h₁ h₂ => storeLE_frame (by omega)

/-- A number is made of the one in its first bytes and the one in the others. -/
theorem loadLE_add (m : Mem) (a n k : ℕ) :
    loadLE m a (n + k) = loadLE m a n + 256 ^ n * loadLE m (a + n) k := by
  induction n generalizing a with
  | zero => simp [loadLE]
  | succ n ih =>
    rw [Nat.add_right_comm, loadLE, loadLE, ih, pow_succ, Nat.add_assoc a 1 n, Nat.add_comm 1 n]
    ring

/-- The 64-bit word at `a`. -/
def load64 (m : Mem) (a : ℕ) : ℕ := loadLE m a 8

/-- Write the 64-bit word at `a`. -/
def store64 (m : Mem) (a v : ℕ) : Mem := storeLE m a 8 v

theorem load64_lt (m : Mem) (a : ℕ) : load64 m a < 2 ^ 64 := loadLE_lt m a 8

theorem store64_frame {m : Mem} {a v x : ℕ} (h : x < a ∨ a + 8 ≤ x) : store64 m a v x = m x :=
  storeLE_frame h

theorem load64_store64_self {v : ℕ} (m : Mem) (a : ℕ) (hv : v < 2 ^ 64) :
    load64 (store64 m a v) a = v := by
  rw [load64, store64, loadLE_storeLE]
  exact Nat.mod_eq_of_lt hv

theorem load64_store64_of_disjoint {m : Mem} {a v b : ℕ} (h : a + 8 ≤ b ∨ b + 8 ≤ a) :
    load64 (store64 m a v) b = load64 m b :=
  loadLE_storeLE_of_disjoint h

/-- Write 64-bit words one behind the other, from `a` on. -/
def storeWords (m : Mem) (a : ℕ) : List ℕ → Mem
  | [] => m
  | v :: vs => storeWords (store64 m a v) (a + 8) vs

theorem storeWords_frame {m : Mem} {a x : ℕ} {vs : List ℕ}
    (h : x < a ∨ a + 8 * vs.length ≤ x) : storeWords m a vs x = m x := by
  induction vs generalizing m a with
  | nil => rfl
  | cons v vs ih =>
    rw [List.length_cons] at h
    rw [storeWords, ih (by omega), store64_frame (by omega)]

/-- Each word reads back. -/
theorem load64_storeWords {m : Mem} {a k v : ℕ} {vs : List ℕ} (hk : vs[k]? = some v)
    (hv : v < 2 ^ 64) : load64 (storeWords m a vs) (a + 8 * k) = v := by
  induction vs generalizing m a k with
  | nil => simp at hk
  | cons w vs ih =>
    cases k with
    | zero =>
      obtain rfl : w = v := by simpa using hk
      have hrest : load64 (storeWords (store64 m a w) (a + 8) vs) a = load64 (store64 m a w) a :=
        loadLE_congr fun x _ hlt => storeWords_frame (by omega)
      rw [storeWords]
      exact hrest.trans (load64_store64_self m a hv)
    | succ k =>
      have hstep : a + 8 * (k + 1) = a + 8 + 8 * k := by omega
      rw [storeWords, hstep]
      exact ih (by simpa using hk)

end Mem

end TronKernel
