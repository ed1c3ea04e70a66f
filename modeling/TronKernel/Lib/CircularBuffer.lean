import Mathlib.Data.List.Basic
import Mathlib.Data.Nat.ModEq
import Mathlib.Logic.Function.Basic

/-!
# Circular buffers

A buffer of `cap` cells that is indexed by free-running counters, each reduced modulo `cap` at the
access. `window data cap r u` are the `u` cells from counter `r` on. A cell behind the window may be
appended to it as long as the window is not full (`window_push`); reading moves the window's start
(`window_succ`); and only the counter modulo `cap` matters (`window_modEq`).
-/

namespace TronKernel.CircularBuffer

variable {α : Type*} {data : ℕ → α} {cap r u : ℕ}

/-- The `u` cells from counter `r` on. -/
def window (data : ℕ → α) (cap r u : ℕ) : List α :=
  (List.range u).map fun k => data ((r + k) % cap)

@[simp] theorem window_zero : window data cap r 0 = [] := rfl

@[simp] theorem length_window : (window data cap r u).length = u := by simp [window]

/-- The first cell and the rest. -/
theorem window_succ : window data cap r (u + 1) = data (r % cap) :: window data cap (r + 1) u := by
  rw [window, List.range_succ_eq_map, List.map_cons, List.map_map]
  congr 1
  refine List.map_congr_left fun k _ => ?_
  show data ((r + (k + 1)) % cap) = data ((r + 1 + k) % cap)
  congr 2
  omega

/-- The cells before the last one and the last one. -/
theorem window_succ_last :
    window data cap r (u + 1) = window data cap r u ++ [data ((r + u) % cap)] := by
  simp [window, List.range_succ]

theorem window_modEq {r' : ℕ} (h : r % cap = r' % cap) :
    window data cap r u = window data cap r' u := by
  refine List.map_congr_left fun k _ => ?_
  rw [Nat.add_mod, h, ← Nat.add_mod]

/-- A write outside of the window. -/
theorem window_update {i : ℕ} (a : α) (h : ∀ k < u, (r + k) % cap ≠ i) :
    window (Function.update data i a) cap r u = window data cap r u := by
  refine List.map_congr_left fun k hk => ?_
  rw [Function.update_of_ne (h k (List.mem_range.mp hk))]

/-- The cell behind a window that is not full is not one of its cells. -/
theorem behind_ne (hu : u < cap) : ∀ k < u, (r + k) % cap ≠ (r + u) % cap := by
  intro k hk heq
  have h : k ≡ u [MOD cap] := Nat.ModEq.add_left_cancel' r heq
  have := Nat.ModEq.eq_of_lt_of_lt h (by omega) hu
  omega

/-- Writing the cell behind a window that is not full appends to it. -/
theorem window_push (a : α) (hu : u < cap) :
    window (Function.update data ((r + u) % cap) a) cap r (u + 1) = window data cap r u ++ [a] := by
  rw [window_succ_last, window_update a (behind_ne hu), Function.update_self]

end TronKernel.CircularBuffer
