import Mathlib.Data.Nat.Basic

/-!
# A counting semaphore as a lock

`Exclusive value inside` is the invariant of a semaphore that starts at one and is taken before and
given back after a critical section: no two agents are inside, and the semaphore is zero while one
is. Every wait, every post and every other step keeps it.
-/

namespace TronKernel.Lock

variable {α : Type*} {value : ℕ} {inside inside' : α → Prop}

/-- At most one agent is inside, and only while the semaphore is zero. -/
structure Exclusive (value : ℕ) (inside : α → Prop) : Prop where
  value_le : value ≤ 1
  value_zero : ∀ a, inside a → value = 0
  alone : ∀ a b, inside a → inside b → a = b

/-- Steps that let nobody in keep the lock. -/
theorem Exclusive.mono (h : Exclusive value inside) (hin : ∀ a, inside' a → inside a) :
    Exclusive value inside' where
  value_le := h.value_le
  value_zero a ha := h.value_zero a (hin a ha)
  alone a b ha hb := h.alone a b (hin a ha) (hin b hb)

/-- The agent `a` waits for the semaphore and goes in. -/
theorem Exclusive.acquire (h : Exclusive (value + 1) inside) {a : α}
    (hin : ∀ b, inside' b → b = a ∨ inside b) : Exclusive value inside' := by
  have hnobody : ∀ b, ¬ inside b := fun b hb => absurd (h.value_zero b hb) (Nat.succ_ne_zero value)
  have honly : ∀ b, inside' b → b = a := fun b hb => (hin b hb).resolve_right (hnobody b)
  have hzero : value = 0 := Nat.le_zero.mp (Nat.le_of_succ_le_succ h.value_le)
  refine ⟨?_, fun _ _ => hzero, ?_⟩
  · rw [hzero]
    exact Nat.zero_le 1
  · intro b c hb hc
    rw [honly b hb, honly c hc]

/-- The agent `a` goes out and posts the semaphore. -/
theorem Exclusive.release (h : Exclusive value inside) {a : α} (ha : inside a)
    (hout : ∀ b, inside' b → b ≠ a ∧ inside b) : Exclusive (value + 1) inside' := by
  have hnobody : ∀ b, ¬ inside' b := fun b hb => (hout b hb).1 (h.alone b a (hout b hb).2 ha)
  refine ⟨?_, fun b hb => absurd hb (hnobody b), fun b _ hb => absurd hb (hnobody b)⟩
  rw [h.value_zero a ha]

end TronKernel.Lock
