import TronKernel.Lib.LinkedList
import Mathlib.Data.List.Rotate

/-!
# Circular linked lists

`IsRing next l` says that following `next` from the first cell of `l` visits the cells of `l` in
order and comes back to the first one. Where the list starts does not matter (`IsRing.rotated`), so
an edit at a cell is stated for a list that starts there: `IsRing.insert` puts a cell behind the
first one, `IsRing.remove` takes the second one out.
-/

namespace TronKernel.CircularList

open LinkedList

variable {α : Type*} {next next' : α → α} {a b : α} {l l' : List α}

/-- The cells of the list form a ring in this order. -/
def IsRing (next : α → α) : List α → Prop
  | [] => False
  | a :: l => Seg next (next a) l a

theorem IsRing.ne_nil (h : IsRing next l) : l ≠ [] := by
  rintro rfl
  exact h

theorem isRing_singleton : IsRing next [a] ↔ next a = a := Iff.rfl

/-- The second cell is behind the first one. -/
theorem IsRing.next_eq (h : IsRing next (a :: b :: l)) : next a = b := h.1

/-- Links that agree on the cells give the same ring. -/
theorem IsRing.congr (h : IsRing next l) (heq : ∀ x ∈ l, next' x = next x) : IsRing next' l := by
  cases l with
  | nil => exact h
  | cons a l =>
    rw [IsRing, heq a (by simp)]
    exact Seg.congr h fun x hx => heq x (by simp [hx])

/-- A ring may be entered anywhere. -/
theorem IsRing.append_comm {xs ys : List α} (h : IsRing next (xs ++ ys)) :
    IsRing next (ys ++ xs) := by
  cases xs with
  | nil => simpa using h
  | cons a xs =>
    cases ys with
    | nil => simpa using h
    | cons b ys =>
      obtain ⟨hxs, hys⟩ := seg_append_cons.mp (show Seg next (next a) (xs ++ b :: ys) a from h)
      exact seg_append_cons.mpr ⟨hys, hxs⟩

theorem IsRing.rotated (h : IsRing next l) (hr : l.IsRotated l') : IsRing next l' := by
  obtain ⟨n, hn, rfl⟩ := List.isRotated_iff_mod.mp hr
  rw [List.rotate_eq_drop_append_take hn]
  exact IsRing.append_comm (by rwa [List.take_append_drop])

/-- A ring can be entered at each of its cells. -/
theorem exists_isRotated_cons (ha : a ∈ l) : ∃ l', l.IsRotated (a :: l') := by
  obtain ⟨xs, ys, rfl⟩ := List.append_of_mem ha
  exact ⟨ys ++ xs, by simpa using @List.isRotated_append _ xs (a :: ys)⟩

/-- The cell behind the first one leaves the ring. -/
theorem IsRing.remove (h : IsRing next (a :: b :: l)) (ha : next' a = next b)
    (heq : ∀ x ∈ l, next' x = next x) : IsRing next' (a :: l) := by
  obtain ⟨-, hl⟩ := h
  rw [IsRing, ha]
  exact hl.congr heq

/-- A new cell enters the ring behind the first one. -/
theorem IsRing.insert (h : IsRing next (a :: l)) (ha : next' a = b) (hb : next' b = next a)
    (heq : ∀ x ∈ l, next' x = next x) : IsRing next' (a :: b :: l) := by
  refine ⟨ha, ?_⟩
  rw [hb]
  exact Seg.congr h heq

/-- The link of a cell stays in the ring. -/
theorem IsRing.next_mem (h : IsRing next l) (ha : a ∈ l) : next a ∈ l := by
  obtain ⟨l', hr⟩ := exists_isRotated_cons ha
  have hring := h.rotated hr
  rw [hr.mem_iff]
  cases l' with
  | nil => exact List.mem_singleton.mpr (isRing_singleton.mp hring)
  | cons b l' => exact hring.next_eq ▸ by simp

/-- A ring determines the links of its cells. -/
theorem IsRing.next_unique (h : IsRing next l) (h' : IsRing next' l) (ha : a ∈ l) :
    next' a = next a := by
  obtain ⟨l', hr⟩ := exists_isRotated_cons ha
  have hring := h.rotated hr
  have hring' := h'.rotated hr
  cases l' with
  | nil => exact (isRing_singleton.mp hring').trans (isRing_singleton.mp hring).symm
  | cons b l' => exact hring'.next_eq.trans hring.next_eq.symm

end TronKernel.CircularList
