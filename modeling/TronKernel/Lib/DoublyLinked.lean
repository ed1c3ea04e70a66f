import Mathlib.Data.List.Basic

/-!
# Doubly linked lists

Cells with a `next` and a `prev` link, either of which may be null. `DList next prev p l` says that
the list whose head pointer is `p` consists of the cells of `l`: the head pointer is the first cell,
each cell's `next` is the cell after it and its `prev` the cell before it, and the links that leave
the list on either side are null.

The two edits are stated for any new links that agree with the old ones where the edit does not
write: `DList.push` puts a cell in front, `DList.unlink` takes one out at any place.
-/

namespace TronKernel.DoublyLinked

variable {α : Type*}

/-- The list with head pointer `p` holds the cells of `l` in order. -/
structure DList (next prev : α → Option α) (p : Option α) (l : List α) : Prop where
  head_eq : p = l.head?
  links : ∀ a x c, l = a ++ x :: c → next x = c.head? ∧ prev x = a.getLast?

variable {next prev next' prev' : α → Option α} {p : Option α} {l : List α} {x : α}

theorem DList.nil : DList next prev none [] :=
  ⟨rfl, fun a x c h => absurd h (by simp)⟩

/-- A list reads only the links of its own cells. -/
theorem DList.congr (h : DList next prev p l) (hnext : ∀ x ∈ l, next' x = next x)
    (hprev : ∀ x ∈ l, prev' x = prev x) : DList next' prev' p l where
  head_eq := h.head_eq
  links a x c hl := by
    have hx : x ∈ l := by rw [hl]; simp
    rw [hnext x hx, hprev x hx]
    exact h.links a x c hl

/-- The cell after a cell of the list is in the list. -/
theorem DList.next_mem (h : DList next prev p l) (hx : x ∈ l) {y : α} (hy : next x = some y) :
    y ∈ l := by
  obtain ⟨a, c, rfl⟩ := List.append_of_mem hx
  rw [(h.links a x c rfl).1] at hy
  have := List.mem_of_head? hy
  simp [this]

/-- The links determine the list. -/
theorem DList.unique {l' : List α} (h : DList next prev p l) (h' : DList next prev p l') :
    l = l' := by
  have hsuffix : ∀ c c' a a', l = a ++ c → l' = a' ++ c' → c.head? = c'.head? → c = c' := by
    intro c
    induction c with
    | nil =>
      intro c' _ _ _ _ hhead
      exact (List.head?_eq_none_iff.mp hhead.symm).symm
    | cons x c ih =>
      intro c' a a' hl hl' hhead
      obtain ⟨d, rfl⟩ := List.head?_eq_some_iff.mp hhead.symm
      have hnext := (h.links a x c hl).1.symm.trans (h'.links a' x d hl').1
      rw [ih d (a ++ [x]) (a' ++ [x]) (by rw [hl, List.append_assoc]; rfl)
        (by rw [hl', List.append_assoc]; rfl) hnext]
  exact hsuffix l l' [] [] rfl rfl (h.head_eq.symm.trans h'.head_eq)

/-- A cell of two appended lists lies in the first or in the second. -/
theorem append_eq_append_cons {l₁ l₂ a c : List α} {y : α} (h : l₁ ++ l₂ = a ++ y :: c) :
    (∃ c₁, l₁ = a ++ y :: c₁ ∧ c = c₁ ++ l₂) ∨ ∃ a₂, a = l₁ ++ a₂ ∧ l₂ = a₂ ++ y :: c := by
  rcases List.append_eq_append_iff.mp h with h₂ | ⟨c₁, hl₁, hc⟩
  · exact Or.inr h₂
  · cases c₁ with
    | nil => exact Or.inr ⟨[], by simpa using hl₁.symm, by simpa using hc.symm⟩
    | cons z c₁ =>
      obtain ⟨rfl, rfl⟩ := List.cons.inj hc
      exact Or.inl ⟨c₁, hl₁, rfl⟩

variable [DecidableEq α]

/-- A new cell in front of the list: the old first cell points back to it. -/
theorem DList.push (h : DList next prev p l) (hnodup : l.Nodup) (hxnext : next' x = p)
    (hxprev : prev' x = none) (hnext : ∀ y ∈ l, next' y = next y)
    (hprev : ∀ y ∈ l, prev' y = if p = some y then some x else prev y) :
    DList next' prev' (some x) (x :: l) where
  head_eq := rfl
  links a y c hl := by
    cases a with
    | nil =>
      obtain ⟨rfl, rfl⟩ := List.cons.inj hl
      exact ⟨hxnext.trans h.head_eq, hxprev⟩
    | cons b a =>
      obtain ⟨rfl, rfl⟩ := List.cons.inj hl
      have hy : y ∈ a ++ y :: c := by simp
      have hold := h.links a y c rfl
      refine ⟨(hnext y hy).trans hold.1, ?_⟩
      rw [hprev y hy, h.head_eq]
      cases a with
      | nil => simp
      | cons z a =>
        -- the first cell is another one, since no cell is listed twice
        have hne : z ≠ y := by
          rintro rfl
          simp at hnodup
        have hhead : ((z :: a).append (y :: c)).head? = some z := rfl
        rw [hhead, if_neg (by simpa using hne), hold.2, List.getLast?_cons_cons]

/-- Taking a cell out: its neighbours point to each other, and the head pointer moves if the cell
was the first one. -/
theorem DList.unlink {l₁ l₂ : List α} (h : DList next prev p (l₁ ++ x :: l₂))
    (hnodup : (l₁ ++ x :: l₂).Nodup)
    (hnext : ∀ y ∈ l₁ ++ l₂, next' y = if prev x = some y then next x else next y)
    (hprev : ∀ y ∈ l₁ ++ l₂, prev' y = if next x = some y then prev x else prev y) :
    DList next' prev' (if prev x = none then next x else p) (l₁ ++ l₂) := by
  obtain ⟨hxnext, hxprev⟩ := h.links l₁ x l₂ rfl
  rw [hxnext, hxprev] at hnext hprev
  rw [hxnext, hxprev]
  obtain ⟨hnodup₁, hnodup₂, hdisj⟩ := List.nodup_append.mp hnodup
  refine ⟨?_, fun a y c hl => ?_⟩
  · rw [h.head_eq]
    cases l₁ with
    | nil => simp
    | cons z l₁ => simp
  have hy : y ∈ l₁ ++ l₂ := by rw [hl]; simp
  rw [hnext y hy, hprev y hy]
  rcases append_eq_append_cons hl with ⟨c₁, rfl, rfl⟩ | ⟨a₂, rfl, rfl⟩
  · -- the cell lies before the one taken out
    have hold := h.links a y (c₁ ++ x :: l₂) (by simp)
    have hnot : l₂.head? ≠ some y := fun hhead =>
      hdisj y (by simp) y (List.mem_cons_of_mem _ (List.mem_of_head? hhead)) rfl
    rw [if_neg hnot, hold.1]
    refine ⟨?_, hold.2⟩
    cases c₁ with
    | nil => simp
    | cons z c₁ =>
      have hne : (a ++ y :: z :: c₁).getLast? ≠ some y := fun hlast => by
        have hmem : y ∈ z :: c₁ := by
          rw [List.getLast?_append] at hlast
          simp only [List.getLast?_cons_cons] at hlast
          refine List.mem_of_getLast? ?_
          simpa [List.getLast?_cons] using hlast
        exact (List.nodup_cons.mp (List.nodup_append.mp hnodup₁).2.1).1 hmem
      rw [if_neg hne]
      simp
  · -- the cell lies behind the one taken out
    have hold := h.links (l₁ ++ x :: a₂) y c (by simp)
    have hnot : l₁.getLast? ≠ some y := fun hlast =>
      hdisj y (List.mem_of_getLast? hlast) y (by simp) rfl
    rw [if_neg hnot]
    refine ⟨hold.1, ?_⟩
    cases a₂ with
    | nil => simp
    | cons z a₂ =>
      have hne : z ≠ y := by
        rintro rfl
        simp at hnodup₂
      rw [List.cons_append, List.head?_cons, if_neg (by simpa using hne), hold.2]
      simp [List.getLast?_append]

end TronKernel.DoublyLinked
