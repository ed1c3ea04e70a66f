import Mathlib.Data.List.Basic

/-!
# Singly linked lists and the loops that walk them

A memory of cells is seen through its link function `next`. `Seg next p l q` says that following
`next` from `p` visits exactly the cells of `l` and then arrives at `q`; a list that ends at the
null address `0` is `Chain`. `advance` is the search loop every such list is walked with:

    while (p != NULL && go(p)) { previous = p; p = p->next; }

The loop carries fuel and answers `none` when the fuel runs out. On a chain with fewer cells than
fuel it ends (`advance_chain`), at the first cell the test rejects.
-/

namespace TronKernel.LinkedList

/-- Following `next` from `p` visits the cells of the list and then arrives at the last address. -/
def Seg {α : Type*} (next : α → α) : α → List α → α → Prop
  | p, [], q => p = q
  | p, x :: l, q => p = x ∧ Seg next (next x) l q

section Seg

variable {α : Type*} {next next' : α → α} {p q : α}

@[simp] theorem seg_nil : Seg next p [] q ↔ p = q := Iff.rfl

@[simp] theorem seg_cons {x : α} {l : List α} :
    Seg next p (x :: l) q ↔ p = x ∧ Seg next (next x) l q := Iff.rfl

theorem seg_append {l₁ l₂ : List α} :
    Seg next p (l₁ ++ l₂) q ↔ ∃ r, Seg next p l₁ r ∧ Seg next r l₂ q := by
  induction l₁ generalizing p with
  | nil => simp
  | cons x l₁ ih => simp [ih, and_assoc]

/-- Splitting a segment at a visited cell. -/
theorem seg_append_cons {l₁ l₂ : List α} {x : α} :
    Seg next p (l₁ ++ x :: l₂) q ↔ Seg next p l₁ x ∧ Seg next (next x) l₂ q := by
  simp [seg_append]

/-- A segment reads only the links of its own cells. -/
theorem Seg.congr {l : List α} (h : Seg next p l q) (heq : ∀ x ∈ l, next' x = next x) :
    Seg next' p l q := by
  induction l generalizing p with
  | nil => exact h
  | cons x l ih =>
    obtain ⟨rfl, htail⟩ := h
    refine ⟨rfl, ?_⟩
    rw [heq p (by simp)]
    exact ih htail fun y hy => heq y (by simp [hy])

/-- Redirecting the last link of a segment moves its end. -/
theorem Seg.redirect {l : List α} {x r : α} (h : Seg next p (l ++ [x]) q)
    (heq : ∀ y ∈ l, next' y = next y) (hx : next' x = r) : Seg next' p (l ++ [x]) r := by
  rw [seg_append_cons] at h ⊢
  exact ⟨h.1.congr heq, hx⟩

end Seg

/-- A linked list of non-null cells that ends at the null address. -/
structure Chain (next : ℕ → ℕ) (p : ℕ) (l : List ℕ) : Prop where
  seg : Seg next p l 0
  ne_zero : ∀ x ∈ l, x ≠ 0

section Chain

variable {next next' : ℕ → ℕ} {p : ℕ} {l : List ℕ}

theorem Chain.congr (h : Chain next p l) (heq : ∀ x ∈ l, next' x = next x) : Chain next' p l :=
  ⟨h.seg.congr heq, h.ne_zero⟩

@[simp] theorem chain_nil : Chain next p [] ↔ p = 0 :=
  ⟨fun h => h.seg, fun h => ⟨h, by simp⟩⟩

theorem chain_cons {x : ℕ} :
    Chain next p (x :: l) ↔ p = x ∧ x ≠ 0 ∧ Chain next (next x) l := by
  constructor
  · rintro ⟨⟨rfl, hseg⟩, hne⟩
    exact ⟨rfl, hne p (by simp), hseg, fun y hy => hne y (by simp [hy])⟩
  · rintro ⟨rfl, hx, hseg, hne⟩
    refine ⟨⟨rfl, hseg⟩, fun y hy => ?_⟩
    rcases List.mem_cons.mp hy with rfl | hy
    · exact hx
    · exact hne y hy

/-- The address in the head pointer is the first cell, or null when there is none. -/
theorem Chain.head_eq (h : Chain next p l) : p = l.headD 0 := by
  cases l with
  | nil => exact h.seg
  | cons x l => exact h.seg.1

/-- A chain is determined by its head pointer. -/
theorem Chain.unique {l' : List ℕ} (h : Chain next p l) (h' : Chain next p l') : l = l' := by
  induction l generalizing p l' with
  | nil =>
    cases l' with
    | nil => rfl
    | cons x l' =>
      obtain ⟨rfl, hx, -⟩ := chain_cons.mp h'
      exact absurd (chain_nil.mp h) hx
  | cons x l ih =>
    obtain ⟨rfl, hx, htail⟩ := chain_cons.mp h
    cases l' with
    | nil => exact absurd (chain_nil.mp h') hx
    | cons y l' =>
      obtain ⟨rfl, -, htail'⟩ := chain_cons.mp h'
      rw [ih htail htail']

end Chain

/-- `while (p != NULL && go(p)) { previous = p; p = p->next; }`: the final `(previous, p)`, or
`none` when the loop is still running after the given number of tests. -/
def advance (next : ℕ → ℕ) (go : ℕ → Bool) : ℕ → ℕ → ℕ → Option (ℕ × ℕ)
  | 0, _, _ => none
  | fuel + 1, previous, p =>
    if p ≠ 0 ∧ go p then advance next go fuel p (next p) else some (previous, p)

/-- The last cell of a list, or the given address when there is none. -/
def lastD (l : List ℕ) (default : ℕ) : ℕ := l.getLast?.getD default

@[simp] theorem lastD_nil (d : ℕ) : lastD [] d = d := rfl

@[simp] theorem lastD_append_singleton (l : List ℕ) (x d : ℕ) : lastD (l ++ [x]) d = x := by
  simp [lastD]

theorem lastD_cons (x : ℕ) (l : List ℕ) (d : ℕ) : lastD (x :: l) d = lastD l x := by
  cases l with
  | nil => rfl
  | cons y l => simp [lastD, List.getLast?_eq_some_getLast]

/-- On a chain the loop ends at the first cell the test rejects, with the cell before it. -/
theorem advance_chain {next : ℕ → ℕ} {go : ℕ → Bool} {l : List ℕ} {p fuel previous : ℕ}
    (h : Chain next p l) (hfuel : l.length < fuel) :
    advance next go fuel previous p
      = some (lastD (l.takeWhile go) previous, (l.dropWhile go).headD 0) := by
  induction l generalizing p fuel previous with
  | nil =>
    obtain ⟨fuel, rfl⟩ := Nat.exists_eq_succ_of_ne_zero (Nat.ne_zero_of_lt hfuel)
    obtain rfl := chain_nil.mp h
    simp [advance]
  | cons x l ih =>
    obtain ⟨fuel, rfl⟩ := Nat.exists_eq_succ_of_ne_zero (Nat.ne_zero_of_lt hfuel)
    obtain ⟨rfl, hx, htail⟩ := chain_cons.mp h
    by_cases hgo : go p
    · rw [advance, if_pos ⟨hx, hgo⟩, ih htail (by simpa using hfuel),
        List.takeWhile_cons_of_pos hgo, List.dropWhile_cons_of_pos hgo, lastD_cons]
    · rw [advance, if_neg (fun hc => hgo hc.2), List.takeWhile_cons_of_neg hgo,
        List.dropWhile_cons_of_neg hgo]
      rfl

end TronKernel.LinkedList
