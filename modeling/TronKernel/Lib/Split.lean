import Mathlib.Data.List.TakeWhile

/-!
# Splitting at separators

The maximal runs of a list between separators: what `List.splitOnP` gives, without the empty pieces.
A scanner that skips separators and then takes a run finds them one by one (`runsOf_dropWhile`,
`runsOf_cons`).
-/

namespace TronKernel.Split

variable {α : Type*} {p : α → Bool} {l w : List α} {a : α}

/-- A list is what stands in front of the first `a`, that `a`, and what stands behind it. -/
theorem takeWhile_append_cons [DecidableEq α] (h : a ∈ l) :
    l.takeWhile (· ≠ a) ++ a :: (l.dropWhile (· ≠ a)).tail = l := by
  induction l with
  | nil => simp at h
  | cons b l ih =>
    by_cases hb : b = a
    · rw [hb, List.takeWhile_cons_of_neg (by simp), List.dropWhile_cons_of_neg (by simp)]
      rfl
    · rw [List.takeWhile_cons_of_pos (by simpa using hb),
        List.dropWhile_cons_of_pos (by simpa using hb), List.cons_append,
        ih ((List.mem_cons.mp h).resolve_left (Ne.symm hb))]

theorem notMem_takeWhile [DecidableEq α] : a ∉ l.takeWhile (· ≠ a) := by
  intro h
  have hne := List.mem_takeWhile_imp h
  simp at hne

/-- The maximal runs of elements that are no separators. -/
def runsOf (p : α → Bool) (l : List α) : List (List α) := (l.splitOnP p).filter (· ≠ [])

@[simp] theorem runsOf_nil : runsOf p [] = [] := rfl

theorem runsOf_cons_separator (ha : p a) : runsOf p (a :: l) = runsOf p l := by
  rw [runsOf, List.splitOnP_cons_eq_if_modifyHead, if_pos ha, List.filter_cons_of_neg (by simp),
    runsOf]

/-- Separators in front are skipped. -/
theorem runsOf_dropWhile (p : α → Bool) (l : List α) : runsOf p (l.dropWhile p) = runsOf p l := by
  induction l with
  | nil => rfl
  | cons a l ih =>
    by_cases ha : p a
    · rw [List.dropWhile_cons_of_pos ha, ih, runsOf_cons_separator ha]
    · rw [List.dropWhile_cons_of_neg ha]

/-- A list that does not begin with a separator begins with its first run. -/
theorem runsOf_cons (ha : ¬ p a) :
    runsOf p (a :: l) = (a :: l).takeWhile (fun x => !p x) ::
      runsOf p ((a :: l).dropWhile fun x => !p x) := by
  set run := (a :: l).takeWhile (fun x => !p x) with hrun
  have hne : run ≠ [] := by
    rw [hrun, List.takeWhile_cons_of_pos (by simpa using ha)]
    exact List.cons_ne_nil _ _
  have hclean : ∀ x ∈ run, p x = false := fun x hx => by simpa using List.mem_takeWhile_imp hx
  have hsplit := List.takeWhile_append_dropWhile (p := fun x => !p x) (l := a :: l)
  cases hrest : (a :: l).dropWhile fun x => !p x with
  | nil =>
    rw [hrest, List.append_nil] at hsplit
    rw [← hsplit, ← hrun, runsOf, List.splitOnP_eq_singleton hclean,
      List.filter_cons_of_pos (by simpa using hne)]
    rfl
  | cons sep rest =>
    have hsep : p sep := by
      have hhead := List.head_dropWhile_not (fun x => !p x) (l := a :: l) (by simp [hrest])
      simpa [hrest] using hhead
    have hlist : a :: l = run ++ sep :: rest := by rw [hrun, ← hrest, hsplit]
    rw [runsOf_cons_separator hsep, hlist, runsOf,
      List.splitOnP_append_cons_of_forall_mem hclean sep hsep,
      List.filter_cons_of_pos (by simpa using hne), runsOf]

/-- An element that is no separator begins a run, or makes the first run longer. -/
theorem length_runsOf_cons (ha : ¬ p a) :
    (runsOf p (a :: l)).length + (if l.head?.any fun x => !p x then 1 else 0) =
      (runsOf p l).length + 1 := by
  rw [runsOf_cons ha, List.dropWhile_cons_of_pos (by simpa using ha), List.length_cons]
  cases l with
  | nil => rfl
  | cons b l =>
    by_cases hb : p b
    · rw [List.dropWhile_cons_of_neg (by simpa using hb)]
      simp [hb]
    · rw [runsOf_cons hb, List.length_cons]
      simp [hb]

theorem ne_nil_of_mem_runsOf (hw : w ∈ runsOf p l) : w ≠ [] := by
  rw [runsOf, List.mem_filter] at hw
  simpa using hw.2

/-- A run takes at least one element. -/
theorem length_dropWhile_lt (ha : ¬ p a) :
    ((a :: l).dropWhile fun x => !p x).length < (a :: l).length := by
  rw [List.dropWhile_cons_of_pos (by simpa using ha), List.length_cons]
  exact Nat.lt_succ_of_le (List.dropWhile_suffix _).length_le

/-- A run consists of elements of the list. -/
theorem mem_of_mem_runsOf (hw : w ∈ runsOf p l) (ha : a ∈ w) : a ∈ l := by
  induction hn : l.length using Nat.strongRecOn generalizing l with
  | _ n ih =>
    subst hn
    cases l with
    | nil => simp at hw
    | cons b l =>
      by_cases hb : p b
      · rw [runsOf_cons_separator hb] at hw
        exact List.mem_cons_of_mem b (ih l.length (by simp) hw rfl)
      · rw [runsOf_cons hb, List.mem_cons] at hw
        rcases hw with rfl | hw
        · exact (List.takeWhile_prefix _).subset ha
        · have hshort := length_dropWhile_lt (l := l) hb
          exact (List.dropWhile_suffix _).subset (ih _ hshort hw rfl)

theorem length_le_of_mem_runsOf (hw : w ∈ runsOf p l) : w.length ≤ l.length := by
  induction hn : l.length using Nat.strongRecOn generalizing l with
  | _ n ih =>
    subst hn
    cases l with
    | nil => simp at hw
    | cons b l =>
      by_cases hb : p b
      · rw [runsOf_cons_separator hb] at hw
        have hle := ih l.length (by simp) hw rfl
        rw [List.length_cons]
        omega
      · rw [runsOf_cons hb, List.mem_cons] at hw
        rcases hw with rfl | hw
        · exact (List.takeWhile_prefix _).length_le
        · have hshort := length_dropWhile_lt (l := l) hb
          exact (ih _ hshort hw rfl).trans hshort.le

/-- Between two runs there is a separator. -/
theorem two_mul_length_runsOf_le (p : α → Bool) (l : List α) :
    2 * (runsOf p l).length ≤ l.length + 1 := by
  induction hn : l.length using Nat.strongRecOn generalizing l with
  | _ n ih =>
    subst hn
    cases l with
    | nil => simp
    | cons b l =>
      by_cases hb : p b
      · have hle := ih l.length (by simp) l rfl
        rw [runsOf_cons_separator hb, List.length_cons]
        omega
      · have hshort := length_dropWhile_lt (l := l) hb
        rw [runsOf_cons hb, List.length_cons]
        cases hrest : (b :: l).dropWhile fun x => !p x with
        | nil =>
          rw [runsOf_nil, List.length_nil, List.length_cons]
          omega
        | cons sep rest =>
          have hsep : p sep := by
            have hhead := List.head_dropWhile_not (fun x => !p x) (l := b :: l) (by simp [hrest])
            simpa [hrest] using hhead
          rw [hrest, List.length_cons] at hshort
          have hle := ih rest.length (by omega) rest rfl
          rw [runsOf_cons_separator hsep]
          omega

end TronKernel.Split
