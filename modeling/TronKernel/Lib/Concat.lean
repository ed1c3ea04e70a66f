import Mathlib.Data.List.Perm.Basic

/-!
# Two texts put together from the same pieces

Each piece has two texts. The pieces with the first texts and the pieces with the second texts give
the same text in all if the two texts of every piece are equal. The converse needs a reason why no
difference makes up for another one: what one text has more than the other is pushed through the
pieces behind it, as a rearrangement of itself, and must not fit any later difference
(`flatMap_eq_iff`).
-/

namespace TronKernel.Concat

variable {ι α : Type*} {u w X Y c e : List α} {f g : ι → List α} {qs : List ι}
  {Long Short : List α → Prop}

/-- Text in front of a piece appears behind it, rearranged. -/
theorem push_through (h : u ++ X = w ++ (u ++ Y)) : ∃ w', w'.Perm w ∧ X = w' ++ Y := by
  have hfront : w ++ u <+: u ++ X := by
    rw [h, ← List.append_assoc]
    exact List.prefix_append _ Y
  have hprefix : u <+: w ++ u :=
    List.prefix_of_prefix_length_le (List.prefix_append u X) hfront (by simp)
  obtain ⟨w', hw'⟩ := hprefix
  refine ⟨w', ?_, ?_⟩
  · apply (List.perm_append_left_iff u).mp
    rw [hw']
    exact List.perm_append_comm
  · rw [← List.append_assoc, ← hw', List.append_assoc] at h
    exact List.append_cancel_left h

/-- The texts `c` and `e` differ. What `e` has more than `c` is `Long`, what `c` has more is
`Short`, and neither makes up for the difference between `c` and `e` in its turn. -/
structure Apart (Long Short : List α → Prop) (c e : List α) : Prop where
  long : ∀ w, e = c ++ w → Long w
  short : ∀ w, c = e ++ w → Short w
  not_long : ∀ w X Y, Long w → c ++ X ≠ w ++ (e ++ Y)
  not_short : ∀ w X Y, Short w → w ++ (c ++ X) ≠ e ++ Y

section

variable (hlong : ∀ w w', w'.Perm w → Long w → Long w')
  (hshort : ∀ w w', w'.Perm w → Short w → Short w')
  (hnil : ¬ Long [] ∧ ¬ Short []) (h : ∀ q ∈ qs, f q = g q ∨ Apart Long Short (f q) (g q))

include hlong hnil h

theorem not_long_flatMap (hw : Long w) : qs.flatMap f ≠ w ++ qs.flatMap g := by
  induction qs generalizing w with
  | nil =>
    intro heq
    obtain ⟨rfl, -⟩ := List.append_eq_nil_iff.mp heq.symm
    exact hnil.1 hw
  | cons q qs ih =>
    rw [List.flatMap_cons, List.flatMap_cons]
    rcases h q (List.mem_cons_self) with heq | happart
    · rw [heq]
      intro hall
      obtain ⟨w', hperm, hrest⟩ := push_through hall
      exact ih (fun q hq => h q (List.mem_cons_of_mem _ hq)) (hlong w w' hperm hw) hrest
    · exact happart.not_long w _ _ hw

omit hlong
include hshort

theorem not_short_flatMap (hw : Short w) : w ++ qs.flatMap f ≠ qs.flatMap g := by
  induction qs generalizing w with
  | nil =>
    intro heq
    obtain ⟨rfl, -⟩ := List.append_eq_nil_iff.mp heq
    exact hnil.2 hw
  | cons q qs ih =>
    rw [List.flatMap_cons, List.flatMap_cons]
    rcases h q (List.mem_cons_self) with heq | happart
    · rw [heq]
      intro hall
      obtain ⟨w', hperm, hrest⟩ := push_through hall.symm
      exact ih (fun q hq => h q (List.mem_cons_of_mem _ hq)) (hshort w w' hperm hw) hrest.symm
    · exact happart.not_short w _ _ hw

include hlong

/-- The texts agree if and only if they agree piece by piece. -/
theorem flatMap_eq_iff : qs.flatMap f = qs.flatMap g ↔ ∀ q ∈ qs, f q = g q := by
  constructor
  · intro hall
    induction qs with
    | nil => exact fun q hq => absurd hq List.not_mem_nil
    | cons q qs ih =>
      have htail := fun q hq => h q (List.mem_cons_of_mem _ hq)
      rw [List.flatMap_cons, List.flatMap_cons] at hall
      have heq : f q = g q := by
        rcases h q (List.mem_cons_self) with heq | happart
        · exact heq
        · exfalso
          rcases List.append_eq_append_iff.mp hall with ⟨w, hw, hrest⟩ | ⟨w, hw, hrest⟩
          · exact not_long_flatMap hlong hnil htail (happart.long w hw) hrest
          · exact not_short_flatMap hshort hnil htail (happart.short w hw) hrest.symm
      rw [heq] at hall
      exact List.forall_mem_cons.mpr ⟨heq, ih htail (List.append_cancel_left hall)⟩
  · intro hall
    exact List.flatMap_congr hall

end

end TronKernel.Concat
