import TronKernel.Lib.Bytes
import Mathlib.Data.List.Induction

/-!
# Reversing in place

Two pointers walk towards each other and swap what they point to. Each cell between them gets the
value of its mirror image (`swapEnds_apply`), so a string held there is reversed (`Holds.swapEnds`).
-/

namespace TronKernel.Mem

/-- `while (p1 < p2)`, swap the bytes there and move both pointers inwards. -/
def swapEnds (m : Mem) (p1 p2 : ℕ) : Mem :=
  if p1 < p2 then
    swapEnds (Function.update (Function.update m p1 (m p2)) p2 (m p1)) (p1 + 1) (p2 - 1)
  else m
termination_by p2 - p1

variable {m m' : Mem} {a p1 p2 x : ℕ} {bs : List UInt8}

theorem swapEnds_apply :
    swapEnds m p1 p2 x = if p1 ≤ x ∧ x ≤ p2 then m (p1 + p2 - x) else m x := by
  fun_induction swapEnds m p1 p2 with
  | case1 m p1 p2 hlt ih =>
    -- the two ends are done, the cells between them are the induction hypothesis
    have hmirror : p1 + 1 + (p2 - 1) - x = p1 + p2 - x := by omega
    rw [ih, hmirror]
    by_cases hleft : x = p1
    · subst hleft
      rw [if_neg (by omega), if_pos (by omega), Function.update_of_ne (by omega),
        Function.update_self, Nat.add_sub_cancel_left]
    · by_cases hright : x = p2
      · subst hright
        rw [if_neg (by omega), if_pos (by omega), Function.update_self, Nat.add_sub_cancel]
      · by_cases hin : p1 ≤ x ∧ x ≤ p2
        · rw [if_pos (by omega), if_pos hin, Function.update_of_ne (by omega),
            Function.update_of_ne (by omega)]
        · rw [if_neg (by omega), if_neg hin, Function.update_of_ne hright,
            Function.update_of_ne hleft]
  | case2 m p1 p2 hnot =>
    split_ifs with hin
    · congr 1
      omega
    · rfl

/-- A string whose ends are swapped inwards is reversed. -/
theorem Holds.swapEnds (h : Holds m a bs) (hne : bs ≠ []) :
    Holds (swapEnds m a (a + bs.length - 1)) a bs.reverse := by
  have hpos : 0 < bs.length := List.length_pos_of_ne_nil hne
  rw [holds_iff_getElem] at h ⊢
  intro i hi
  rw [List.length_reverse] at hi
  have hmirror : a + (a + bs.length - 1) - (a + i) = a + (bs.length - 1 - i) := by omega
  rw [swapEnds_apply, if_pos (by omega), hmirror, h _ (by omega), List.getElem_reverse]

/-- The other bytes stay. -/
theorem swapEnds_frame (h : x < p1 ∨ p2 < x) : swapEnds m p1 p2 x = m x := by
  rw [swapEnds_apply, if_neg (by omega)]

end TronKernel.Mem
