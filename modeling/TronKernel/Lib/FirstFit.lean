import Mathlib.Data.List.Basic
import Mathlib.Order.Nat

/-!
# First fit between spans

Spans that lie one behind the other leave gaps. `firstFit` walks over them and answers with the
start of the first gap that is long enough. A span it finds meets none of the others
(`firstFit_free`), and it finds the lowest one there is (`firstFit_lowest`), whatever order the
spans were in before they were sorted (`inOrder_of_sorted`).
-/

namespace TronKernel.FirstFit

/-- The positions from `start` on, `length` of them. -/
structure Span where
  start : ℕ
  length : ℕ
deriving DecidableEq

/-- The first position behind a span. -/
def Span.stop (b : Span) : ℕ := b.start + b.length

/-- Two spans that do not meet. -/
def Apart (b c : Span) : Prop := b.stop ≤ c.start ∨ c.stop ≤ b.start

instance (b c : Span) : Decidable (Apart b c) := inferInstanceAs (Decidable (_ ∨ _))

/-- A span between `lo` and `hi` that meets none of the list. -/
structure Free (spans : List Span) (lo hi : ℕ) (b : Span) : Prop where
  low : lo ≤ b.start
  high : b.stop ≤ hi
  apart : ∀ c ∈ spans, Apart b c

/-- The first gap of length `n` below `hi`, with the spans to come and the end of those behind. -/
def firstFit (hi n : ℕ) : List Span → ℕ → Option ℕ
  | [], lo => if lo + n ≤ hi then some lo else none
  | b :: spans, lo => if lo + n ≤ b.start then some lo else firstFit hi n spans b.stop

/-- The spans lie between `lo` and `hi`, each behind the one before it. -/
def InOrder (hi : ℕ) : List Span → ℕ → Prop
  | [], lo => lo ≤ hi
  | b :: spans, lo => lo ≤ b.start ∧ InOrder hi spans b.stop

variable {hi n lo s : ℕ} {spans : List Span} {b c : Span}

instance : Decidable (Free spans lo hi b) :=
  decidable_of_iff (lo ≤ b.start ∧ b.stop ≤ hi ∧ ∀ c ∈ spans, Apart b c)
    ⟨fun h => ⟨h.1, h.2.1, h.2.2⟩, fun h => ⟨h.low, h.high, h.apart⟩⟩

theorem Apart.symm (h : Apart b c) : Apart c b := Or.symm h

theorem Span.start_le_stop (b : Span) : b.start ≤ b.stop := Nat.le_add_right b.start b.length

theorem Free.of_subset {spans' : List Span} (h : Free spans lo hi b) (hsub : spans' ⊆ spans) :
    Free spans' lo hi b := ⟨h.low, h.high, fun c hc => h.apart c (hsub hc)⟩

theorem InOrder.le_start (h : InOrder hi spans lo) (hc : c ∈ spans) : lo ≤ c.start := by
  induction spans generalizing lo with
  | nil => exact absurd hc List.not_mem_nil
  | cons b spans ih =>
    rcases List.mem_cons.mp hc with rfl | hc
    · exact h.1
    · exact h.1.trans (b.start_le_stop.trans (ih h.2 hc))

theorem InOrder.le_hi (h : InOrder hi spans lo) : lo ≤ hi := by
  induction spans generalizing lo with
  | nil => exact h
  | cons b spans ih => exact h.1.trans (b.start_le_stop.trans (ih h.2))

/-- Spans sorted by their starts lie in order when no two of them meet. -/
theorem inOrder_of_sorted (hlo : lo ≤ hi) (hbounds : ∀ b ∈ spans, lo ≤ b.start ∧ b.stop ≤ hi)
    (hlength : ∀ b ∈ spans, 0 < b.length) (hsorted : spans.Pairwise fun b c => b.start ≤ c.start)
    (hapart : spans.Pairwise Apart) : InOrder hi spans lo := by
  induction spans generalizing lo with
  | nil => exact hlo
  | cons b spans ih =>
    rw [List.pairwise_cons] at hsorted hapart
    refine ⟨(hbounds b List.mem_cons_self).1, ?_⟩
    apply ih (hbounds b List.mem_cons_self).2 _
      (fun c hc => hlength c (List.mem_cons_of_mem b hc)) hsorted.2 hapart.2
    intro c hc
    refine ⟨?_, (hbounds c (List.mem_cons_of_mem b hc)).2⟩
    -- a span that starts no earlier and is not empty cannot end before `b` starts
    have hpos := hlength c (List.mem_cons_of_mem b hc)
    have hle := hsorted.1 c hc
    rcases hapart.1 c hc with hbc | hcb
    · exact hbc
    · rw [Span.stop] at hcb
      omega

/-- What `firstFit` finds is free. -/
theorem firstFit_free (h : InOrder hi spans lo) (hfit : firstFit hi n spans lo = some s) :
    Free spans lo hi ⟨s, n⟩ := by
  induction spans generalizing lo with
  | nil =>
    rw [firstFit] at hfit
    split_ifs at hfit with hroom
    obtain rfl := Option.some.inj hfit
    exact ⟨le_rfl, hroom, fun c hc => absurd hc List.not_mem_nil⟩
  | cons b spans ih =>
    rw [firstFit] at hfit
    split_ifs at hfit with hroom
    · obtain rfl := Option.some.inj hfit
      have hb : b.start ≤ hi := b.start_le_stop.trans h.2.le_hi
      refine ⟨le_rfl, hroom.trans hb, fun c hc => Or.inl ?_⟩
      rcases List.mem_cons.mp hc with rfl | hc
      · exact hroom
      · exact hroom.trans (b.start_le_stop.trans (h.2.le_start hc))
    · have hfree := ih h.2 hfit
      refine ⟨h.1.trans (b.start_le_stop.trans hfree.low), hfree.high, fun c hc => ?_⟩
      rcases List.mem_cons.mp hc with rfl | hc
      · exact Or.inr hfree.low
      · exact hfree.apart c hc

/-- Where a span of the length is free, `firstFit` finds one that starts no later. -/
theorem firstFit_lowest (hfree : Free spans lo hi ⟨s, n⟩) :
    ∃ t ≤ s, firstFit hi n spans lo = some t := by
  induction spans generalizing lo with
  | nil =>
    have hlow := hfree.low
    have hhigh := hfree.high
    rw [Span.stop] at hhigh
    exact ⟨lo, hlow, if_pos (by dsimp only at *; omega)⟩
  | cons b spans ih =>
    rw [firstFit]
    split_ifs with hroom
    · exact ⟨lo, hfree.low, rfl⟩
    · apply ih
      have hlow := hfree.low
      refine ⟨?_, hfree.high, fun c hc => hfree.apart c (List.mem_cons_of_mem b hc)⟩
      rcases hfree.apart b List.mem_cons_self with hbefore | hbehind
      · rw [Span.stop] at hbefore
        dsimp only at *
        omega
      · exact hbehind

end TronKernel.FirstFit
