import TronKernel.Tron.Game

/-!
# Whether the players are treated alike

`validPositions` tests for two head-on collisions before it looks at the board. The one in a row is
the same for both players, since `LEFT` against `DOWN` is excluded from it. The one in a column is
not: `DOWN` and `LEFT` differ by 1 too, and with these directions player 1 and player 2 collide, but
player 2 and player 1 do not.
-/

namespace TronKernel.Tron

variable {p1 p2 : Player} {canvas : Canvas}

/-- The outcome with the players exchanged. -/
def Outcome.exchange : Outcome → Outcome
  | .player1Won => .player2Won
  | .player2Won => .player1Won
  | o => o

/-- One above the other, the first going down and the second to the left. -/
structure Crosses (p1 p2 : Player) : Prop where
  down : p1.dir = .down
  left : p2.dir = .left
  column : p1.x = p2.x
  next : p1.y - p2.y = 1 ∨ p1.y - p2.y = -1

theorem headOn_iff : HeadOn p1 p2 ↔
    (p1.x = p2.x ∧ p1.y - p2.y < 2 ∧ -2 < p1.y - p2.y ∧
      (p1.dir = .up ∧ p2.dir = .down ∨ p1.dir = .down ∧ (p2.dir = .up ∨ p2.dir = .left))) ∨
    (p1.y = p2.y ∧ p1.x - p2.x < 2 ∧ -2 < p1.x - p2.x ∧
      (p1.dir = .left ∧ p2.dir = .right ∨ p1.dir = .right ∧ p2.dir = .left)) := by
  simp only [HeadOn, headOnVertical, headOnHorizontal]
  cases p1.dir <;> cases p2.dir <;> simp [Dir.code]

/-- Which directions collide head-on depends on the order for `DOWN` and `LEFT` only. -/
theorem headOn_swap (hne : p1.cell ≠ p2.cell) (h : ¬ Crosses p1 p2) (h' : ¬ Crosses p2 p1) :
    HeadOn p1 p2 ↔ HeadOn p2 p1 := by
  have hcell : ¬ (p1.x = p2.x ∧ p1.y = p2.y) := fun heq => hne (Prod.mk_inj.mpr heq)
  have hcross : ∀ {p q : Player}, ¬ (p.x = q.x ∧ p.y = q.y) → ¬ Crosses p q →
      p.dir = .down → q.dir = .left → p.x = q.x → p.y - q.y < 2 → ¬ -2 < p.y - q.y := by
    intro p q hpq hno hdown hleft hx hlt hgt
    exact hno ⟨hdown, hleft, hx, by omega⟩
  have h₁ := hcross hcell h
  have h₂ := hcross (fun heq => hcell ⟨heq.1.symm, heq.2.symm⟩) h'
  rw [headOn_iff, headOn_iff]
  cases hd₁ : p1.dir <;> cases hd₂ : p2.dir <;> simp [hd₁, hd₂] at h₁ h₂ ⊢ <;> omega

theorem Crosses.headOn (h : Crosses p1 p2) : HeadOn p1 p2 := by
  obtain ⟨hdown, hleft, hx, hy⟩ := h
  exact headOn_iff.mpr (Or.inl ⟨hx, by omega, by omega, Or.inr ⟨hdown, Or.inr hleft⟩⟩)

theorem Crosses.not_headOn (h : Crosses p1 p2) : ¬ HeadOn p2 p1 := by
  simp [headOn_iff, h.down, h.left]

theorem Crosses.cell_ne (h : Crosses p1 p2) : p1.cell ≠ p2.cell := by
  intro heq
  have hy : p1.y = p2.y := (Prod.mk_inj.mp heq).2
  have hnext := h.next
  omega

/-- Where the players cross, the outcome in one order is a draw, and in the other one only if both
of them lose. -/
theorem Crosses.exchange_iff (h : Crosses p1 p2) :
    (validPositions p2 p1 canvas).1 = (validPositions p1 p2 canvas).1.exchange ↔
      canvas.Loses p1 ∧ canvas.Loses p2 := by
  rw [validPositions_eq p1, if_pos h.headOn, validPositions_eq p2, if_neg h.not_headOn]
  show (if p2.cell = p1.cell ∨ _ then Outcome.draw else _) = .draw ↔ _
  by_cases hboth : canvas.Loses p1 ∧ canvas.Loses p2
  · rw [if_pos (Or.inr hboth.symm)]
    exact iff_of_true rfl hboth
  · refine iff_of_false ?_ hboth
    rw [if_neg fun hor => hor.elim h.cell_ne.symm fun hand => hboth hand.symm]
    split_ifs <;> simp

theorem exchange_exchange (o : Outcome) : o.exchange.exchange = o := by
  cases o <;> rfl

/-- For players anywhere on any board: exchanging them exchanges the outcomes, unless one of them is
above or below the other, they go down and to the left, and one of them does not lose. -/
theorem validPositions_exchange_iff (p1 p2 : Player) (canvas : Canvas) :
    (validPositions p2 p1 canvas).1 = (validPositions p1 p2 canvas).1.exchange ↔
      ¬ ((Crosses p1 p2 ∨ Crosses p2 p1) ∧ ¬ (canvas.Loses p1 ∧ canvas.Loses p2)) := by
  by_cases h : Crosses p1 p2
  · rw [h.exchange_iff, not_and, not_not]
    exact ⟨fun hboth _ => hboth, fun himp => himp (Or.inl h)⟩
  by_cases h' : Crosses p2 p1
  · have hsymm : (validPositions p2 p1 canvas).1 = (validPositions p1 p2 canvas).1.exchange ↔
        (validPositions p1 p2 canvas).1 = (validPositions p2 p1 canvas).1.exchange := by
      constructor
      · intro heq
        rw [heq, exchange_exchange]
      · intro heq
        rw [heq, exchange_exchange]
    rw [hsymm, h'.exchange_iff, not_and, not_not]
    exact ⟨fun hboth _ => hboth.symm, fun himp => (himp (Or.inr h')).symm⟩
  · refine iff_of_true ?_ fun hcross => hcross.1.elim h h'
    by_cases hcell : p1.cell = p2.cell
    · have hdraw : ∀ {p q : Player}, p.cell = q.cell → (validPositions p q canvas).1 = .draw := by
        intro p q heq
        rw [validPositions_eq]
        split_ifs with h₁ h₂
        · rfl
        · rfl
        all_goals exact absurd (Or.inl heq) h₂
      rw [hdraw hcell, hdraw hcell.symm]
      rfl
    · rw [validPositions_eq p1, validPositions_eq p2]
      by_cases hhead : HeadOn p1 p2
      · rw [if_pos hhead, if_pos ((headOn_swap hcell h h').mp hhead)]
        rfl
      · rw [if_neg hhead, if_neg ((headOn_swap hcell h h').not.mp hhead)]
        have hcell' : ¬ p2.cell = p1.cell := fun heq => hcell heq.symm
        by_cases hl₁ : canvas.Loses p1 <;> by_cases hl₂ : canvas.Loses p2 <;>
          simp [hcell, hcell', hl₁, hl₂, Outcome.exchange]

/-- One player above the other on an empty board. -/
theorem exchange_fails :
    ¬ ∀ (p1 p2 : Player) (canvas : Canvas), canvas.Inside p1.cell → canvas.Inside p2.cell →
      (validPositions p2 p1 canvas).1 = (validPositions p1 p2 canvas).1.exchange := by
  intro hclaim
  have hfail := hclaim ⟨5, 5, .down⟩ ⟨5, 6, .left⟩ ⟨10, 10, fun _ _ => 0⟩ (by decide) (by decide)
  exact absurd hfail (by decide)

end TronKernel.Tron
