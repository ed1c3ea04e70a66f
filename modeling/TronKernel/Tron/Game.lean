import TronKernel.Lib.Runs
import Mathlib.Data.Finset.Prod

/-!
# The Tron game

`playTron` on a canvas: two players move a cell in every pass of its loop, and a key may turn one of
them. What a pass reads of `canvas->board` is recorded, since a player may be outside when
`validPositions` looks. A cell outside the canvas has whatever value is in memory there, and it may
have another one in each pass. What is drawn, the colours and the scores are left out.

Coordinates are of the size of a canvas, so they are integers here.
-/

namespace TronKernel.Tron

open Runs

/-- `UP`, `DOWN`, `LEFT` and `RIGHT`. -/
inductive Dir where
  | up | down | left | right
deriving DecidableEq, Repr

/-- The number of a direction. -/
def Dir.code : Dir → ℤ
  | .up => 0
  | .down => 1
  | .left => 2
  | .right => 3

/-- `Player`. -/
structure Player where
  x : ℤ
  y : ℤ
  dir : Dir
deriving DecidableEq, Repr

/-- `Canvas`. The board has a value at every index, also at those outside. -/
structure Canvas where
  width : ℤ
  height : ℤ
  board : ℤ → ℤ → UInt8

/-- How `validPositions` ends: the game goes on, or with one of its messages. -/
inductive Outcome where
  | goesOn | draw | player1Won | player2Won
deriving DecidableEq, Repr

/-- A cell that is read or written. -/
abbrev Cell := ℤ × ℤ

/-- `isValidPoint`. -/
def isValidPoint (x y : ℤ) (canvas : Canvas) : Bool :=
  !(x ≥ canvas.width || y ≥ canvas.height || x < 0 || y < 0)

/-- `canvas->board[x][y] = 1`. -/
def Canvas.mark (canvas : Canvas) (x y : ℤ) : Canvas :=
  { canvas with board := Function.update canvas.board x (Function.update (canvas.board x) y 1) }

/-- `initializeCanvas`. -/
def initializeCanvas (canvas : Canvas) : Canvas :=
  { canvas with
    board := fun x y =>
      if 0 ≤ x ∧ x < canvas.width ∧ 0 ≤ y ∧ y < canvas.height then 0 else canvas.board x y }

/-- The same canvas with other values around it. -/
def Canvas.surround (canvas : Canvas) (outside : ℤ → ℤ → UInt8) : Canvas :=
  { canvas with
    board := fun x y => if isValidPoint x y canvas then canvas.board x y else outside x y }

/-- The test for two players in one column. -/
def headOnVertical (p1 p2 : Player) : Bool :=
  p1.x = p2.x && (p1.y - p2.y < 2 && p1.y - p2.y > -2) && (p1.dir = .up || p1.dir = .down) &&
    (p1.dir.code - p2.dir.code = 1 || p1.dir.code - p2.dir.code = -1)

/-- The test for two players in one row. -/
def headOnHorizontal (p1 p2 : Player) : Bool :=
  p1.y = p2.y && (p1.x - p2.x < 2 && p1.x - p2.x > -2) &&
    ((p1.dir = .left && p2.dir ≠ .down) || p1.dir = .right) &&
    (p1.dir.code - p2.dir.code = 1 || p1.dir.code - p2.dir.code = -1)

/-- `validPositions`: how it ends, and the cells of the board it has read. -/
def validPositions (p1 p2 : Player) (canvas : Canvas) : Outcome × List Cell :=
  let player1Lost : UInt8 := if !isValidPoint p1.x p1.y canvas then 1 else 0
  let player2Lost : UInt8 := if !isValidPoint p2.x p2.y canvas then 1 else 0
  if headOnVertical p1 p2 then (.draw, [])
  else if headOnHorizontal p1 p2 then (.draw, [])
  else
    let player1Lost := if canvas.board p1.x p1.y ≠ 0 then canvas.board p1.x p1.y else player1Lost
    let player2Lost := if canvas.board p2.x p2.y ≠ 0 then canvas.board p2.x p2.y else player2Lost
    let accesses := [(p1.x, p1.y), (p2.x, p2.y)]
    if (p1.x = p2.x ∧ p1.y = p2.y) ∨ (player1Lost ≠ 0 ∧ player2Lost ≠ 0) then (.draw, accesses)
    else if player1Lost ≠ 0 then (.player2Won, accesses)
    else if player2Lost ≠ 0 then (.player1Won, accesses)
    else (.goesOn, accesses)

/-- `tick`. -/
def tick (player : Player) : Player :=
  match player.dir with
  | .up => { player with y := player.y - 1 }
  | .down => { player with y := player.y + 1 }
  | .left => { player with x := player.x - 1 }
  | .right => { player with x := player.x + 1 }

/-! ## Keys -/

def LEFT_KEY : ℤ := 1
def RIGHT_KEY : ℤ := 2
def UP_KEY : ℤ := 3
def DOWN_KEY : ℤ := 4

def A_KEY : ℤ := 'a'.toNat
def D_KEY : ℤ := 'd'.toNat
def W_KEY : ℤ := 'w'.toNat
def S_KEY : ℤ := 's'.toNat

/-- `'r'`, the key for another game. -/
def RESTART_KEY : ℤ := 'r'.toNat

/-- The `switch` of `input`: the direction that a player turns to, with the player's own keys. -/
def turn (dir : Dir) (key up down left right : ℤ) : Option Dir :=
  match dir with
  | .up | .down => if key = left then some .left else if key = right then some .right else none
  | .left | .right => if key = up then some .up else if key = down then some .down else none

/-- `input`: the players and `*oldKey`, or nothing if it is to return. A `pause` takes keys of its
own until it is over. -/
def input (p1 p2 : Player) (oldKey newKey : ℤ) : Option (Player × Player × ℤ) :=
  if newKey = RESTART_KEY then none
  else if oldKey ≠ newKey then
    match turn p1.dir newKey UP_KEY DOWN_KEY LEFT_KEY RIGHT_KEY with
    | some dir => some ({ p1 with dir := dir }, p2, newKey)
    | none =>
      match turn p2.dir newKey W_KEY S_KEY A_KEY D_KEY with
      | some dir => some (p1, { p2 with dir := dir }, newKey)
      | none => some (p1, p2, newKey)
  else some (p1, p2, oldKey)

/-! ## The game -/

/-- The state at the head of the loop of `playTron`. -/
structure Game where
  p1 : Player
  p2 : Player
  canvas : Canvas
  oldKey : ℤ

/-- What comes from outside in a pass: the key, and what is in memory around the canvas. -/
structure Round where
  key : ℤ
  outside : ℤ → ℤ → UInt8

/-- A pass of the loop: the cells it has read and written, and the state behind it unless it
returns. -/
structure Pass where
  accesses : List Cell
  next : Option Game

def pass (g : Game) (r : Round) : Pass :=
  match input g.p1 g.p2 g.oldKey r.key with
  | none => ⟨[], none⟩
  | some (p1, p2, oldKey) =>
    let canvas := g.canvas.surround r.outside
    let p1 := tick p1
    let p2 := tick p2
    let (outcome, accesses) := validPositions p1 p2 canvas
    if outcome ≠ .goesOn then ⟨accesses, none⟩
    else
      ⟨accesses ++ [(p1.x, p1.y), (p2.x, p2.y)],
        some ⟨p1, p2, (canvas.mark p1.x p1.y).mark p2.x p2.y, oldKey⟩⟩

/-- A pass that does not return. -/
def step (g : Game) (r : Round) : Option Game := (pass g r).next

/-- The first state of `playTron`. -/
def start (p1 p2 : Player) (canvas : Canvas) : Game :=
  ⟨p1, p2, (canvas.mark p1.x p1.y).mark p2.x p2.y, -1⟩

/-- The cells that the loop reads and writes while it gets these keys. -/
def loopAccesses : Game → List Round → List Cell
  | _, [] => []
  | g, r :: rs =>
    (pass g r).accesses ++
      match (pass g r).next with
      | none => []
      | some g' => loopAccesses g' rs

/-- The cells that `playTron` reads and writes while it gets these keys. -/
def playTron (p1 p2 : Player) (canvas : Canvas) (rs : List Round) : List Cell :=
  [(p1.x, p1.y), (p2.x, p2.y)] ++ loopAccesses (start p1 p2 canvas) rs

/-! ## Inside and outside -/

variable {p1 p2 q1 q2 : Player} {canvas : Canvas} {g g' : Game} {r : Round} {x y : ℤ} {c : Cell}

/-- The cell is on the canvas. -/
def Canvas.Inside (canvas : Canvas) (c : Cell) : Prop :=
  0 ≤ c.1 ∧ c.1 < canvas.width ∧ 0 ≤ c.2 ∧ c.2 < canvas.height

instance (canvas : Canvas) (c : Cell) : Decidable (canvas.Inside c) :=
  inferInstanceAs (Decidable (_ ∧ _))

theorem isValidPoint_iff : isValidPoint x y canvas = true ↔ canvas.Inside (x, y) := by
  simp only [isValidPoint, Canvas.Inside, Bool.not_eq_true', Bool.or_eq_false_iff,
    decide_eq_false_iff_not]
  omega

/-- Where a player is. -/
def Player.cell (p : Player) : Cell := (p.x, p.y)

/-- The cell is marked. -/
def Canvas.Marked (canvas : Canvas) (c : Cell) : Prop := canvas.board c.1 c.2 ≠ 0

instance (canvas : Canvas) (c : Cell) : Decidable (canvas.Marked c) :=
  inferInstanceAs (Decidable (¬ _))

theorem marked_mark : (canvas.mark x y).Marked c ↔ c = (x, y) ∨ canvas.Marked c := by
  obtain ⟨a, b⟩ := c
  simp only [Canvas.Marked, Canvas.mark, Prod.mk.injEq, Function.update_apply]
  by_cases ha : a = x
  · by_cases hb : b = y
    · simp [ha, hb]
    · simp [ha, hb]
  · simp [ha]

theorem marked_surround {outside : ℤ → ℤ → UInt8} (hc : canvas.Inside c) :
    (canvas.surround outside).Marked c ↔ canvas.Marked c := by
  rw [Canvas.Marked, Canvas.surround]
  dsimp only
  rw [if_pos (isValidPoint_iff.mpr hc)]
  rfl

/-! ## What `validPositions` decides -/

/-- The players collide before the board is looked at. -/
def HeadOn (p1 p2 : Player) : Prop := headOnVertical p1 p2 = true ∨ headOnHorizontal p1 p2 = true

instance (p1 p2 : Player) : Decidable (HeadOn p1 p2) := inferInstanceAs (Decidable (_ ∨ _))

/-- The player is outside, or on a cell that has a value. -/
def Canvas.Loses (canvas : Canvas) (p : Player) : Prop :=
  ¬ canvas.Inside p.cell ∨ canvas.Marked p.cell

instance (canvas : Canvas) (p : Player) : Decidable (canvas.Loses p) :=
  inferInstanceAs (Decidable (_ ∨ _))

theorem lost_ne_zero (canvas : Canvas) (p : Player) :
    (if canvas.board p.x p.y ≠ 0 then canvas.board p.x p.y
      else if !isValidPoint p.x p.y canvas then (1 : UInt8) else 0) ≠ 0 ↔ canvas.Loses p := by
  rw [Canvas.Loses, Player.cell, ← isValidPoint_iff, Canvas.Marked]
  by_cases hmark : canvas.board p.x p.y = 0
  · cases isValidPoint p.x p.y canvas <;> simp [hmark]
  · simp [hmark]

/-- `validPositions` by its tests. -/
theorem validPositions_eq (p1 p2 : Player) (canvas : Canvas) : validPositions p1 p2 canvas =
    if HeadOn p1 p2 then (.draw, [])
    else (if p1.cell = p2.cell ∨ (canvas.Loses p1 ∧ canvas.Loses p2) then .draw
      else if canvas.Loses p1 then .player2Won
      else if canvas.Loses p2 then .player1Won
      else .goesOn, [p1.cell, p2.cell]) := by
  have hcell : p1.cell = p2.cell ↔ p1.x = p2.x ∧ p1.y = p2.y := Prod.mk_inj
  unfold validPositions HeadOn
  simp only [lost_ne_zero, hcell]
  by_cases hv : headOnVertical p1 p2 = true
  · simp [hv]
  · by_cases hh : headOnHorizontal p1 p2 = true
    · simp [hh]
    · simp only [hv, hh, or_self, if_false, Bool.false_eq_true]
      split_ifs <;> rfl

end TronKernel.Tron
