import TronKernel.Tron.Game

/-!
# The passes of a game

A pass that does not return has put both players on different cells of the canvas that were not
marked before (`step_fresh`), so a game has no more passes than half the cells of its canvas. A pass
that returns may have looked outside: `validPositions` reads the board of a player that it has just
found to be outside, unless the players collide head-on.
-/

namespace TronKernel.Tron

open Runs

variable {p1 p2 : Player} {canvas : Canvas} {g g' : Game} {r : Round} {rs : List Round} {c : Cell}

/-- Both players are on the canvas. -/
def Game.Inside (g : Game) : Prop := g.canvas.Inside g.p1.cell ∧ g.canvas.Inside g.p2.cell

/-- The players of the next pass, unless it returns at once. -/
def moved (g : Game) (key : ℤ) : Option (Player × Player) :=
  (input g.p1 g.p2 g.oldKey key).map fun t => (tick t.1, tick t.2.1)

/-- `validPositions` lets the game go on exactly if it gives both players a cell of their own. -/
theorem goesOn_iff : (validPositions p1 p2 canvas).1 = .goesOn ↔
    ¬ HeadOn p1 p2 ∧ p1.cell ≠ p2.cell ∧ ¬ canvas.Loses p1 ∧ ¬ canvas.Loses p2 := by
  rw [validPositions_eq]
  by_cases hhead : HeadOn p1 p2
  · simp [hhead]
  · by_cases hl₁ : canvas.Loses p1 <;> by_cases hl₂ : canvas.Loses p2 <;>
      by_cases hcell : p1.cell = p2.cell <;> simp [hhead, hl₁, hl₂, hcell]

/-! ## A pass -/

/-- What a pass that does not return has done. -/
structure Fresh (g g' : Game) : Prop where
  width : g'.canvas.width = g.canvas.width
  height : g'.canvas.height = g.canvas.height
  inside : g'.Inside
  ne : g'.p1.cell ≠ g'.p2.cell
  unmarked : ¬ g.canvas.Marked g'.p1.cell ∧ ¬ g.canvas.Marked g'.p2.cell
  marked : ∀ c, g.canvas.Inside c →
    (g'.canvas.Marked c ↔ c = g'.p1.cell ∨ c = g'.p2.cell ∨ g.canvas.Marked c)

theorem pass_eq_of_moved {q1 q2 : Player} (h : moved g r.key = some (q1, q2)) :
    (pass g r).accesses = (validPositions q1 q2 (g.canvas.surround r.outside)).2 ++
      (if (validPositions q1 q2 (g.canvas.surround r.outside)).1 = .goesOn then [q1.cell, q2.cell]
        else []) ∧
    ((pass g r).next.isSome ↔
      (validPositions q1 q2 (g.canvas.surround r.outside)).1 = .goesOn) ∧
    ∀ g', (pass g r).next = some g' → g'.p1 = q1 ∧ g'.p2 = q2 ∧
      g'.canvas = ((g.canvas.surround r.outside).mark q1.x q1.y).mark q2.x q2.y := by
  obtain ⟨⟨a, b, key⟩, hin, hq⟩ := Option.map_eq_some_iff.mp h
  obtain ⟨rfl, rfl⟩ := Prod.mk_inj.mp hq
  unfold pass
  rw [hin]
  dsimp only
  generalize validPositions (tick a) (tick b) (g.canvas.surround r.outside) = v
  obtain ⟨o, cells⟩ := v
  by_cases ho : o = .goesOn
  · simp [ho, Player.cell]
  · simp [ho]

theorem pass_eq_of_none (h : moved g r.key = none) : pass g r = ⟨[], none⟩ := by
  unfold pass
  rw [Option.map_eq_none_iff.mp h]

theorem step_fresh (h : step g r = some g') : Fresh g g' := by
  cases hmoved : moved g r.key with
  | none =>
    rw [step, pass_eq_of_none hmoved] at h
    exact absurd h (by simp)
  | some q =>
    obtain ⟨q1, q2⟩ := q
    obtain ⟨-, hsome, hnext⟩ := pass_eq_of_moved hmoved
    obtain ⟨rfl, rfl, hcanvas⟩ := hnext g' h
    have hgoes := hsome.mp (Option.isSome_iff_exists.mpr ⟨g', h⟩)
    obtain ⟨-, hne, hl₁, hl₂⟩ := goesOn_iff.mp hgoes
    simp only [Canvas.Loses, not_or, not_not] at hl₁ hl₂
    refine ⟨by rw [hcanvas]; rfl, by rw [hcanvas]; rfl, ?_, hne, ?_, fun c hc => ?_⟩
    · rw [Game.Inside, hcanvas]
      exact ⟨hl₁.1, hl₂.1⟩
    · have hsame : ∀ c, g.canvas.Inside c →
          ((g.canvas.surround r.outside).Marked c ↔ g.canvas.Marked c) :=
        fun c hc => marked_surround hc
      exact ⟨(hsame _ hl₁.1).not.mp hl₁.2, (hsame _ hl₂.1).not.mp hl₂.2⟩
    · rw [hcanvas, marked_mark, marked_mark, marked_surround hc]
      exact or_left_comm

/-! ## Every game ends -/

/-- The cells of the canvas. -/
def Canvas.cells (canvas : Canvas) : Finset Cell :=
  (Finset.range canvas.width.toNat ×ˢ Finset.range canvas.height.toNat).image
    fun p => ((p.1 : ℤ), (p.2 : ℤ))

theorem mem_cells : c ∈ canvas.cells ↔ canvas.Inside c := by
  simp only [Canvas.cells, Finset.mem_image, Finset.mem_product, Finset.mem_range, Canvas.Inside]
  constructor
  · rintro ⟨p, hp, rfl⟩
    dsimp only
    omega
  · intro h
    exact ⟨(c.1.toNat, c.2.toNat), by omega, Prod.ext (by dsimp only; omega) (by dsimp only; omega)⟩

theorem card_cells (canvas : Canvas) :
    canvas.cells.card = canvas.width.toNat * canvas.height.toNat := by
  have hinj : Function.Injective fun p : ℕ × ℕ => ((p.1 : ℤ), (p.2 : ℤ)) :=
    Function.Injective.prodMap (fun _ _ => Int.ofNat.inj) fun _ _ => Int.ofNat.inj
  rw [Canvas.cells, Finset.card_image_of_injective _ hinj, Finset.card_product, Finset.card_range,
    Finset.card_range]

/-- The cells of the canvas that are marked. -/
def Canvas.markedCells (canvas : Canvas) : Finset Cell := canvas.cells.filter canvas.Marked

theorem Fresh.cells (h : Fresh g g') : g'.canvas.cells = g.canvas.cells := by
  rw [Canvas.cells, Canvas.cells, h.width, h.height]

/-- Two cells more are marked after a pass. -/
theorem Fresh.card (h : Fresh g g') :
    g'.canvas.markedCells.card = g.canvas.markedCells.card + 2 := by
  have hcells := h.cells
  have hin₁ : g'.p1.cell ∈ g.canvas.cells := hcells ▸ mem_cells.mpr h.inside.1
  have hin₂ : g'.p2.cell ∈ g.canvas.cells := hcells ▸ mem_cells.mpr h.inside.2
  have heq : g'.canvas.markedCells =
      insert g'.p1.cell (insert g'.p2.cell g.canvas.markedCells) := by
    ext c
    simp only [Canvas.markedCells, Finset.mem_filter, Finset.mem_insert, hcells]
    constructor
    · rintro ⟨hc, hmark⟩
      rcases (h.marked c (mem_cells.mp hc)).mp hmark with rfl | rfl | hold
      · exact Or.inl rfl
      · exact Or.inr (Or.inl rfl)
      · exact Or.inr (Or.inr ⟨hc, hold⟩)
    · rintro (rfl | rfl | ⟨hc, hold⟩)
      · exact ⟨hin₁, (h.marked _ (mem_cells.mp hin₁)).mpr (Or.inl rfl)⟩
      · exact ⟨hin₂, (h.marked _ (mem_cells.mp hin₂)).mpr (Or.inr (Or.inl rfl))⟩
      · exact ⟨hc, (h.marked c (mem_cells.mp hc)).mpr (Or.inr (Or.inr hold))⟩
  have hnot₂ : g'.p2.cell ∉ g.canvas.markedCells := fun hmem =>
    h.unmarked.2 (Finset.mem_filter.mp hmem).2
  have hnot₁ : g'.p1.cell ∉ insert g'.p2.cell g.canvas.markedCells := by
    rw [Finset.mem_insert]
    rintro (heq | hmem)
    · exact h.ne heq
    · exact h.unmarked.1 (Finset.mem_filter.mp hmem).2
  rw [heq, Finset.card_insert_of_notMem hnot₁, Finset.card_insert_of_notMem hnot₂]

/-- In a run of passes that do not return, each marks two cells. -/
theorem run_card (h : run step g rs = some g') : g'.canvas.cells = g.canvas.cells ∧
    g'.canvas.markedCells.card = g.canvas.markedCells.card + 2 * rs.length := by
  induction rs generalizing g with
  | nil =>
    obtain rfl := Option.some.inj h
    exact ⟨rfl, rfl⟩
  | cons r rs ih =>
    rw [run_cons, Option.bind_eq_some_iff] at h
    obtain ⟨g₁, hstep, hrun⟩ := h
    have hfresh := step_fresh hstep
    obtain ⟨hcells, hcard⟩ := ih hrun
    refine ⟨hcells.trans hfresh.cells, ?_⟩
    rw [hcard, hfresh.card, List.length_cons]
    omega

/-- The keys of the first passes. -/
def firstRounds (rounds : ℕ → Round) (n : ℕ) : List Round := (List.range n).map rounds

/-- From any two cells of a cleared canvas, whatever keys come and whatever is in memory around the
canvas: `playTron` returns in one of its first `W * H / 2 + 1` passes, and each pass that does not
return marks two different cells of the canvas that were not marked. -/
theorem playTron_ends (canvas : Canvas) (p1 p2 : Player) (rounds : ℕ → Round) :
    (∃ n ≤ canvas.width.toNat * canvas.height.toNat / 2 + 1,
      run step (start p1 p2 (initializeCanvas canvas)) (firstRounds rounds n) = none) ∧
    ∀ n g g', run step (start p1 p2 (initializeCanvas canvas)) (firstRounds rounds n) = some g →
      step g (rounds n) = some g' → Fresh g g' := by
  refine ⟨⟨_, le_refl _, ?_⟩, fun n g g' _ hstep => step_fresh hstep⟩
  cases hrun : run step (start p1 p2 (initializeCanvas canvas))
    (firstRounds rounds (canvas.width.toNat * canvas.height.toNat / 2 + 1)) with
  | none => rfl
  | some g' =>
    obtain ⟨hcells, hcard⟩ := run_card hrun
    have hle : g'.canvas.markedCells.card ≤ canvas.width.toNat * canvas.height.toNat := by
      refine (Finset.card_filter_le _ _).trans ?_
      rw [hcells]
      exact (card_cells canvas).le
    rw [hcard, firstRounds, List.length_map, List.length_range] at hle
    omega

/-! ## What a game looks at -/

/-- The pass stays on the canvas: it returns before the players move, or they collide head-on, or
both are on the canvas then. -/
def StaysInside (g : Game) (r : Round) : Prop :=
  ∀ q ∈ moved g r.key, HeadOn q.1 q.2 ∨ g.canvas.Inside q.1.cell ∧ g.canvas.Inside q.2.cell

instance (g : Game) (r : Round) : Decidable (StaysInside g r) :=
  inferInstanceAs (Decidable (∀ q ∈ moved g r.key, _))

theorem validPositions_accesses (p1 p2 : Player) (canvas : Canvas) :
    (validPositions p1 p2 canvas).2 = if HeadOn p1 p2 then [] else [p1.cell, p2.cell] := by
  rw [validPositions_eq]
  split_ifs <;> rfl

/-- The cells that a pass reads and writes. -/
theorem accesses_inside_iff (g : Game) (r : Round) :
    (∀ c ∈ (pass g r).accesses, g.canvas.Inside c) ↔ StaysInside g r := by
  unfold StaysInside
  cases hmoved : moved g r.key with
  | none => simp [pass_eq_of_none hmoved]
  | some q =>
    obtain ⟨q1, q2⟩ := q
    have hpair : ∀ c, c ∈ [q1.cell, q2.cell] ↔ c = q1.cell ∨ c = q2.cell := fun c => by simp
    simp only [(pass_eq_of_moved hmoved).1, validPositions_accesses, Option.mem_def,
      Option.some.injEq, forall_eq', List.mem_append]
    by_cases hhead : HeadOn q1 q2
    · have hends : (validPositions q1 q2 (g.canvas.surround r.outside)).1 ≠ .goesOn :=
        fun h => (goesOn_iff.mp h).1 hhead
      simp [hhead, hends]
    · rw [if_neg hhead, or_iff_right hhead]
      constructor
      · intro h
        exact ⟨h _ (Or.inl (by simp)), h _ (Or.inl (by simp))⟩
      · rintro ⟨h₁, h₂⟩ c hc
        have hmem : c ∈ [q1.cell, q2.cell] := by
          rcases hc with hc | hc
          · exact hc
          · split_ifs at hc
            · exact hc
            · exact absurd hc List.not_mem_nil
        rcases (hpair c).mp hmem with rfl | rfl
        · exact h₁
        · exact h₂

theorem loopAccesses_inside_iff (g : Game) (rs : List Round) :
    (∀ c ∈ loopAccesses g rs, g.canvas.Inside c) ↔ Throughout step StaysInside g rs := by
  induction rs generalizing g with
  | nil => simp [loopAccesses, Throughout]
  | cons r rs ih =>
    rw [loopAccesses, Throughout, ← accesses_inside_iff]
    simp only [List.mem_append, or_imp, forall_and]
    refine and_congr_right fun _ => ?_
    cases hnext : (pass g r).next with
    | none => simp [step, hnext]
    | some g' =>
      have hfresh : Fresh g g' := step_fresh hnext
      have hinside : ∀ c, g'.canvas.Inside c ↔ g.canvas.Inside c := fun c => by
        rw [Canvas.Inside, Canvas.Inside, hfresh.width, hfresh.height]
      simp only [step, hnext, Option.some.injEq, forall_eq', ← ih, hinside]

/-- From every two cells of the canvas and for every sequence of keys, `playTron` and
`validPositions` read and write cells of the canvas only, if and only if in each pass the players
that have moved collide head-on or are both on the canvas. -/
theorem playTron_inside_iff (canvas : Canvas) (p1 p2 : Player) (rs : List Round)
    (h1 : canvas.Inside p1.cell) (h2 : canvas.Inside p2.cell) :
    (∀ c ∈ playTron p1 p2 canvas rs, canvas.Inside c) ↔
      Throughout step StaysInside (start p1 p2 canvas) rs := by
  rw [← loopAccesses_inside_iff]
  have hstart : ∀ c, (start p1 p2 canvas).canvas.Inside c ↔ canvas.Inside c := fun _ => Iff.rfl
  simp only [playTron, List.mem_append, or_imp, forall_and, hstart]
  refine ⟨fun h => h.2, fun h => ⟨fun c hc => ?_, h⟩⟩
  simp only [List.mem_cons, List.not_mem_nil, or_false] at hc
  rcases hc with rfl | rfl
  · exact h1
  · exact h2

/-- A canvas of 20 by 10 cells. -/
def small : Canvas := initializeCanvas ⟨20, 10, fun _ _ => 7⟩

/-- A key, with the value 7 around the canvas. -/
def idle (key : ℤ) : Round := ⟨key, fun _ _ => 7⟩

/-- The players begin where `initializePlayers` puts them, and go on for three passes. -/
theorem playTron_inside_three :
    (playTron ⟨16, 5, .left⟩ ⟨4, 5, .right⟩ small [idle 0, idle 0, idle 0]).all
      fun c => decide (small.Inside c) := by
  have hinside := (playTron_inside_iff small ⟨16, 5, .left⟩ ⟨4, 5, .right⟩ [idle 0, idle 0, idle 0]
    (by decide) (by decide)).mpr (by decide)
  exact List.all_eq_true.mpr fun c hc => decide_eq_true (hinside c hc)

/-- Player 1 turns up and goes on to the edge. In the sixth pass `validPositions` reads
`board[16][-1]`. -/
theorem playTron_outside :
    ¬ ∀ (canvas : Canvas) (p1 p2 : Player) (rs : List Round), canvas.Inside p1.cell →
      canvas.Inside p2.cell → ∀ c ∈ playTron p1 p2 canvas rs, canvas.Inside c := by
  intro hclaim
  have hfail := hclaim small ⟨16, 5, .left⟩ ⟨4, 5, .right⟩
    [idle UP_KEY, idle 0, idle 0, idle 0, idle 0, idle 0] (by decide) (by decide) (16, -1)
    (by decide)
  exact absurd hfail (by decide)

end TronKernel.Tron
