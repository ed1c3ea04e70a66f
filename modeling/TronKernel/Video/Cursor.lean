import TronKernel.Lib.Runs
import TronKernel.Video.Scroll
import Mathlib.Data.List.Induction

/-!
# The text cursor

The cursor of `printStringAt` is a start `x` and a number of characters `i`. Here it is one number,
the distance from the left edge, which `moveCursor` moves in exact integers. The code's unsigned
comparison decides the same as long as the distance is small, so the code moves as `moveCursor` does
(`foldl_printNext`). Only a backspace at the left edge leaves the screen; the next character would
bring the cursor back, but at the end of a string it is stored as a huge `posX`
(`cursor_stays_iff`).
-/

namespace TronKernel.Video

open Runs

/-! ## The cursor as a distance -/

/-- Where the next character goes: to the left edge if it would not fit, or begins to the left of
the screen. Characters are `8 * f` wide, and half of one may go past the edge. -/
def wrapped (W f p : ℤ) : ℤ := if 0 ≤ p + 4 * f ∧ p + 4 * f ≤ W then p else 0

/-- A character moves the cursor. -/
def moveCursor (W f p : ℤ) (c : UInt8) : ℤ :=
  if c = NEWLINE then 0
  else if c = BACKSPACE then wrapped W f p - 8 * f
  else wrapped W f p + 8 * f

/-- Where a string leaves the cursor. -/
def cursorAfter (W f p : ℤ) (string : List UInt8) : ℤ := string.foldl (moveCursor W f) p

variable {W f p : ℤ} {c : UInt8} {string : List UInt8}

theorem wrapped_bounds (hf : 0 ≤ f) (hW : 8 * f ≤ W) :
    -4 * f ≤ wrapped W f p ∧ wrapped W f p ≤ W - 4 * f := by
  rw [wrapped]
  split_ifs <;> omega

/-- Wherever the cursor was, a character leaves it not far from the screen. -/
theorem moveCursor_bounds (hf : 0 ≤ f) (hW : 8 * f ≤ W) :
    -12 * f ≤ moveCursor W f p c ∧ moveCursor W f p c ≤ W + 4 * f := by
  obtain ⟨hlow, hhigh⟩ := wrapped_bounds (p := p) hf hW
  rw [moveCursor]
  split_ifs <;> omega

theorem cursorAfter_le (string : List UInt8) (hf : 0 ≤ f) (hW : 8 * f ≤ W) (hp : p ≤ W + 8 * f) :
    cursorAfter W f p string ≤ W + 8 * f := by
  induction string generalizing p with
  | nil => exact hp
  | cons c string ih =>
    have hmove := moveCursor_bounds (p := p) (c := c) hf hW
    exact ih (by omega)

theorem le_cursorAfter (string : List UInt8) (hf : 0 ≤ f) (hW : 8 * f ≤ W) (hp : -12 * f ≤ p) :
    -12 * f ≤ cursorAfter W f p string := by
  induction string generalizing p with
  | nil => exact hp
  | cons c string ih => exact ih (moveCursor_bounds hf hW).1

/-- The string does not end with a backspace for which there is no room to the left. -/
def EndsOnScreen (W f p : ℤ) (string : List UInt8) : Prop :=
  string.getLast? = some BACKSPACE → 8 * f ≤ wrapped W f (cursorAfter W f p string.dropLast)

instance : Decidable (EndsOnScreen W f p string) :=
  inferInstanceAs (Decidable (_ → _))

/-- A string leaves the cursor on the screen unless it ends with a backspace at the left edge. -/
theorem cursorAfter_nonneg_iff (hf : 0 ≤ f) (hW : 8 * f ≤ W) (hp : 0 ≤ p) :
    0 ≤ cursorAfter W f p string ↔ EndsOnScreen W f p string := by
  induction string using List.reverseRecOn with
  | nil =>
    refine ⟨fun _ h => ?_, fun _ => hp⟩
    cases h
  | append_singleton pre c ih =>
    have hbounds := wrapped_bounds (p := cursorAfter W f p pre) hf hW
    rw [EndsOnScreen, List.getLast?_concat, List.dropLast_concat, cursorAfter, List.foldl_concat,
      ← cursorAfter, moveCursor]
    split_ifs with hnewline hback
    · subst hnewline
      simp [NEWLINE, BACKSPACE]
    · subst hback
      simp only [true_imp_iff]
      omega
    · simp only [Option.some.injEq, hback, false_imp_iff, iff_true]
      omega

/-! ## The code's cursor -/

variable {font : ℕ → Int8} {s : Screen} {fontSize : UInt32} {color : Color} {t : Text}

/-- The distance of the cursor from the left edge. -/
def distance (fontSize : UInt32) (t : Text) : ℤ := t.x.toNat + 8 * t.i * fontSize.toNat

/-- The cursor is near enough to the screen for the unsigned comparison. -/
def Near (p : ℤ) : Prop := -2 ^ 20 ≤ p ∧ p ≤ 2 ^ 20

theorem atEdge_iff (hsize : fontSize.toNat < 2 ^ 16) (hnear : Near (distance fontSize t)) :
    atEdge s fontSize t = true ↔
      ¬ (0 ≤ distance fontSize t + 4 * fontSize.toNat ∧
        distance fontSize t + 4 * fontSize.toNat ≤ s.width.toNat) := by
  have hwidth : s.width.toNat < 2 ^ 16 := s.width.toNat_lt
  have hsum : (t.x.toNat + fontSize.toNat * (t.i * FONT_WIDTH + FONT_WIDTH / 2) : ℤ)
      = distance fontSize t + 4 * fontSize.toNat := by
    rw [distance, FONT_WIDTH, show (((8 : ℕ) : ℤ) / 2 : ℤ) = 4 from rfl]
    push_cast
    ring
  rw [atEdge, hsum, decide_eq_true_iff, gt_iff_lt]
  rw [Near] at hnear
  omega

/-- The cursor once the line break is made. -/
theorem distance_break (hsize : fontSize.toNat < 2 ^ 16) (hnear : Near (distance fontSize t)) :
    distance fontSize
        (if atEdge s fontSize t ∨ c = NEWLINE then newLine s fontSize t else t) =
      if c = NEWLINE then 0 else wrapped s.width.toNat fontSize.toNat (distance fontSize t) := by
  have hedge := atEdge_iff (s := s) hsize hnear
  have hnew : distance fontSize (newLine s fontSize t) = 0 := by
    rw [newLine]
    split_ifs <;> simp [distance]
  by_cases hc : c = NEWLINE
  · rw [if_pos (.inr hc), if_pos hc, hnew]
  · rw [if_neg hc, wrapped]
    by_cases hat : atEdge s fontSize t = true
    · rw [if_pos (.inl hat), hnew, if_neg (hedge.mp hat)]
    · rw [if_neg (by simp [hat, hc]), if_pos (not_not.mp (mt hedge.mpr hat))]

/-- One character moves the code's cursor as `moveCursor` does. -/
theorem distance_printNext (font : ℕ → Int8) (s : Screen) (color : Color) (c : UInt8)
    (hsize : fontSize.toNat < 2 ^ 16) (hnear : Near (distance fontSize t)) :
    distance fontSize (printNext font s fontSize color t c) =
      moveCursor s.width.toNat fontSize.toNat (distance fontSize t) c := by
  have hbreak := distance_break (s := s) (c := c) hsize hnear
  rw [printNext, moveCursor]
  set t' := if atEdge s fontSize t ∨ c = NEWLINE then newLine s fontSize t else t with ht'
  by_cases hnewline : c = NEWLINE
  · rw [if_pos hnewline] at hbreak
    have hback : c ≠ BACKSPACE := by
      rw [hnewline]
      decide
    rw [if_pos hnewline, if_neg hback, if_neg (not_not.mpr hnewline), hbreak]
  · rw [if_neg hnewline] at hbreak
    rw [if_neg hnewline]
    split_ifs with hback
    · rw [← hbreak, distance, distance]
      ring
    · rw [← hbreak, distance, distance]
      ring

/-- The row of the cursor and the one below its line fit on the screen. -/
def RowFits (s : Screen) (fontSize : UInt32) (y : UInt8) : Prop :=
  (y.toNat + 1) * lineHeight fontSize ≤ s.height.toNat

/-- A character leaves the cursor in a row that fits. -/
theorem rowFits_printNext (hsize : fontSize.toNat < 2 ^ 16)
    (hheight : s.height.toNat ≤ 255 * lineHeight fontSize) (h : RowFits s fontSize t.y) :
    RowFits s fontSize (printNext font s fontSize color t c).y := by
  have hnew : RowFits s fontSize (newLine s fontSize t).y := by
    rw [newLine]
    split_ifs with hbottom
    · exact h
    · have hproduct : (t.y.toNat + 2) * (FONT_HEIGHT / 2) * fontSize.toNat
          = (t.y.toNat + 2) * lineHeight fontSize := by rw [lineHeight, Nat.mul_assoc]
      have hsmall : (t.y.toNat + 2) * lineHeight fontSize < 2 ^ 32 := by
        have hy : t.y.toNat < 2 ^ 8 := t.y.toNat_lt
        calc (t.y.toNat + 2) * lineHeight fontSize ≤ 257 * (16 * 65535) := by
              apply Nat.mul_le_mul (by omega)
              rw [lineHeight, FONT_HEIGHT]
              omega
          _ < 2 ^ 32 := by decide
      rw [hproduct, Nat.mod_eq_of_lt hsmall, ge_iff_le, Nat.not_le] at hbottom
      have hrow : t.y.toNat + 2 < 255 := Nat.lt_of_mul_lt_mul_right (hbottom.trans_le hheight)
      have hnext : (t.y + 1).toNat = t.y.toNat + 1 := by
        rw [UInt8.toNat_add, show (1 : UInt8).toNat = 1 from rfl]
        omega
      rw [RowFits, hnext]
      exact hbottom.le
  rw [printNext]
  set t' := if atEdge s fontSize t ∨ c = NEWLINE then newLine s fontSize t else t with ht'
  have hbreak : RowFits s fontSize t'.y := by
    rw [ht']
    split_ifs
    · exact hnew
    · exact h
  split_ifs
  · exact hbreak
  · exact hbreak
  · exact hbreak

/-! ## Strings -/

/-- A font that fits on the screen. -/
structure FontFits (s : Screen) (fontSize : UInt32) : Prop where
  width : 8 * fontSize.toNat ≤ s.width.toNat
  height : lineHeight fontSize ≤ s.height.toNat
  height_le : s.height.toNat ≤ 255 * lineHeight fontSize

theorem FontFits.size_lt (h : FontFits s fontSize) : fontSize.toNat < 2 ^ 16 := by
  have hwidth : s.width.toNat < 2 ^ 16 := s.width.toNat_lt
  have := h.width
  omega

theorem FontFits.width_cast (h : FontFits s fontSize) :
    8 * (fontSize.toNat : ℤ) ≤ (s.width.toNat : ℤ) := by
  have := h.width
  omega

/-- The loop moves the code's cursor as the string moves the distance, and keeps the row on the
screen. -/
theorem foldl_printNext (font : ℕ → Int8) (color : Color) (string : List UInt8)
    (hfits : FontFits s fontSize) (hnear : Near (distance fontSize t))
    (hrow : RowFits s fontSize t.y) :
    distance fontSize (string.foldl (printNext font s fontSize color) t) =
        cursorAfter s.width.toNat fontSize.toNat (distance fontSize t) string ∧
      RowFits s fontSize (string.foldl (printNext font s fontSize color) t).y := by
  induction string generalizing t with
  | nil => exact ⟨rfl, hrow⟩
  | cons c string ih =>
    have hwidth : s.width.toNat < 2 ^ 16 := s.width.toNat_lt
    have hsize := hfits.size_lt
    have hmove := distance_printNext font s color c hsize hnear
    have hbounds := moveCursor_bounds (p := distance fontSize t) (c := c)
      (Int.natCast_nonneg fontSize.toNat) hfits.width_cast
    have hnext : Near (distance fontSize (printNext font s fontSize color t c)) := by
      rw [hmove, Near]
      omega
    obtain ⟨hdist, hy⟩ := ih hnext (rowFits_printNext hsize hfits.height_le hrow)
    exact ⟨by rw [List.foldl_cons, hdist, hmove]; rfl, hy⟩

/-- The cursor is on the screen. -/
def OnScreen (d : Driver) : Prop :=
  d.posX.toNat ≤ d.screen.width.toNat + 8 * d.fontSize.toNat ∧
    RowFits d.screen d.fontSize d.yChar

/-- The string leaves the cursor on the screen: `printString` starts at the low 16 bits of
`posX`. -/
def KeepsOnScreen (d : Driver) (string : List UInt8) : Prop :=
  EndsOnScreen d.screen.width.toNat d.fontSize.toNat d.posX.toUInt16.toNat string

instance (d : Driver) : Decidable (KeepsOnScreen d string) :=
  inferInstanceAs (Decidable (EndsOnScreen _ _ _ _))

/-- The column as it is stored. -/
theorem toNat_ofNat_column (fontSize : UInt32) (t : Text) :
    ((UInt32.ofNat (column fontSize t)).toNat : ℤ) = distance fontSize t % 2 ^ 32 := by
  rw [UInt32.toNat_ofNat', column, distance, FONT_WIDTH]
  push_cast
  omega

@[simp] theorem screen_printString (d : Driver) :
    (printString font d string color).screen = d.screen := rfl

@[simp] theorem fontSize_printString (d : Driver) :
    (printString font d string color).fontSize = d.fontSize := rfl

/-- One call keeps the cursor on the screen exactly if its string does. -/
theorem onScreen_printString_iff {d : Driver} (hfits : FontFits d.screen d.fontSize)
    (hd : OnScreen d) :
    OnScreen (printString font d string color) ↔ KeepsOnScreen d string := by
  obtain ⟨hpos, hrow⟩ := hd
  have hwidth : d.screen.width.toNat < 2 ^ 16 := d.screen.width.toNat_lt
  have hfont := Int.natCast_nonneg d.fontSize.toNat
  have hsize := hfits.width_cast
  set start : Text := ⟨d.posX.toUInt16, d.yChar, 0, d.mem⟩ with hstart
  have hx : distance d.fontSize start = d.posX.toUInt16.toNat := by simp [distance, hstart]
  have hlow : d.posX.toUInt16.toNat ≤ d.posX.toNat := Nat.mod_le _ _
  have hlt : d.posX.toUInt16.toNat < 2 ^ 16 := UInt16.toNat_lt _
  have hnear : Near (distance d.fontSize start) := by
    rw [hx, Near]
    omega
  obtain ⟨hdist, hy⟩ := foldl_printNext font color string hfits hnear hrow
  rw [hx] at hdist
  have hle := cursorAfter_le (p := d.posX.toUInt16.toNat) string hfont hsize (by omega)
  have hge := le_cursorAfter (p := d.posX.toUInt16.toNat) string hfont hsize (by omega)
  have hposX : ((printString font d string color).posX.toNat : ℤ) =
      cursorAfter d.screen.width.toNat d.fontSize.toNat d.posX.toUInt16.toNat string % 2 ^ 32 := by
    rw [← hdist]
    exact toNat_ofNat_column _ _
  rw [KeepsOnScreen, ← cursorAfter_nonneg_iff hfont hsize (by omega), OnScreen, screen_printString,
    fontSize_printString]
  constructor
  · rintro ⟨hpos', -⟩
    by_contra hneg
    omega
  · intro hnonneg
    exact ⟨by omega, hy⟩

theorem onScreen_clearScreen {d : Driver} (hfits : FontFits d.screen d.fontSize) :
    OnScreen (clearScreen d) := by
  refine ⟨Nat.zero_le _, ?_⟩
  rw [RowFits, show (clearScreen d).yChar.toNat = 0 from rfl, Nat.zero_add, Nat.one_mul]
  exact hfits.height

/-! ## Calls -/

/-- A call of `printString`. -/
structure PrintCall where
  string : List UInt8
  color : Color

def step (font : ℕ → Int8) (d : Driver) (call : PrintCall) : Option Driver :=
  some (printString font d call.string call.color)

/-- After every call of a sequence the cursor is on the screen, if and only if no call ends with a
backspace for which there is no room to the left of the cursor. -/
theorem cursor_stays_iff (font : ℕ → Int8) (d : Driver) (calls : List PrintCall)
    (hfits : FontFits d.screen d.fontSize) :
    (∀ calls₁ d₁, calls₁ <+: calls → run (step font) (clearScreen d) calls₁ = some d₁ →
      OnScreen d₁) ↔
    Throughout (step font) (fun d call => KeepsOnScreen d call.string) (clearScreen d) calls := by
  apply always_iff_throughout
    (G := fun d' => d'.screen = d.screen ∧ d'.fontSize = d.fontSize)
  · exact ⟨rfl, rfl⟩
  · exact onScreen_clearScreen hfits
  · rintro d₁ call d₂ ⟨hscreen, hfont⟩ hstep
    obtain rfl := Option.some.inj hstep
    exact ⟨hscreen, hfont⟩
  · rintro d₁ call d₂ ⟨hscreen, hfont⟩ hd₁ hstep
    obtain rfl := Option.some.inj hstep
    exact onScreen_printString_iff (by rw [hscreen, hfont]; exact hfits) hd₁
  · intro d₁ call _ hstep
    cases hstep

/-- A driver with a common screen. -/
def exampleDriver : Driver := ⟨1, 0, 0, ⟨1024, 768, 0xFD000000⟩, fun _ => 0⟩

theorem fontFits_example : FontFits exampleDriver.screen exampleDriver.fontSize :=
  ⟨by decide, by decide, by decide⟩

/-- A line, and a character that is taken back. -/
theorem cursor_stays_example :
    ∃ d₁, run (step fun _ => 0) (clearScreen exampleDriver)
        [⟨[108, 115, 10], BLACK⟩, ⟨[97, 8], BLACK⟩] = some d₁ ∧ OnScreen d₁ :=
  ⟨_, rfl, (cursor_stays_iff (fun _ => 0) exampleDriver [⟨[108, 115, 10], BLACK⟩, ⟨[97, 8], BLACK⟩]
    fontFits_example).mpr (by decide +kernel) _ _ (List.prefix_refl _) rfl⟩

/-- A single backspace on the empty screen. -/
theorem backspace_leaves_screen :
    ¬ ∀ (d : Driver) (calls : List PrintCall), FontFits d.screen d.fontSize →
      ∀ calls₁ d₁, calls₁ <+: calls →
        run (step fun _ => 0) (clearScreen d) calls₁ = some d₁ → OnScreen d₁ := by
  intro hall
  have honScreen : OnScreen (printString (fun _ => 0) (clearScreen exampleDriver) [8] BLACK) :=
    hall exampleDriver [⟨[8], BLACK⟩] fontFits_example [⟨[8], BLACK⟩] _ (List.prefix_refl _) rfl
  have hkeeps := (onScreen_printString_iff (d := clearScreen exampleDriver) fontFits_example
    (onScreen_clearScreen fontFits_example)).mp honScreen
  exact absurd hkeeps (by decide +kernel)

end TronKernel.Video
