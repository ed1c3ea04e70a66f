import TronKernel.Video.Cursor
import TronKernel.Video.Glyph

/-!
# The screen is a text terminal

With the smallest font the driver is meant to be a terminal: a grid of cells with a cursor that
writes, goes to the next line, takes a character back and scrolls. `Terminal` is that grid, without
pixels. From `clearScreen` on, the framebuffer shows the grid pixel by pixel after every sequence of
calls (`terminal_shown`). The terminal takes a character back only where the driver erases the whole
cell: the rectangle of a backspace is as wide as its distance from the left edge and one pixel more,
which is too narrow for the cell at the edge.
-/

namespace TronKernel.Video

open Runs

/-! ## The terminal -/

/-- A grid of characters, with nothing at the cursor and behind it. -/
structure Terminal where
  row : ℕ
  col : ℕ
  cell : ℕ → ℕ → Option (UInt8 × Color)
  ahead : ∀ c, col ≤ c → cell row c = none
  below : ∀ r c, row < r → cell r c = none

namespace Terminal

/-- The empty terminal. -/
def blank : Terminal := ⟨0, 0, fun _ _ => none, fun _ _ => rfl, fun _ _ _ => rfl⟩

/-- All lines move up by one. -/
def scrollUp (t : Terminal) : Terminal :=
  ⟨t.row, 0, fun r => t.cell (r + 1), fun c _ => t.below _ c (Nat.lt_succ_self _),
    fun _ c hr => t.below _ c (Nat.lt_succ_of_lt hr)⟩

/-- The cursor goes to the next line. -/
def lineFeed (t : Terminal) : Terminal :=
  ⟨t.row + 1, 0, t.cell, fun c _ => t.below _ c (Nat.lt_succ_self _),
    fun _ c hr => t.below _ c (Nat.lt_of_succ_lt hr)⟩

/-- The next line of a screen of `H` rows of pixels. -/
def newLine (H : ℕ) (t : Terminal) : Terminal :=
  if H ≤ (t.row + 2) * 16 then t.scrollUp else t.lineFeed

/-- A character is written at the cursor. -/
def write (t : Terminal) (c : UInt8) (color : Color) : Terminal where
  row := t.row
  col := t.col + 1
  cell r k := if r = t.row ∧ k = t.col then some (c, color) else t.cell r k
  ahead k hk := by
    rw [if_neg (by omega)]
    exact t.ahead k (by omega)
  below r k hr := by
    rw [if_neg (by omega)]
    exact t.below r k hr

/-- The character in front of the cursor is taken back. -/
def erase (t : Terminal) : Terminal where
  row := t.row
  col := t.col - 1
  cell r k := if r = t.row ∧ k = t.col - 1 then none else t.cell r k
  ahead k hk := by
    split_ifs
    · rfl
    · exact t.ahead k (by omega)
  below r k hr := by
    rw [if_neg (by omega)]
    exact t.below r k hr

/-- A line break, if one is due: on a screen of `W` columns of pixels, half of a character may go
past the edge. -/
def wrap (W H : ℕ) (t : Terminal) (c : UInt8) : Terminal :=
  if W < 8 * t.col + 4 ∨ c = NEWLINE then t.newLine H else t

/-- One character. A backspace needs two characters in front of the cursor. -/
def type (W H : ℕ) (color : Color) (t : Terminal) (c : UInt8) : Option Terminal :=
  let t := t.wrap W H c
  if c = BACKSPACE then if 2 ≤ t.col then some t.erase else none
  else if c = NEWLINE then some t
  else some (t.write c color)

/-- The color of a pixel: that of its character where the glyph has a dot. -/
def pixel (font : ℕ → Int8) (t : Terminal) (i j : ℕ) : Color :=
  match t.cell (j / 16) (i / 8) with
  | none => BLACK
  | some (c, color) => if dot font c (i % 8) (j % 16) then color else BLACK

end Terminal

/-! ## Calls -/

/-- The calls of the driver that write to the screen at the cursor or clear it. -/
inductive Call where
  | printString (string : List UInt8) (color : Color)
  | clearScreen

/-- What a call does to the terminal. -/
def Terminal.call (W H : ℕ) (t : Terminal) : Call → Option Terminal
  | .printString string color => run (type W H color) t string
  | .clearScreen => some blank

/-- What a call does to the driver. -/
def Driver.call (font : ℕ → Int8) (d : Driver) : Call → Option Driver
  | .printString string color => some (printString font d string color)
  | .clearScreen => some (clearScreen d)

/-! ## What is shown -/

variable {font : ℕ → Int8} {s : Screen} {color : Color} {m m' : Mem} {t t' : Terminal}

/-- The framebuffer has the pixels of the terminal. -/
def ShowsPixels (font : ℕ → Int8) (s : Screen) (t : Terminal) (m : Mem) : Prop :=
  ∀ i < s.width.toNat, ∀ j < s.height.toNat, ∀ k < sizeofColor,
    m (pixelAt s i j + k) = (t.pixel font i j).byte k

/-- From `m` to `m'` nothing outside the framebuffer changes. -/
def InFramebuffer (s : Screen) (m m' : Mem) : Prop :=
  ∀ a, a < s.framebuffer.toNat ∨
    s.framebuffer.toNat + sizeofColor * (s.width.toNat * s.height.toNat) ≤ a → m' a = m a

theorem InFramebuffer.trans {m'' : Mem} (h : InFramebuffer s m m') (h' : InFramebuffer s m' m'') :
    InFramebuffer s m m'' := fun a ha => (h' a ha).trans (h a ha)

/-- A cell of the terminal is empty. -/
theorem Terminal.pixel_of_none {i j : ℕ} (h : t.cell (j / 16) (i / 8) = none) :
    t.pixel font i j = BLACK := by
  rw [Terminal.pixel, h]

/-- The pixels of a screen are numbered row by row. -/
theorem pixel_inj {W i j i' j' : ℕ} (hi : i < W) (hi' : i' < W) :
    i + j * W = i' + j' * W ↔ i = i' ∧ j = j' := by
  constructor
  · intro h
    have hcolumn := congrArg (· % W) h
    have hrow := congrArg (· / W) h
    simp only [Nat.add_mul_mod_self_right, Nat.mod_eq_of_lt hi, Nat.mod_eq_of_lt hi',
      Nat.add_mul_div_right _ _ (Nat.zero_lt_of_lt hi), Nat.div_eq_of_lt hi,
      Nat.div_eq_of_lt hi', Nat.zero_add] at hcolumn hrow
    exact ⟨hcolumn, hrow⟩
  · rintro ⟨rfl, rfl⟩
    rfl

/-- What painting pixels of the screen shows. -/
theorem Paints.shows {A : Set ℕ} (h : Paints s.framebuffer.toNat color A m m')
    (hscreen : ∀ q ∈ A, q < s.width.toNat * s.height.toNat) (hm : ShowsPixels font s t m)
    (hA : ∀ i < s.width.toNat, ∀ j < s.height.toNat, i + j * s.width.toNat ∈ A →
      t'.pixel font i j = color)
    (hnot : ∀ i < s.width.toNat, ∀ j < s.height.toNat, i + j * s.width.toNat ∉ A →
      t'.pixel font i j = t.pixel font i j) :
    ShowsPixels font s t' m' ∧ InFramebuffer s m m' := by
  constructor
  · intro i hi j hj k hk
    have hpixel : (pixelAt s i j + k - s.framebuffer.toNat) / sizeofColor =
        i + j * s.width.toNat := by
      rw [pixelAt]
      rw [sizeofColor] at hk ⊢
      omega
    have hbyte : (pixelAt s i j + k - s.framebuffer.toNat) % sizeofColor = k := by
      rw [pixelAt]
      rw [sizeofColor] at hk ⊢
      omega
    have hle : s.framebuffer.toNat ≤ pixelAt s i j + k := by
      rw [pixelAt]
      omega
    have hat := h (pixelAt s i j + k)
    rw [hpixel, hbyte] at hat
    by_cases hmem : i + j * s.width.toNat ∈ A
    · rw [hat.1 ⟨hle, hmem⟩, hA i hi j hj hmem]
    · rw [hat.2 fun hin => hmem hin.2, hm i hi j hj k hk, hnot i hi j hj hmem]
  · intro a ha
    refine (h a).2 fun hin => ?_
    have hle := hin.1
    have hlt := hscreen _ hin.2
    rw [sizeofColor] at ha hlt
    omega

/-! ## Characters -/

theorem mem_glyph {f x y i j : ℕ} {c : UInt8} (hi : i < s.width.toNat) (hj : j < s.height.toNat) :
    i + j * s.width.toNat ∈ glyph font s f c x y ↔
      x ≤ i ∧ y ≤ j ∧ dot font c ((i - x) / f) ((j - y) / f) := by
  constructor
  · rintro ⟨i', j', hi', hj', hx, hy, hdot, heq⟩
    obtain ⟨rfl, rfl⟩ := (pixel_inj hi hi').mp heq
    exact ⟨hx, hy, hdot⟩
  · rintro ⟨hx, hy, hdot⟩
    exact ⟨i, j, hi, hj, hx, hy, hdot, rfl⟩

theorem mem_clipped {x y w h : UInt16} {i j : ℕ} (hi : i < s.width.toNat) :
    i + j * s.width.toNat ∈ clipped s x y w h ↔ InClipped s x y w h i j := by
  constructor
  · rintro ⟨i', j', hin, heq⟩
    have hi' : i' < s.width.toNat := by
      have := hin.1.2
      omega
    obtain ⟨rfl, rfl⟩ := (pixel_inj hi hi').mp heq
    exact hin
  · intro hin
    exact ⟨i, j, hin, rfl⟩

/-- The pixels of a screen lie in front of its end. -/
theorem pixel_lt {i j : ℕ} (hi : i < s.width.toNat) (hj : j < s.height.toNat) :
    i + j * s.width.toNat < s.width.toNat * s.height.toNat := (pixel_lt_iff hi).mpr hj

/-- A character is written where the cell is empty. -/
theorem shows_write (hm : ShowsPixels font s t m) (c : UInt8) (color : Color) {x y : UInt16}
    (hx : x.toNat = 8 * t.col) (hy : y.toNat = 16 * t.row) (hright : 8 * t.col + 8 ≤ 2 ^ 16)
    (hbottom : 16 * t.row + 16 ≤ 2 ^ 16) :
    ShowsPixels font s (t.write c color) (printChar font s 1 m x y c color) ∧
      InFramebuffer s m (printChar font s 1 m x y c color) := by
  have hpaints : Paints s.framebuffer.toNat color (glyph font s 1 c x.toNat y.toNat) m
      (printChar font s 1 m x y c color) :=
    printChar_paints font 1 le_rfl (by decide) m x y (by rw [hx]; exact hright)
      (by rw [hy]; exact hbottom) c
  rw [hx, hy] at hpaints
  -- a dot of the glyph is in the cell at the cursor
  have hcell : ∀ i j, (8 * t.col ≤ i ∧ 16 * t.row ≤ j ∧
      dot font c ((i - 8 * t.col) / 1) ((j - 16 * t.row) / 1)) ↔
      (j / 16 = t.row ∧ i / 8 = t.col) ∧ dot font c (i % 8) (j % 16) := by
    intro i j
    rw [Nat.div_one, Nat.div_one]
    constructor
    · rintro ⟨hi, hj, hdot⟩
      obtain ⟨-, ⟨hi8, hj16⟩, -⟩ := dot_eq_true_iff.mp hdot
      rw [show i - 8 * t.col = i % 8 by omega, show j - 16 * t.row = j % 16 by omega] at hdot
      exact ⟨by omega, hdot⟩
    · rintro ⟨⟨hj, hi⟩, hdot⟩
      rw [show i % 8 = i - 8 * t.col by omega, show j % 16 = j - 16 * t.row by omega] at hdot
      exact ⟨by omega, by omega, hdot⟩
  refine hpaints.shows ?_ hm ?_ ?_
  · rintro q ⟨i, j, hi, hj, -, -, -, rfl⟩
    exact pixel_lt hi hj
  · intro i hi j hj hmem
    obtain ⟨hat, hdot⟩ := (hcell i j).mp ((mem_glyph hi hj).mp hmem)
    simp only [Terminal.pixel, Terminal.write, if_pos hat, if_pos hdot]
  · intro i hi j hj hmem
    have hout := mt (fun h => (mem_glyph hi hj).mpr ((hcell i j).mpr h)) hmem
    by_cases hat : j / 16 = t.row ∧ i / 8 = t.col
    · -- the cell has been empty, and the glyph has no dot here
      have hempty : t.cell (j / 16) (i / 8) = none := by
        rw [hat.1, hat.2]
        exact t.ahead _ le_rfl
      rw [Terminal.pixel_of_none hempty]
      simp only [Terminal.pixel, Terminal.write, if_pos hat, if_neg fun h => hout ⟨hat, h⟩]
    · simp only [Terminal.pixel, Terminal.write, if_neg hat]

/-- The rectangle of a backspace has the whole cell in it, and otherwise only empty ones. -/
theorem shows_erase (hm : ShowsPixels font s t m) (hcol : 2 ≤ t.col) {x y w h : UInt16}
    (hx : x.toNat = 8 * (t.col - 1)) (hy : y.toNat = 16 * t.row)
    (hw : w.toNat = 8 * (t.col - 1) + 1) (hh : h.toNat = 16 * (t.row + 1)) :
    ShowsPixels font s t.erase (fillrect s m x y w h BLACK) ∧
      InFramebuffer s m (fillrect s m x y w h BLACK) := by
  refine (fillrect_paints s m x y w h BLACK).shows ?_ hm ?_ ?_
  · rintro q ⟨i, j, ⟨⟨-, hi⟩, -, hj⟩, rfl⟩
    exact pixel_lt (by omega) (by omega)
  · intro i hi j hj hmem
    obtain ⟨⟨hleft, -⟩, htop, -⟩ := (mem_clipped hi).mp hmem
    apply Terminal.pixel_of_none
    by_cases hrow : t.row < j / 16
    · exact t.erase.below _ _ hrow
    · rw [show j / 16 = t.row by omega]
      exact t.erase.ahead _ (show t.col - 1 ≤ i / 8 by omega)
  · intro i hi j hj hmem
    have hout : ¬ (j / 16 = t.row ∧ i / 8 = t.col - 1) := fun hat =>
      hmem ((mem_clipped hi).mpr ⟨⟨by omega, by omega⟩, by omega, by omega⟩)
    simp only [Terminal.pixel, Terminal.erase, if_neg hout]

/-- A line is scrolled out of the screen. -/
theorem shows_scrollUp (hm : ShowsPixels font s t m) (hheight : 16 ≤ s.height.toNat)
    (hrow : (t.row + 1) * 16 ≤ s.height.toNat) :
    ShowsPixels font s t.scrollUp (scroll s 1 m) ∧ InFramebuffer s m (scroll s 1 m) := by
  obtain ⟨hlines, haccess⟩ : ScrollsOneLine s 1 := scrolls_smallest rfl hheight
  have hline : lineHeight 1 = 16 := rfl
  rw [hline] at hlines
  constructor
  · intro i hi j hj k hk
    obtain ⟨hup, hclear⟩ := hlines m i j k hi hk
    by_cases hlast : j + 16 < s.height.toNat
    · rw [hup hlast, hm i hi (j + 16) hlast k hk]
      simp only [Terminal.pixel, Terminal.scrollUp, Nat.add_div_right j (by decide : 0 < 16),
        Nat.add_mod_right]
    · have hempty : t.scrollUp.cell (j / 16) (i / 8) = none :=
        t.below _ _ (by omega)
      rw [hclear hj (by omega), Terminal.pixel_of_none hempty]
  · intro a ha
    have houtside : ∀ start length, (start, length) ∈ scrollAccesses s 1 →
        ¬ (start ≤ a ∧ a < start + length) := fun start length hmem hin => by
      have hinside := haccess _ hmem a hin.1 hin.2
      omega
    have hcopied := houtside s.framebuffer.toNat (scrollLength s 1) (by simp [scrollAccesses])
    have hcleared := houtside (s.framebuffer.toNat + scrollLength s 1) (scrollCleared s 1)
      (by simp [scrollAccesses])
    rw [scroll_apply, if_neg hcleared, if_neg hcopied]

/-! ## The loop of `printStringAt` -/

/-- The variables of the loop and the memory show the terminal. -/
structure Shows (font : ℕ → Int8) (s : Screen) (t : Terminal) (text : Text) : Prop where
  column : distance 1 text = 8 * t.col
  row : text.y.toNat = t.row
  /-- Half of the last character may be past the edge. -/
  fitsWidth : 8 * t.col ≤ s.width.toNat + 4
  fitsHeight : (t.row + 1) * 16 ≤ s.height.toNat
  pixels : ShowsPixels font s t text.mem

/-- A screen of the driver's modes: its rows can be counted in a byte. -/
structure Screen.Fits (s : Screen) : Prop where
  width : 8 ≤ s.width.toNat
  width_lt : s.width.toNat + 4 < 2 ^ 16
  height : 16 ≤ s.height.toNat
  height_le : s.height.toNat ≤ 255 * 16

variable {text : Text}

theorem toNat_ofNat {n : ℕ} (h : n < 2 ^ 16) : (UInt16.ofNat n).toNat = n :=
  UInt16.toNat_ofNat_of_lt' h

theorem distance_one : distance 1 text = text.x.toNat + 8 * text.i := by
  rw [distance]
  exact congrArg _ (Int.mul_one _)

/-- The start of a character. -/
theorem column_eq {p : ℕ} (h : distance 1 text = p) (hp : p < 2 ^ 16) : column 1 text = p := by
  have hsum : (text.x.toNat + FONT_WIDTH * text.i * (1 : UInt32).toNat : ℤ) = p := h
  rw [column, hsum]
  omega

theorem toNat_textRow {y : ℕ} (hy : 16 * y < 2 ^ 16) : (textRow 1 y).toNat = 16 * y := by
  rw [textRow, UInt16.toNat_ofNat', FONT_HEIGHT]
  show y * 32 / 2 * 1 % 2 ^ 16 = _
  omega

/-- A line break. -/
theorem shows_newLine (hs : s.Fits) (h : Shows font s t text) :
    Shows font s (t.newLine s.height.toNat) (newLine s 1 text) ∧
      InFramebuffer s text.mem (newLine s 1 text).mem := by
  have hy : text.y.toNat < 256 := text.y.toNat_lt
  have hfits := h.fitsHeight
  have hrow := h.row
  have hbottom : (text.y.toNat + 2) * (FONT_HEIGHT / 2) * (1 : UInt32).toNat % 2 ^ 32 =
      (t.row + 2) * 16 := by
    rw [h.row]
    show (t.row + 2) * 16 * 1 % 2 ^ 32 = _
    omega
  rw [newLine, Terminal.newLine, hbottom]
  by_cases hlast : s.height.toNat ≤ (t.row + 2) * 16
  · rw [if_pos hlast, if_pos hlast]
    obtain ⟨hpixels, hin⟩ := shows_scrollUp h.pixels hs.height h.fitsHeight
    exact ⟨⟨rfl, h.row, Nat.zero_le _, h.fitsHeight, hpixels⟩, hin⟩
  · rw [if_neg hlast, if_neg hlast]
    have hnext : (text.y + 1).toNat = t.row + 1 := by
      have hmax := hs.height_le
      rw [UInt8.toNat_add, show (1 : UInt8).toNat = 1 from rfl]
      omega
    exact ⟨⟨rfl, hnext, Nat.zero_le _, (Nat.lt_of_not_le hlast).le, h.pixels⟩, fun _ _ => rfl⟩

/-- The line break in front of a character, if one is due. -/
theorem shows_wrap (hs : s.Fits) (h : Shows font s t text) (c : UInt8) :
    let text' := if atEdge s 1 text ∨ c = NEWLINE then newLine s 1 text else text
    Shows font s (t.wrap s.width.toNat s.height.toNat c) text' ∧
      InFramebuffer s text.mem text'.mem := by
  have hnear : Near (distance 1 text) := by
    have := h.fitsWidth
    have := hs.width_lt
    rw [h.column, Near]
    omega
  have hedge : (atEdge s 1 text ∨ c = NEWLINE) ↔
      (s.width.toNat < 8 * t.col + 4 ∨ c = NEWLINE) := by
    rw [atEdge_iff (by decide) hnear, h.column, show (1 : UInt32).toNat = 1 from rfl]
    apply or_congr_left
    omega
  rw [Terminal.wrap]
  by_cases hbreak : s.width.toNat < 8 * t.col + 4 ∨ c = NEWLINE
  · rw [if_pos hbreak, if_pos (hedge.mpr hbreak)]
    exact shows_newLine hs h
  · rw [if_neg hbreak, if_neg (mt hedge.mp hbreak)]
    exact ⟨h, fun _ _ => rfl⟩

/-- After the break there is room for a character. -/
theorem Terminal.wrap_col {W H : ℕ} {c : UInt8} (hW : 4 ≤ W) :
    8 * (t.wrap W H c).col + 4 ≤ W := by
  rw [Terminal.wrap, Terminal.newLine]
  split_ifs with hbreak hlast
  · exact hW
  · exact hW
  · omega

/-- One character. -/
theorem shows_type (hs : s.Fits) (h : Shows font s t text) {c : UInt8}
    (ht : t.type s.width.toNat s.height.toNat color c = some t') :
    Shows font s t' (printNext font s 1 color text c) ∧
      InFramebuffer s text.mem (printNext font s 1 color text c).mem := by
  obtain ⟨hwrap, hin⟩ := shows_wrap hs h c
  have hroom : 8 * (t.wrap s.width.toNat s.height.toNat c).col + 4 ≤ s.width.toNat :=
    Terminal.wrap_col (by have := hs.width; omega)
  rw [printNext]
  rw [Terminal.type] at ht
  set text₁ := if atEdge s 1 text ∨ c = NEWLINE then newLine s 1 text else text
  set t₁ := t.wrap s.width.toNat s.height.toNat c
  have hwidth := hs.width_lt
  have hfits := hwrap.fitsHeight
  have hheight := hs.height_le
  have hrow : (textRow 1 text₁.y.toNat).toNat = 16 * t₁.row := by
    rw [hwrap.row, toNat_textRow (by omega)]
  by_cases hback : c = BACKSPACE
  · rw [if_pos hback] at ht ⊢
    split_ifs at ht with hcol
    obtain rfl := Option.some.inj ht
    have hcursor : distance 1 { text₁ with i := text₁.i - 1 } = (8 * (t₁.col - 1) : ℕ) := by
      have hcolumn := hwrap.column
      rw [distance_one] at hcolumn ⊢
      show (text₁.x.toNat + 8 * (text₁.i - 1) : ℤ) = _
      omega
    have hleft := column_eq hcursor (by omega)
    have hbottom : (textRow 1 (text₁.y.toNat + 1)).toNat = 16 * (t₁.row + 1) := by
      rw [hwrap.row, toNat_textRow (by omega)]
    obtain ⟨hpixels, hin'⟩ := shows_erase (x := UInt16.ofNat (8 * (t₁.col - 1)))
      (w := UInt16.ofNat (8 * (t₁.col - 1) + 1)) hwrap.pixels hcol
      (toNat_ofNat (by omega)) hrow (toNat_ofNat (by omega)) hbottom
    rw [← hleft] at hpixels hin'
    have hright : 8 * t₁.erase.col ≤ s.width.toNat + 4 := by
      show 8 * (t₁.col - 1) ≤ _
      omega
    exact ⟨⟨by exact_mod_cast hcursor, hwrap.row, hright, hfits, hpixels⟩, hin.trans hin'⟩
  · rw [if_neg hback] at ht ⊢
    by_cases hnewline : c = NEWLINE
    · rw [if_pos hnewline] at ht
      rw [if_neg (not_not.mpr hnewline)]
      obtain rfl := Option.some.inj ht
      exact ⟨hwrap, hin⟩
    · rw [if_neg hnewline] at ht
      rw [if_pos hnewline]
      obtain rfl := Option.some.inj ht
      have hleft := column_eq (p := 8 * t₁.col) (by rw [hwrap.column]; rfl) (by omega)
      obtain ⟨hpixels, hin'⟩ := shows_write (x := UInt16.ofNat (8 * t₁.col))
        hwrap.pixels c color (toNat_ofNat (by omega)) hrow (by omega) (by omega)
      rw [← hleft] at hpixels hin'
      refine ⟨⟨?_, hwrap.row, ?_, hfits, hpixels⟩, hin.trans hin'⟩
      · have hcolumn := hwrap.column
        rw [distance_one] at hcolumn ⊢
        show (text₁.x.toNat + 8 * (text₁.i + 1) : ℤ) = 8 * ((t₁.col + 1 : ℕ) : ℤ)
        omega
      · show 8 * (t₁.col + 1) ≤ s.width.toNat + 4
        omega

/-! ## Calls -/

/-- The characters of a string. -/
theorem shows_string (hs : s.Fits) {string : List UInt8} (h : Shows font s t text)
    (ht : run (Terminal.type s.width.toNat s.height.toNat color) t string = some t') :
    Shows font s t' (string.foldl (printNext font s 1 color) text) ∧
      InFramebuffer s text.mem (string.foldl (printNext font s 1 color) text).mem := by
  induction string generalizing t text with
  | nil =>
    obtain rfl := Option.some.inj ht
    exact ⟨h, fun _ _ => rfl⟩
  | cons c string ih =>
    rw [run_cons, Option.bind_eq_some_iff] at ht
    obtain ⟨t₁, hfirst, hrest⟩ := ht
    obtain ⟨h₁, hin₁⟩ := shows_type hs h hfirst
    obtain ⟨h', hin'⟩ := ih h₁ hrest
    exact ⟨h', hin₁.trans hin'⟩

/-- The driver with the smallest font shows the terminal. -/
structure Driver.Displays (font : ℕ → Int8) (d : Driver) (t : Terminal) : Prop where
  fontSize : d.fontSize = 1
  column : d.posX.toNat = 8 * t.col
  row : d.yChar.toNat = t.row
  fitsWidth : 8 * t.col ≤ d.screen.width.toNat + 4
  fitsHeight : (t.row + 1) * 16 ≤ d.screen.height.toNat
  pixels : ShowsPixels font d.screen t d.mem

/-- The cleared screen shows the empty terminal. -/
theorem displays_clearScreen (font : ℕ → Int8) {d : Driver} (hs : d.screen.Fits)
    (hfont : d.fontSize = 1) :
    (clearScreen d).Displays font .blank ∧ InFramebuffer d.screen d.mem (clearScreen d).mem := by
  obtain ⟨hset, -, hkept⟩ := fillrect_exact d.screen d.mem 0 0 d.screen.width d.screen.height BLACK
  refine ⟨⟨hfont, rfl, rfl, Nat.zero_le _, ?_, fun i hi j hj k hk => ?_⟩, hkept⟩
  · show (0 + 1) * 16 ≤ d.screen.height.toNat
    exact hs.height
  · have hin : InClipped d.screen 0 0 d.screen.width d.screen.height i j := by
      have hzero : (0 : UInt16).toNat = 0 := rfl
      refine ⟨⟨Nat.zero_le _, ?_⟩, Nat.zero_le _, ?_⟩
      · rw [hzero, Nat.zero_add, Nat.min_self]
        exact hi
      · rw [hzero, Nat.zero_add, Nat.min_self]
        exact hj
    exact hset i j k hin hk

/-- One call. -/
theorem displays_call {d : Driver} (hs : d.screen.Fits) (h : d.Displays font t) {call : Call}
    (ht : t.call d.screen.width.toNat d.screen.height.toNat call = some t') :
    ∃ d', d.call font call = some d' ∧ d'.screen = d.screen ∧ d'.Displays font t' ∧
      InFramebuffer d.screen d.mem d'.mem := by
  cases call with
  | clearScreen =>
    obtain rfl := Option.some.inj ht
    obtain ⟨h', hin⟩ := displays_clearScreen font hs h.fontSize
    exact ⟨_, rfl, rfl, h', hin⟩
  | printString string color =>
    have hwidth := h.fitsWidth
    have hlt := hs.width_lt
    have hlow : d.posX.toUInt16.toNat = 8 * t.col := by
      rw [UInt32.toNat_toUInt16, h.column]
      omega
    have hstart : Shows font d.screen t ⟨d.posX.toUInt16, d.yChar, 0, d.mem⟩ := by
      refine ⟨?_, h.row, hwidth, h.fitsHeight, h.pixels⟩
      rw [distance_one, hlow]
      rfl
    obtain ⟨hshows, hin⟩ := shows_string hs hstart ht
    refine ⟨_, rfl, rfl, ?_⟩
    rw [printString, printStringAt, h.fontSize]
    refine ⟨⟨rfl, ?_, hshows.row, hshows.fitsWidth, hshows.fitsHeight, hshows.pixels⟩, hin⟩
    have hend := hshows.fitsWidth
    show (UInt32.ofNat (column 1 _)).toNat = _
    rw [column_eq (p := 8 * t'.col) (by rw [hshows.column]; rfl) (by omega), UInt32.toNat_ofNat']
    omega

/-- From `clearScreen` on, the screen shows the terminal after every sequence of calls that the
terminal accepts, and no byte outside the framebuffer has changed. -/
theorem terminal_shown (font : ℕ → Int8) (d : Driver) (hs : d.screen.Fits) (hfont : d.fontSize = 1)
    {calls : List Call}
    (ht : run (Terminal.call d.screen.width.toNat d.screen.height.toNat) .blank calls = some t) :
    ∃ d', run (Driver.call font) (clearScreen d) calls = some d' ∧ d'.Displays font t ∧
      InFramebuffer d.screen d.mem d'.mem := by
  obtain ⟨hblank, hcleared⟩ := displays_clearScreen font hs hfont
  have hfollows : ∃ d', run (Driver.call font) (clearScreen d) calls = some d' ∧
      d'.screen = d.screen ∧ d'.Displays font t ∧ InFramebuffer d.screen d.mem d'.mem := by
    apply run_follows (R := fun t (d' : Driver) => d'.screen = d.screen ∧ d'.Displays font t ∧
      InFramebuffer d.screen d.mem d'.mem) (t := clearScreen d) ⟨rfl, hblank, hcleared⟩ ht
    rintro t₁ d₁ call t₂ ⟨hscreen, hdisplays, hin⟩ hcall
    obtain ⟨d₂, hstep, hscreen', hdisplays', hin'⟩ :=
      displays_call (by rw [hscreen]; exact hs) hdisplays (by rw [hscreen]; exact hcall)
    rw [hscreen] at hin' hscreen'
    exact ⟨d₂, hstep, hscreen', hdisplays', hin.trans hin'⟩
  obtain ⟨d', hrun, -, hdisplays, hin⟩ := hfollows
  exact ⟨d', hrun, hdisplays, hin⟩

/-- A line with a character that is taken back, and the beginning of the next one. -/
theorem terminal_shown_line : ∃ t d',
    run (Terminal.call 1024 768) .blank
        [.printString [108, 115, 115, 8, 10, 62] ⟨1, 2, 3⟩] = some t ∧
      run (Driver.call fun _ => 1) (clearScreen exampleDriver)
        [.printString [108, 115, 115, 8, 10, 62] ⟨1, 2, 3⟩] = some d' ∧
      d'.Displays (fun _ => 1) t := by
  have hfits : exampleDriver.screen.Fits := ⟨by decide, by decide, by decide, by decide⟩
  obtain ⟨t, ht⟩ : ∃ t, run (Terminal.call 1024 768) .blank
      [.printString [108, 115, 115, 8, 10, 62] ⟨1, 2, 3⟩] = some t := ⟨_, rfl⟩
  obtain ⟨d', hrun, hdisplays, -⟩ := terminal_shown (fun _ => 1) exampleDriver hfits rfl ht
  exact ⟨t, d', ht, hrun, hdisplays⟩

end TronKernel.Video
