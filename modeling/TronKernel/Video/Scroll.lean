import TronKernel.Modules.Memcpy
import TronKernel.Video.Rectangle

/-!
# Scrolling

When the cursor is on the last line, `printStringAt` copies the framebuffer up by a line of text and
clears what is behind the copy. The copy goes forward to lower addresses, so `memcpy` gets it right
although the ranges overlap. The font size is a factor of the whole length, where it belongs to the
subtracted line only. With the smallest font the two are the same; with a larger one more than the
framebuffer is copied and cleared (`scroll_iff`).
-/

namespace TronKernel.Video

open Mem Modules

variable {m : Mem} {s : Screen} {fontSize : UInt32}

/-- `memset` sets its bytes and no other. -/
theorem memset_apply (m : Mem) (d : ℕ) (c : UInt8) (n x : ℕ) :
    memset m d c n x = if d ≤ x ∧ x < d + n then c else m x := by
  induction n generalizing m with
  | zero => rw [if_neg (by omega), memset]
  | succ n ih =>
    rw [memset, ih]
    by_cases hlast : x = d + n
    · rw [if_neg (by omega), if_pos (by omega), hlast, Function.update_self]
    · rw [Function.update_of_ne hlast]
      by_cases hin : d ≤ x ∧ x < d + n
      · rw [if_pos hin, if_pos (by omega)]
      · rw [if_neg hin, if_neg (by omega)]

/-- The scrolled memory, byte by byte. -/
theorem scroll_apply (s : Screen) (fontSize : UInt32) (m : Mem) (x : ℕ) :
    scroll s fontSize m x =
      if s.framebuffer.toNat + scrollLength s fontSize ≤ x ∧
          x < s.framebuffer.toNat + scrollLength s fontSize + scrollCleared s fontSize then 0
      else if s.framebuffer.toNat ≤ x ∧ x < s.framebuffer.toNat + scrollLength s fontSize then
        m (scrollSource s fontSize + (x - s.framebuffer.toNat))
      else m x := by
  have hforward : s.framebuffer.toNat ≤ scrollSource s fontSize := Nat.le_add_right _ _
  rw [scroll, memset_apply, memcpy_eq _ _ _ _ (.inl hforward), copied]

/-- The ranges of the framebuffer that are accessed, each with its length: what `memcpy` reads, what
it writes and what `memset` writes. -/
def scrollAccesses (s : Screen) (fontSize : UInt32) : List (ℕ × ℕ) :=
  [(scrollSource s fontSize, scrollLength s fontSize),
    (s.framebuffer.toNat, scrollLength s fontSize),
    (s.framebuffer.toNat + scrollLength s fontSize, scrollCleared s fontSize)]

/-- The height of a line of text in pixels. -/
def lineHeight (fontSize : UInt32) : ℕ := FONT_HEIGHT / 2 * fontSize.toNat

/-- Every row gets what was a line of text below it, the last ones become black, and only the
framebuffer is accessed. -/
def ScrollsOneLine (s : Screen) (fontSize : UInt32) : Prop :=
  (∀ m i j k, i < s.width.toNat → k < sizeofColor →
    (j + lineHeight fontSize < s.height.toNat →
      scroll s fontSize m (pixelAt s i j + k) = m (pixelAt s i (j + lineHeight fontSize) + k)) ∧
    (j < s.height.toNat → s.height.toNat ≤ j + lineHeight fontSize →
      scroll s fontSize m (pixelAt s i j + k) = BLACK.byte k)) ∧
  ∀ range ∈ scrollAccesses s fontSize, ∀ a, range.1 ≤ a → a < range.1 + range.2 →
    s.framebuffer.toNat ≤ a ∧
      a < s.framebuffer.toNat + sizeofColor * (s.width.toNat * s.height.toNat)

/-- For the font sizes of the driver the length is the product it is written as. -/
theorem scrollLength_eq (hfont : fontSize.toNat ≤ 3) (hheight : 16 ≤ s.height.toNat) :
    scrollLength s fontSize = 3 * fontSize.toNat * (s.width.toNat * (s.height.toNat - 16)) := by
  have hwidth : s.width.toNat < 2 ^ 16 := s.width.toNat_lt
  have hheight' : s.height.toNat < 2 ^ 16 := s.height.toNat_lt
  have hbound : 3 * fontSize.toNat * (s.width.toNat * (s.height.toNat - 16)) < 2 ^ 64 := by
    calc 3 * fontSize.toNat * (s.width.toNat * (s.height.toNat - 16))
        ≤ 9 * (65535 * 65535) :=
          Nat.mul_le_mul (by omega) (Nat.mul_le_mul (by omega) (by omega))
      _ < 2 ^ 64 := by decide
  have hdiff : (s.height.toNat : ℤ) - (FONT_HEIGHT : ℕ) / 2 = (s.height.toNat - 16 : ℕ) := by
    rw [FONT_HEIGHT]
    omega
  rw [scrollLength, hdiff, sizeofColor, ← Int.natCast_mul, ← Int.natCast_mul, ← Int.natCast_mul]
  omega

/-- What is copied and what is cleared add up to the framebuffer times the font size. -/
theorem scrolled_total (hfont : fontSize.toNat ≤ 3) (hheight : 16 ≤ s.height.toNat) :
    scrollLength s fontSize + scrollCleared s fontSize
      = fontSize.toNat * (sizeofColor * (s.width.toNat * s.height.toNat)) := by
  obtain ⟨rest, hrest⟩ := Nat.exists_eq_add_of_le hheight
  rw [scrollLength_eq hfont hheight, scrollCleared, sizeofColor, FONT_HEIGHT, hrest,
    Nat.add_sub_cancel_left]
  ring

/-- A pixel of one of the first `n` rows lies in front of the end of these rows, one of a later row
behind it. -/
theorem pixel_lt_iff {i j n W : ℕ} (hi : i < W) : i + j * W < W * n ↔ j < n := by
  constructor
  · intro h
    by_contra hn
    have hrows : W * n ≤ j * W := by
      rw [Nat.mul_comm j]
      exact Nat.mul_le_mul_left W (by omega)
    omega
  · intro h
    calc i + j * W < W * (j + 1) := by rw [Nat.mul_add, Nat.mul_comm j]; omega
      _ ≤ W * n := Nat.mul_le_mul_left W h

/-- With the smallest font the framebuffer is scrolled by a line. -/
theorem scrolls_smallest (hfont : fontSize.toNat = 1) (hheight : 16 ≤ s.height.toNat) :
    ScrollsOneLine s fontSize := by
  have hmax : fontSize.toNat ≤ 3 := by omega
  have hlength := scrollLength_eq hmax hheight
  have htotal := scrolled_total hmax hheight
  have hline : lineHeight fontSize = 16 := by rw [lineHeight, hfont, FONT_HEIGHT]
  have hsource : scrollSource s fontSize = s.framebuffer.toNat + 3 * (16 * s.width.toNat) := by
    rw [scrollSource, hfont, sizeofColor, FONT_HEIGHT]
    ring
  obtain ⟨rest, hrest⟩ := Nat.exists_eq_add_of_le hheight
  rw [hfont, hrest, Nat.add_sub_cancel_left, Nat.mul_one] at hlength
  rw [hfont, sizeofColor, Nat.one_mul, hrest, Nat.mul_add] at htotal
  constructor
  · intro m i j k hi hk
    have hpixel := pixel_lt_iff (j := j) (n := rest) hi
    have hbelow : (j + 16) * s.width.toNat = j * s.width.toNat + 16 * s.width.toNat := by ring
    rw [scroll_apply, pixelAt, pixelAt, hline, hbelow, hsource, sizeofColor]
    rw [sizeofColor] at hk
    constructor
    · intro hj
      have hin := hpixel.mpr (by omega)
      rw [if_neg (by omega), if_pos (by omega)]
      congr 1
      omega
    · intro hlast hj
      have hin := (pixel_lt_iff (j := j) (n := 16 + rest) hi).mpr (by omega)
      have hout := mt hpixel.mp (by omega)
      rw [Nat.mul_add] at hin
      rw [if_pos (by omega), Color.byte]
      split_ifs <;> rfl
  · intro range hrange a hle hlt
    rw [hrest, Nat.mul_add, sizeofColor]
    simp only [scrollAccesses, List.mem_cons, List.not_mem_nil, or_false] at hrange
    rcases hrange with rfl | rfl | rfl
    · simp only [hsource] at hle hlt
      omega
    · simp only at hle hlt
      omega
    · simp only at hle hlt
      omega

/-- With a larger font and a screen that has columns, the last cleared byte is outside. -/
theorem not_scrolls_larger (hfont : 2 ≤ fontSize.toNat) (hmax : fontSize.toNat ≤ 3)
    (hheight : 16 ≤ s.height.toNat) (hwidth : 0 < s.width.toNat) : ¬ ScrollsOneLine s fontSize := by
  rintro ⟨-, hinside⟩
  have htotal := scrolled_total (s := s) hmax hheight
  have hcleared : 0 < scrollCleared s fontSize := by
    rw [scrollCleared, sizeofColor, FONT_HEIGHT]
    exact Nat.mul_pos (Nat.mul_pos (by omega) hwidth) (by decide)
  have hpixels : 0 < s.width.toNat * s.height.toNat := Nat.mul_pos hwidth (by omega)
  have htwice : 2 * (sizeofColor * (s.width.toNat * s.height.toNat))
      ≤ fontSize.toNat * (sizeofColor * (s.width.toNat * s.height.toNat)) :=
    Nat.mul_le_mul_right _ hfont
  obtain ⟨-, hlast⟩ := hinside
    (s.framebuffer.toNat + scrollLength s fontSize, scrollCleared s fontSize)
    (by simp [scrollAccesses])
    (s.framebuffer.toNat + scrollLength s fontSize + scrollCleared s fontSize - 1)
    (by simp only; omega) (by simp only; omega)
  rw [sizeofColor] at hlast htwice htotal
  omega

/-- A screen without columns has nothing to scroll. -/
theorem scrolls_empty (hfont : fontSize.toNat ≤ 3) (hheight : 16 ≤ s.height.toNat)
    (hwidth : s.width.toNat = 0) : ScrollsOneLine s fontSize := by
  refine ⟨fun m i j k hi _ => absurd hi (by omega), fun range hrange a hle hlt => ?_⟩
  have hlength : scrollLength s fontSize = 0 := by
    rw [scrollLength_eq hfont hheight, hwidth]
    ring
  have hcleared : scrollCleared s fontSize = 0 := by
    rw [scrollCleared, hwidth]
    ring
  simp only [scrollAccesses, hlength, hcleared, List.mem_cons, List.not_mem_nil, or_false] at hrange
  rcases hrange with rfl | rfl | rfl <;> omega

/-- On every screen with room for a line of text, and with every font size of the driver, scrolling
is right if and only if the font is the smallest one (or there are no columns). -/
theorem scroll_iff (s : Screen) (fontSize : UInt32) (hmin : MIN_FONT_SIZE ≤ fontSize)
    (hmax : fontSize ≤ MAX_FONT_SIZE) (hheight : lineHeight fontSize ≤ s.height.toNat) :
    ScrollsOneLine s fontSize ↔ fontSize = 1 ∨ s.width = 0 := by
  have hone : 1 ≤ fontSize.toNat := hmin
  have hthree : fontSize.toNat ≤ 3 := hmax
  have hline : 16 ≤ s.height.toNat := by
    rw [lineHeight, FONT_HEIGHT] at hheight
    omega
  constructor
  · intro h
    by_contra hnot
    rw [not_or] at hnot
    have hfont : fontSize.toNat ≠ 1 := fun heq => hnot.1 (UInt32.toNat_inj.mp heq)
    have hwidth : s.width.toNat ≠ 0 := fun heq => hnot.2 (UInt16.toNat_inj.mp heq)
    exact not_scrolls_larger (by omega) hthree hline (by omega) h
  · rintro (rfl | hwidth)
    · exact scrolls_smallest rfl hline
    · exact scrolls_empty hthree hline (by rw [hwidth]; rfl)

/-- A screen with the smallest font. -/
theorem scroll_with_smallest_font : ScrollsOneLine ⟨1024, 768, 0xFD000000⟩ 1 :=
  (scroll_iff ⟨1024, 768, 0xFD000000⟩ 1 (by decide) (by decide) (by decide)).mpr (.inl rfl)

/-- The same screen with the next larger font. -/
theorem scroll_larger_font :
    ¬ ∀ (s : Screen) (fontSize : UInt32), MIN_FONT_SIZE ≤ fontSize → fontSize ≤ MAX_FONT_SIZE →
      lineHeight fontSize ≤ s.height.toNat → ScrollsOneLine s fontSize := by
  intro hall
  have hscrolls := hall ⟨1024, 768, 0xFD000000⟩ 2 (by decide) (by decide) (by decide)
  exact not_scrolls_larger (by decide) (by decide) (by decide) (by decide) hscrolls

end TronKernel.Video
