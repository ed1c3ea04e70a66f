import TronKernel.Video.Screen

/-!
# `fillrect` draws the clipped rectangle

One pointer walks through the rectangle and skips the rest of each row. Counted in pixels from the
framebuffer on, row `i` of a walk that starts at pixel `p` covers `w` pixels from `p + i * W` on
(`fillRows_paints`). So the walk paints the pixels that lie both in the rectangle and on the screen,
and changes no other byte (`fillrect_exact`).
-/

namespace TronKernel.Video

variable {m m' m'' : Mem} {color : Color} {s : Screen} {A B : Set ℕ}

/-- From `m` to `m'` the pixels in `A`, counted from `fb` on, have got the color, and every other
byte is unchanged. -/
def Paints (fb : ℕ) (color : Color) (A : Set ℕ) (m m' : Mem) : Prop :=
  ∀ a, (fb ≤ a ∧ (a - fb) / sizeofColor ∈ A → m' a = color.byte ((a - fb) % sizeofColor)) ∧
    (¬ (fb ≤ a ∧ (a - fb) / sizeofColor ∈ A) → m' a = m a)

variable {fb p q w lineBreak : ℕ}

theorem Paints.refl : Paints fb color ∅ m m := fun _ => ⟨fun h => h.2.elim, fun _ => rfl⟩

theorem Paints.trans (h : Paints fb color A m m') (h' : Paints fb color B m' m'') :
    Paints fb color (A ∪ B) m m'' := by
  intro a
  by_cases hB : fb ≤ a ∧ (a - fb) / sizeofColor ∈ B
  · exact ⟨fun _ => (h' a).1 hB, fun hnot => absurd ⟨hB.1, .inr hB.2⟩ hnot⟩
  · rw [(h' a).2 hB]
    refine ⟨fun hA => (h a).1 ⟨hA.1, ?_⟩, fun hnot => (h a).2 fun hA => hnot ⟨hA.1, .inl hA.2⟩⟩
    exact hA.2.resolve_right fun hmem => hB ⟨hA.1, hmem⟩

theorem storeColor_paints (m : Mem) (fb p : ℕ) (color : Color) :
    Paints fb color {p} m (storeColor m (fb + sizeofColor * p) color) := by
  intro a
  rw [storeColor, sizeofColor, Set.mem_singleton_iff, Color.byte]
  constructor
  · rintro ⟨hle, hpixel⟩
    obtain h0 | h1 | h2 : a = fb + 3 * p ∨ a = fb + 3 * p + 1 ∨ a = fb + 3 * p + 2 := by omega
    · rw [Function.update_of_ne (by omega), Function.update_of_ne (by omega), h0,
        Function.update_self, if_pos (by omega)]
    · rw [Function.update_of_ne (by omega), h1, Function.update_self, if_neg (by omega),
        if_pos (by omega)]
    · rw [h2, Function.update_self, if_neg (by omega), if_neg (by omega)]
  · intro hnot
    rw [Function.update_of_ne (by omega), Function.update_of_ne (by omega),
      Function.update_of_ne (by omega)]

/-- A row of `w` pixels. -/
theorem fillRow_paints (m : Mem) (fb p w : ℕ) (color : Color) :
    (fillRow color w m (fb + sizeofColor * p)).2 = fb + sizeofColor * (p + w) ∧
      Paints fb color (Set.Ico p (p + w)) m (fillRow color w m (fb + sizeofColor * p)).1 := by
  induction w generalizing m p with
  | zero =>
    rw [Nat.add_zero, Set.Ico_self]
    exact ⟨rfl, Paints.refl⟩
  | succ w ih =>
    obtain ⟨hptr, hrest⟩ := ih (storeColor m (fb + sizeofColor * p) color) (p + 1)
    have hnext : fb + sizeofColor * p + sizeofColor = fb + sizeofColor * (p + 1) := by ring
    have hcover : {p} ∪ Set.Ico (p + 1) (p + 1 + w) = Set.Ico p (p + (w + 1)) := by
      ext q
      simp only [Set.mem_union, Set.mem_singleton_iff, Set.mem_Ico]
      omega
    rw [fillRow, hnext, ← hcover]
    refine ⟨?_, (storeColor_paints m fb p color).trans hrest⟩
    rw [hptr, Nat.add_assoc p, Nat.add_comm 1]

/-- The pixels of `h` rows of `w` pixels, where a row begins `W` pixels behind the one before. -/
def walk (p w W h : ℕ) : Set ℕ := {q | ∃ i < h, p + i * W ≤ q ∧ q < p + i * W + w}

theorem walk_succ (p w W h : ℕ) :
    Set.Ico p (p + w) ∪ walk (p + W) w W h = walk p w W (h + 1) := by
  ext q
  simp only [walk, Set.mem_union, Set.mem_Ico, Set.mem_ofPred_eq]
  constructor
  · rintro (⟨hle, hlt⟩ | ⟨i, hi, hle, hlt⟩)
    · exact ⟨0, by omega, by simpa using hle, by simpa using hlt⟩
    · refine ⟨i + 1, by omega, ?_, ?_⟩
      · rw [Nat.add_mul]
        omega
      · rw [Nat.add_mul]
        omega
  · rintro ⟨i, hi, hle, hlt⟩
    cases i with
    | zero => exact .inl ⟨by simpa using hle, by simpa using hlt⟩
    | succ i =>
      rw [Nat.add_mul] at hle hlt
      exact .inr ⟨i, by omega, by omega, by omega⟩

/-- The rows of the walk, one `w + lineBreak` pixels behind the other. -/
theorem fillRows_paints (m : Mem) (fb p w lineBreak h : ℕ) (color : Color) :
    Paints fb color (walk p w (w + lineBreak) h) m
      (fillRows color w lineBreak h m (fb + sizeofColor * p)) := by
  induction h generalizing m p with
  | zero =>
    have hnone : walk p w (w + lineBreak) 0 = ∅ := by
      ext q
      simp [walk]
    rw [hnone]
    exact Paints.refl
  | succ h ih =>
    obtain ⟨hptr, hrow⟩ := fillRow_paints m fb p w color
    have hnext : fb + sizeofColor * (p + w) + sizeofColor * lineBreak
        = fb + sizeofColor * (p + (w + lineBreak)) := by ring
    rw [fillRows, ← walk_succ]
    simp only [hptr, hnext]
    exact hrow.trans (ih _ _)

/-! ## The rectangle -/

/-- Column `i` of row `j` is in the rectangle and on the screen. -/
def InClipped (s : Screen) (x y w h : UInt16) (i j : ℕ) : Prop :=
  (x.toNat ≤ i ∧ i < min (x.toNat + w.toNat) s.width.toNat) ∧
    y.toNat ≤ j ∧ j < min (y.toNat + h.toNat) s.height.toNat

/-- The address of the pixel in column `i` of row `j`. -/
def pixelAt (s : Screen) (i j : ℕ) : ℕ :=
  s.framebuffer.toNat + sizeofColor * (i + j * s.width.toNat)

/-- The pixels of the rectangle that are on the screen, counted from the framebuffer on. -/
def clipped (s : Screen) (x y w h : UInt16) : Set ℕ :=
  {q | ∃ i j, InClipped s x y w h i j ∧ q = i + j * s.width.toNat}

/-- A width or height that is cut to what is left of the screen. -/
theorem toNat_cut {a size b : UInt16} (h : a < size) :
    (if b > size - a then size - a else b).toNat = min b.toNat (size.toNat - a.toNat) := by
  have hsub : (size - a).toNat = size.toNat - a.toNat :=
    UInt16.toNat_sub_of_le _ _ (UInt16.le_of_lt h)
  split_ifs with hgt
  · rw [gt_iff_lt, UInt16.lt_iff_toNat_lt, hsub] at hgt
    rw [hsub]
    omega
  · rw [gt_iff_lt, UInt16.lt_iff_toNat_lt, hsub] at hgt
    omega

/-- The walk from the upper left corner goes through the clipped rectangle. -/
theorem walk_eq_clipped {x y w h : UInt16} (hx : x < s.width) (hy : y < s.height) :
    walk (x.toNat + y.toNat * s.width.toNat) (min w.toNat (s.width.toNat - x.toNat)) s.width.toNat
      (min h.toNat (s.height.toNat - y.toNat)) = clipped s x y w h := by
  rw [UInt16.lt_iff_toNat_lt] at hx hy
  ext q
  simp only [walk, clipped, InClipped, Set.mem_ofPred_eq]
  constructor
  · rintro ⟨r, hr, hle, hlt⟩
    obtain ⟨c, rfl⟩ := Nat.exists_eq_add_of_le hle
    exact ⟨x.toNat + c, y.toNat + r, ⟨by omega, by omega⟩, by ring⟩
  · rintro ⟨i, j, ⟨hi, hj⟩, rfl⟩
    obtain ⟨c, rfl⟩ := Nat.exists_eq_add_of_le hi.1
    obtain ⟨r, rfl⟩ := Nat.exists_eq_add_of_le hj.1
    have hpixel : x.toNat + c + (y.toNat + r) * s.width.toNat
        = x.toNat + y.toNat * s.width.toNat + r * s.width.toNat + c := by ring
    exact ⟨r, by omega, by omega, by omega⟩

theorem fillrect_paints (s : Screen) (m : Mem) (x y w h : UInt16) (color : Color) :
    Paints s.framebuffer.toNat color (clipped s x y w h) m (fillrect s m x y w h color) := by
  rw [fillrect]
  split_ifs with hout
  · have hnone : clipped s x y w h = ∅ := by
      ext q
      simp only [clipped, InClipped, Set.mem_ofPred_eq, Set.mem_empty_iff_false, iff_false]
      rintro ⟨i, j, ⟨hi, hj⟩, -⟩
      simp only [ge_iff_le, UInt16.le_iff_toNat_le] at hout
      omega
    rw [hnone]
    exact Paints.refl
  · rw [not_or, ge_iff_le, ge_iff_le, UInt16.not_le, UInt16.not_le] at hout
    obtain ⟨hx, hy⟩ := hout
    have hwidth : min w.toNat (s.width.toNat - x.toNat) +
        (s.width.toNat - min w.toNat (s.width.toNat - x.toNat)) = s.width.toNat := by omega
    have hwalk := fillRows_paints m s.framebuffer.toNat (x.toNat + y.toNat * s.width.toNat)
      (min w.toNat (s.width.toNat - x.toNat))
      (s.width.toNat - min w.toNat (s.width.toNat - x.toNat))
      (min h.toNat (s.height.toNat - y.toNat)) color
    rw [hwidth, walk_eq_clipped hx hy] at hwalk
    simp only [toNat_cut hx, toNat_cut hy]
    exact hwalk

/-- `fillrect` gives the clipped rectangle its color and changes no other byte, in particular none
outside the framebuffer. -/
theorem fillrect_exact (s : Screen) (m : Mem) (x y w h : UInt16) (color : Color) :
    (∀ i j k, InClipped s x y w h i j → k < sizeofColor →
      fillrect s m x y w h color (pixelAt s i j + k) = color.byte k) ∧
    (∀ a, (∀ i j k, InClipped s x y w h i j → k < sizeofColor → a ≠ pixelAt s i j + k) →
      fillrect s m x y w h color a = m a) ∧
    ∀ a, a < s.framebuffer.toNat ∨
      s.framebuffer.toNat + sizeofColor * (s.width.toNat * s.height.toNat) ≤ a →
      fillrect s m x y w h color a = m a := by
  have hpaints := fillrect_paints s m x y w h color
  refine ⟨fun i j k hin hk => ?_, fun a ha => ?_, fun a ha => ?_⟩
  · have hbyte := (hpaints (pixelAt s i j + k)).1
    rw [sizeofColor] at hk
    have hpixel : (pixelAt s i j + k - s.framebuffer.toNat) / sizeofColor
        = i + j * s.width.toNat := by
      rw [pixelAt, sizeofColor]
      omega
    have hrest : (pixelAt s i j + k - s.framebuffer.toNat) % sizeofColor = k := by
      rw [pixelAt, sizeofColor]
      omega
    rw [hpixel, hrest] at hbyte
    apply hbyte
    exact ⟨by rw [pixelAt]; omega, i, j, hin, rfl⟩
  · apply (hpaints a).2
    rintro ⟨hle, i, j, hin, heq⟩
    apply ha i j ((a - s.framebuffer.toNat) % sizeofColor) hin (Nat.mod_lt _ (by decide))
    rw [pixelAt, ← heq, sizeofColor]
    omega
  · apply (hpaints a).2
    rintro ⟨hle, i, j, ⟨hi, hj⟩, heq⟩
    -- the pixel is on the screen, so it lies in front of the end of the framebuffer
    have hinside : i + j * s.width.toNat < s.width.toNat * s.height.toNat := by
      calc i + j * s.width.toNat < s.width.toNat + j * s.width.toNat := by omega
        _ = (j + 1) * s.width.toNat := by ring
        _ ≤ s.height.toNat * s.width.toNat := Nat.mul_le_mul_right _ (by omega)
        _ = s.width.toNat * s.height.toNat := Nat.mul_comm _ _
    rw [sizeofColor] at ha heq
    omega

end TronKernel.Video
