import TronKernel.Video.Rectangle

/-!
# `printChar` draws the glyph

The font has a byte for each of 16 lines of a character, the lowest bit for the leftmost column.
`printChar` draws a square of `fontSize` pixels for each bit that is set, so the pixels that it
paints are those of the enlarged glyph that are on the screen (`printChar_exact`).
-/

namespace TronKernel.Video

variable {m m' : Mem} {color : Color} {s : Screen} {fontSize : UInt32} {font : ℕ → Int8}

/-- The glyph of a character has a dot in column `i` of line `j`. -/
def dot (font : ℕ → Int8) (c : UInt8) (i j : ℕ) : Bool :=
  FIRST_CHAR ≤ c ∧ c ≤ LAST_CHAR ∧ i < FONT_WIDTH ∧ j < FONT_HEIGHT / 2 ∧
    (font (FONT_HEIGHT * (c - FIRST_CHAR).toNat + 2 * j)).toBitVec.getLsbD i

/-! ## Lines of a glyph -/

/-- The lowest bit of a line. -/
theorem and_one_eq_one_iff (l : Int8) : l &&& 1 = 1 ↔ l.toBitVec.getLsbD 0 = true := by
  have h : ∀ v : BitVec 8, v &&& 1 = 1 ↔ v.getLsbD 0 = true := by decide
  rw [← Int8.toBitVec_inj]
  exact h l.toBitVec

/-- The other bits move down. -/
theorem getLsbD_shiftRight (l : Int8) {b : ℕ} (hb : b < 7) :
    (l >>> 1).toBitVec.getLsbD b = l.toBitVec.getLsbD (b + 1) := by
  have h : ∀ v : BitVec 8, ∀ b < 7, (v.sshiftRight 1).getLsbD b = v.getLsbD (b + 1) := by decide
  exact h l.toBitVec b hb

/-- The dots of a line of `n` dots, each a square of `f` pixels, from column `x` and row `y` on. -/
def lineDots (s : Screen) (f x y n : ℕ) (bits : ℕ → Bool) : Set ℕ :=
  {q | ∃ i k, i < s.width.toNat ∧ k < s.height.toNat ∧ (x ≤ i ∧ i < x + n * f) ∧
    (y ≤ k ∧ k < y + f) ∧ bits ((i - x) / f) ∧ q = i + k * s.width.toNat}

/-- A line is its first dot and the line of the others. -/
theorem lineDots_succ {f : ℕ} (hf : 0 < f) (s : Screen) (x y n : ℕ) (bits : ℕ → Bool) :
    lineDots s f x y (n + 1) bits =
      lineDots s f x y 1 bits ∪ lineDots s f (x + f) y n fun b => bits (b + 1) := by
  have hnext : ∀ i, x + f ≤ i → (i - x) / f = (i - (x + f)) / f + 1 := fun i hi => by
    rw [show i - x = i - (x + f) + f by omega, Nat.add_div_right _ hf]
  ext q
  simp only [lineDots, Set.mem_union, Set.mem_ofPred_eq]
  constructor
  · rintro ⟨i, k, hi, hk, ⟨hle, hlt⟩, hrow, hbit, rfl⟩
    by_cases hfirst : i < x + f
    · exact .inl ⟨i, k, hi, hk, ⟨hle, by omega⟩, hrow, hbit, rfl⟩
    · refine .inr ⟨i, k, hi, hk, ⟨by omega, ?_⟩, hrow, ?_, rfl⟩
      · rw [Nat.add_mul] at hlt
        omega
      · rw [← hnext i (by omega)]
        exact hbit
  · rintro (⟨i, k, hi, hk, ⟨hle, hlt⟩, hrow, hbit, rfl⟩ |
      ⟨i, k, hi, hk, ⟨hle, hlt⟩, hrow, hbit, rfl⟩)
    · refine ⟨i, k, hi, hk, ⟨hle, ?_⟩, hrow, hbit, rfl⟩
      rw [Nat.add_mul]
      omega
    · refine ⟨i, k, hi, hk, ⟨by omega, ?_⟩, hrow, ?_, rfl⟩
      · rw [Nat.add_mul]
        omega
      · rw [hnext i hle]
        exact hbit

/-- A dot that is set is a square. -/
theorem lineDots_one {x y : UInt16} {l : UInt16} {bits : ℕ → Bool} (hbit : bits 0 = true) :
    lineDots s l.toNat x.toNat y.toNat 1 bits = clipped s x y l l := by
  ext q
  simp only [lineDots, clipped, InClipped, Set.mem_ofPred_eq, Nat.one_mul]
  constructor
  · rintro ⟨i, k, hi, hk, ⟨hle, hlt⟩, ⟨hle', hlt'⟩, -, rfl⟩
    exact ⟨i, k, ⟨⟨hle, by omega⟩, hle', by omega⟩, rfl⟩
  · rintro ⟨i, k, ⟨⟨hle, hlt⟩, hle', hlt'⟩, rfl⟩
    refine ⟨i, k, by omega, by omega, ⟨hle, by omega⟩, ⟨hle', by omega⟩, ?_, rfl⟩
    rw [Nat.div_eq_of_lt (by omega)]
    exact hbit

/-- A dot that is not set paints nothing. -/
theorem lineDots_one_of_not {f x y : ℕ} {bits : ℕ → Bool} (hbit : bits 0 = false) :
    lineDots s f x y 1 bits = ∅ := by
  ext q
  simp only [lineDots, Set.mem_ofPred_eq, Nat.one_mul, Set.mem_empty_iff_false, iff_false]
  rintro ⟨i, k, -, -, ⟨hle, hlt⟩, -, hset, -⟩
  rw [Nat.div_eq_of_lt (by omega), hbit] at hset
  exact Bool.noConfusion hset

theorem lineDots_zero {f x y : ℕ} {bits : ℕ → Bool} : lineDots s f x y 0 bits = ∅ := by
  ext q
  simp only [lineDots, Set.mem_ofPred_eq, Set.mem_empty_iff_false, iff_false]
  rintro ⟨i, k, -, -, ⟨hle, hlt⟩, -⟩
  omega

theorem lineDots_congr {f x y n : ℕ} {bits bits' : ℕ → Bool} (hf : 0 < f)
    (h : ∀ b < n, bits b = bits' b) : lineDots s f x y n bits = lineDots s f x y n bits' := by
  ext q
  simp only [lineDots, Set.mem_ofPred_eq]
  refine exists_congr fun i => exists_congr fun k => ?_
  refine and_congr_right fun _ => and_congr_right fun _ => and_congr_right fun hi => ?_
  have hb : (i - x) / f < n := (Nat.div_lt_iff_lt_mul hf).mpr (by omega)
  rw [h _ hb]

/-- The loop over the dots of a line, from the dot at `j` on. -/
theorem printCharRow_paints (s : Screen) (color : Color) {n : ℕ} (hn : n ≤ FONT_WIDTH)
    (hmin : 1 ≤ fontSize.toNat) (hmax : fontSize.toNat ≤ 3) (x y : UInt16)
    (hx : x.toNat + 8 * fontSize.toNat ≤ 2 ^ 16) (m : Mem) {j : UInt32}
    (hj : j.toNat + n * fontSize.toNat = 8 * fontSize.toNat) (l : Int8) :
    Paints s.framebuffer.toNat color
      (lineDots s fontSize.toNat (x.toNat + j.toNat) y.toNat n fun b => l.toBitVec.getLsbD b) m
      (printCharRow s fontSize x y color n m j l) := by
  induction n generalizing m j l with
  | zero =>
    rw [lineDots_zero]
    exact Paints.refl
  | succ n ih =>
    have hsize : (UInt32.ofNat FONT_WIDTH * fontSize).toNat = 8 * fontSize.toNat := by
      rw [UInt32.toNat_mul]
      show 8 * fontSize.toNat % 2 ^ 32 = _
      omega
    rw [Nat.add_mul, Nat.one_mul] at hj
    have hlt : j < UInt32.ofNat FONT_WIDTH * fontSize := by
      rw [UInt32.lt_iff_toNat_lt, hsize]
      omega
    have hnext : (j + fontSize).toNat = j.toNat + fontSize.toNat := by
      rw [UInt32.toNat_add]
      omega
    have hcolumn : (x + j.toUInt16).toNat = x.toNat + j.toNat := by
      rw [UInt16.toNat_add, UInt32.toNat_toUInt16]
      omega
    have hside : fontSize.toUInt16.toNat = fontSize.toNat := by
      rw [UInt32.toNat_toUInt16]
      omega
    have hshift : (lineDots s fontSize.toNat (x.toNat + j.toNat + fontSize.toNat) y.toNat n
        fun b => (l >>> 1).toBitVec.getLsbD b) =
        lineDots s fontSize.toNat (x.toNat + j.toNat + fontSize.toNat) y.toNat n
          fun b => l.toBitVec.getLsbD (b + 1) :=
      lineDots_congr hmin fun b hb => getLsbD_shiftRight l (lt_of_lt_of_le hb (by
        rw [FONT_WIDTH] at hn
        omega))
    have hdot : Paints s.framebuffer.toNat color
        (lineDots s fontSize.toNat (x.toNat + j.toNat) y.toNat 1 fun b => l.toBitVec.getLsbD b) m
        (if l &&& 1 = 1 then printSquare s m (x + j.toUInt16) y fontSize.toUInt16 color
          else m) := by
      by_cases hbit : l &&& 1 = 1
      · rw [if_pos hbit, ← hcolumn, ← hside, lineDots_one ((and_one_eq_one_iff l).mp hbit)]
        exact fillrect_paints s m (x + j.toUInt16) y fontSize.toUInt16 fontSize.toUInt16 color
      · rw [if_neg hbit, lineDots_one_of_not
          (Bool.eq_false_iff.mpr fun hset => hbit ((and_one_eq_one_iff l).mpr hset))]
        exact Paints.refl
    have hrest := ih (by omega) (if l &&& 1 = 1 then
      printSquare s m (x + j.toUInt16) y fontSize.toUInt16 color else m) (j := j + fontSize)
      (by omega) (l >>> 1)
    rw [hnext, ← Nat.add_assoc, hshift] at hrest
    rw [printCharRow, if_pos hlt, lineDots_succ hmin]
    exact hdot.trans hrest

/-! ## Glyphs -/

/-- The dots of a glyph whose upper left corner is at column `x` and row `y`, from line `first`
on. -/
def glyphDots (s : Screen) (f x y first : ℕ) (bits : ℕ → ℕ → Bool) : Set ℕ :=
  {q | ∃ i k, i < s.width.toNat ∧ k < s.height.toNat ∧ (x ≤ i ∧ i < x + 8 * f) ∧
    (y + first * f ≤ k ∧ k < y + 16 * f) ∧ bits ((i - x) / f) ((k - y) / f) ∧
      q = i + k * s.width.toNat}

/-- A glyph is its first line and the others. -/
theorem glyphDots_succ {f first : ℕ} (hf : 0 < f) (hfirst : first < 16) (s : Screen) (x y : ℕ)
    (bits : ℕ → ℕ → Bool) : glyphDots s f x y first bits =
      lineDots s f x (y + first * f) 8 (fun b => bits b first) ∪
        glyphDots s f x y (first + 1) bits := by
  have hline : ∀ k, y + first * f ≤ k → k < y + first * f + f → (k - y) / f = first :=
    fun k hle hlt => by
      rw [Nat.div_eq_iff hf]
      omega
  have hend : first * f + f ≤ 16 * f := by
    rw [← Nat.succ_mul]
    exact Nat.mul_le_mul_right f hfirst
  ext q
  simp only [glyphDots, lineDots, Set.mem_union, Set.mem_ofPred_eq, Nat.add_mul, Nat.one_mul]
  constructor
  · rintro ⟨i, k, hi, hk, hcolumn, ⟨hle, hlt⟩, hbit, rfl⟩
    by_cases hfst : k < y + first * f + f
    · rw [hline k hle hfst] at hbit
      exact .inl ⟨i, k, hi, hk, hcolumn, ⟨hle, hfst⟩, hbit, rfl⟩
    · exact .inr ⟨i, k, hi, hk, hcolumn, ⟨by omega, hlt⟩, hbit, rfl⟩
  · rintro (⟨i, k, hi, hk, hcolumn, ⟨hle, hlt⟩, hbit, rfl⟩ |
      ⟨i, k, hi, hk, hcolumn, ⟨hle, hlt⟩, hbit, rfl⟩)
    · rw [← hline k hle hlt] at hbit
      exact ⟨i, k, hi, hk, hcolumn, ⟨hle, by omega⟩, hbit, rfl⟩
    · exact ⟨i, k, hi, hk, hcolumn, ⟨by omega, hlt⟩, hbit, rfl⟩

theorem glyphDots_sixteen {f x y : ℕ} {bits : ℕ → ℕ → Bool} : glyphDots s f x y 16 bits = ∅ := by
  ext q
  simp only [glyphDots, Set.mem_ofPred_eq, Set.mem_empty_iff_false, iff_false]
  rintro ⟨i, k, -, -, -, ⟨hle, hlt⟩, -⟩
  omega

/-- The loop over the lines of a glyph, with `n` lines to go. -/
theorem printCharRows_paints {n : ℕ} (hn : n ≤ 16) (hmin : 1 ≤ fontSize.toNat)
    (hmax : fontSize.toNat ≤ 3) (x y : UInt16) (hx : x.toNat + 8 * fontSize.toNat ≤ 2 ^ 16)
    (hy : y.toNat + 16 * fontSize.toNat ≤ 2 ^ 16) (charId : ℕ) (m : Mem) {i : UInt32}
    (hi : i.toNat = (16 - n) * fontSize.toNat) :
    Paints s.framebuffer.toNat color (glyphDots s fontSize.toNat x.toNat y.toNat (16 - n) fun b r =>
        (font (FONT_HEIGHT * charId + 2 * r)).toBitVec.getLsbD b) m
      (printCharRows font s fontSize x y charId color n m i (2 * (16 - n))) := by
  induction n generalizing m i with
  | zero =>
    rw [Nat.sub_zero, glyphDots_sixteen]
    exact Paints.refl
  | succ n ih =>
    set r := 16 - (n + 1) with hr
    have hrn : 16 - n = r + 1 := by omega
    have hr16 : r < 16 := by omega
    have hsize : (UInt32.ofNat FONT_HEIGHT * fontSize).toNat = 32 * fontSize.toNat := by
      rw [UInt32.toNat_mul]
      show 32 * fontSize.toNat % 2 ^ 32 = _
      omega
    have hrows : r * fontSize.toNat + fontSize.toNat ≤ 16 * fontSize.toNat := by
      rw [← Nat.succ_mul]
      exact Nat.mul_le_mul_right _ hr16
    have hmore : i < UInt32.ofNat FONT_HEIGHT * fontSize ∧ 2 * r < 32 := by
      rw [UInt32.lt_iff_toNat_lt, hsize]
      omega
    have hnext : (i + fontSize).toNat = (16 - n) * fontSize.toNat := by
      rw [UInt32.toNat_add, hrn, Nat.succ_mul]
      omega
    have hrow : (y + i.toUInt16).toNat = y.toNat + r * fontSize.toNat := by
      rw [UInt16.toNat_add, UInt32.toNat_toUInt16]
      omega
    have hline := printCharRow_paints s color (n := FONT_WIDTH) le_rfl hmin hmax x
      (y + i.toUInt16) hx m (j := 0) (Nat.zero_add _) (font (FONT_HEIGHT * charId + 2 * r))
    have hrest := ih (by omega) (printCharRow s fontSize x (y + i.toUInt16) color FONT_WIDTH m 0
      (font (FONT_HEIGHT * charId + 2 * r))) hnext
    rw [hrow] at hline
    rw [hrn] at hrest
    rw [printCharRows, if_pos hmore, glyphDots_succ hmin hr16]
    exact hline.trans hrest

/-- The pixels of the enlarged glyph that are on the screen. -/
def glyph (font : ℕ → Int8) (s : Screen) (f : ℕ) (c : UInt8) (x y : ℕ) : Set ℕ :=
  {q | ∃ i k, i < s.width.toNat ∧ k < s.height.toNat ∧ x ≤ i ∧ y ≤ k ∧
    dot font c ((i - x) / f) ((k - y) / f) ∧ q = i + k * s.width.toNat}

/-- Only the characters of the font have dots. -/
theorem dot_eq_true_iff {c : UInt8} {i j : ℕ} : dot font c i j = true ↔
    (¬ c < FIRST_CHAR ∧ ¬ c > LAST_CHAR) ∧ (i < 8 ∧ j < 16) ∧
      (font (FONT_HEIGHT * (c - FIRST_CHAR).toNat + 2 * j)).toBitVec.getLsbD i = true := by
  rw [dot, decide_eq_true_iff, UInt8.not_lt, gt_iff_lt, UInt8.not_lt]
  show _ ∧ _ ∧ i < 8 ∧ j < 16 ∧ _ ↔ _
  tauto

/-- There is nothing to draw for a character that is not in the font. -/
theorem glyph_of_not {c : UInt8} (hout : c < FIRST_CHAR ∨ c > LAST_CHAR) (f x y : ℕ) :
    glyph font s f c x y = ∅ := by
  ext q
  simp only [glyph, Set.mem_ofPred_eq, Set.mem_empty_iff_false, iff_false]
  rintro ⟨i, k, -, -, -, -, hdot, -⟩
  obtain ⟨⟨hlow, hhigh⟩, -⟩ := dot_eq_true_iff.mp hdot
  exact hout.elim hlow hhigh

/-- The glyph of a character of the font. -/
theorem glyph_eq_glyphDots {c : UInt8} (hout : ¬ (c < FIRST_CHAR ∨ c > LAST_CHAR)) {f : ℕ}
    (hf : 0 < f) (x y : ℕ) : glyph font s f c x y =
      glyphDots s f x y 0 fun b r =>
        (font (FONT_HEIGHT * (c - FIRST_CHAR).toNat + 2 * r)).toBitVec.getLsbD b := by
  have hbox : ∀ {i k}, x ≤ i → y ≤ k →
      ((i - x) / f < 8 ∧ (k - y) / f < 16 ↔ i < x + 8 * f ∧ k < y + 16 * f) := fun hi hk => by
    rw [Nat.div_lt_iff_lt_mul hf, Nat.div_lt_iff_lt_mul hf]
    omega
  ext q
  simp only [glyph, glyphDots, Set.mem_ofPred_eq, Nat.zero_mul, Nat.add_zero]
  refine exists_congr fun i => exists_congr fun k => ?_
  constructor
  · rintro ⟨hi, hk, hx, hy, hdot, rfl⟩
    obtain ⟨-, hin, hbit⟩ := dot_eq_true_iff.mp hdot
    obtain ⟨hi8, hk16⟩ := (hbox hx hy).mp hin
    exact ⟨hi, hk, ⟨hx, hi8⟩, ⟨hy, hk16⟩, hbit, rfl⟩
  · rintro ⟨hi, hk, ⟨hx, hi8⟩, ⟨hy, hk16⟩, hbit, rfl⟩
    exact ⟨hi, hk, hx, hy, dot_eq_true_iff.mpr
      ⟨not_or.mp hout, (hbox hx hy).mpr ⟨hi8, hk16⟩, hbit⟩, rfl⟩

theorem printChar_paints (font : ℕ → Int8) (fontSize : UInt32) (hmin : 1 ≤ fontSize.toNat)
    (hmax : fontSize.toNat ≤ 3) (m : Mem) (x y : UInt16)
    (hx : x.toNat + 8 * fontSize.toNat ≤ 2 ^ 16) (hy : y.toNat + 16 * fontSize.toNat ≤ 2 ^ 16)
    (c : UInt8) :
    Paints s.framebuffer.toNat color (glyph font s fontSize.toNat c x.toNat y.toNat) m
      (printChar font s fontSize m x y c color) := by
  rw [printChar]
  split_ifs with hout
  · rw [glyph_of_not hout]
    exact Paints.refl
  · rw [glyph_eq_glyphDots hout hmin]
    exact printCharRows_paints le_rfl hmin hmax x y hx hy (c - FIRST_CHAR).toNat m
      (Nat.zero_mul _).symm

/-- Each pixel of the screen under a dot of the glyph has got the color, and no other byte of the
memory has changed. -/
theorem printChar_exact (font : ℕ → Int8) (s : Screen) (fontSize : UInt32) (m : Mem) (x y : UInt16)
    (c : UInt8) (color : Color) (hmin : MIN_FONT_SIZE ≤ fontSize) (hmax : fontSize ≤ MAX_FONT_SIZE)
    (hx : x.toNat + FONT_WIDTH * fontSize.toNat ≤ 2 ^ 16)
    (hy : y.toNat + FONT_HEIGHT / 2 * fontSize.toNat ≤ 2 ^ 16) :
    (∀ i < s.width.toNat, ∀ j < s.height.toNat, x.toNat ≤ i → y.toNat ≤ j →
      dot font c ((i - x.toNat) / fontSize.toNat) ((j - y.toNat) / fontSize.toNat) →
      ∀ k < sizeofColor,
        printChar font s fontSize m x y c color (pixelAt s i j + k) = color.byte k) ∧
    ∀ a, (∀ i < s.width.toNat, ∀ j < s.height.toNat, x.toNat ≤ i → y.toNat ≤ j →
      dot font c ((i - x.toNat) / fontSize.toNat) ((j - y.toNat) / fontSize.toNat) →
      ∀ k < sizeofColor, a ≠ pixelAt s i j + k) →
        printChar font s fontSize m x y c color a = m a := by
  have hpaints : Paints s.framebuffer.toNat color
      (glyph font s fontSize.toNat c x.toNat y.toNat) m (printChar font s fontSize m x y c color) :=
    printChar_paints font fontSize (UInt32.le_iff_toNat_le.mp hmin) (UInt32.le_iff_toNat_le.mp hmax)
      m x y hx hy c
  rw [sizeofColor]
  constructor
  · intro i hi j hj hxi hyj hdot k hk
    have hpixel : (pixelAt s i j + k - s.framebuffer.toNat) / sizeofColor =
        i + j * s.width.toNat := by
      rw [pixelAt, sizeofColor]
      omega
    have hbyte : (pixelAt s i j + k - s.framebuffer.toNat) % sizeofColor = k := by
      rw [pixelAt, sizeofColor]
      omega
    have hset := (hpaints (pixelAt s i j + k)).1
      ⟨by rw [pixelAt]; omega, by rw [hpixel]; exact ⟨i, j, hi, hj, hxi, hyj, hdot, rfl⟩⟩
    rw [hbyte] at hset
    exact hset
  · intro a hnot
    refine (hpaints a).2 fun hmem => ?_
    obtain ⟨hle, i, j, hi, hj, hxi, hyj, hdot, hpixel⟩ := hmem
    rw [sizeofColor] at hpixel
    refine hnot i hi j hj hxi hyj hdot ((a - s.framebuffer.toNat) % 3)
      (Nat.mod_lt _ (by decide)) ?_
    rw [pixelAt, sizeofColor]
    omega

/-- A character in the lower right corner of the screen, of which a part is cut off. -/
theorem printChar_exact_corner :
    let s : Screen := ⟨1024, 768, 0xFD000000⟩
    let m' := printChar (fun _ => 1) s 2 (fun _ => 0) 1020 760 65 ⟨1, 2, 3⟩
    m' (pixelAt s 1021 767 + 2) = 3 ∧ m' (pixelAt s 1019 767 + 2) = 0 := by
  obtain ⟨hset, hkept⟩ := printChar_exact (fun _ => 1) ⟨1024, 768, 0xFD000000⟩ 2 (fun _ => 0) 1020
    760 65 ⟨1, 2, 3⟩ (by decide) (by decide) (by decide) (by decide)
  refine ⟨hset 1021 (by decide) 767 (by decide) (by decide) (by decide) (by decide) 2 (by decide),
    hkept _ fun i hi j hj hx hy _ k hk => ?_⟩
  have hright : (1020 : ℕ) ≤ i := hx
  have hinside : i < 1024 := hi
  rw [sizeofColor] at hk
  show 0xFD000000 + 3 * (1019 + 767 * 1024) + 2 ≠ 0xFD000000 + 3 * (i + j * 1024) + k
  omega

end TronKernel.Video
