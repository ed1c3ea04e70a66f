import TronKernel.Modules.Image

/-!
# `Kernel/videoDriver.c`: drawing

The screen is a linear framebuffer of three bytes for each pixel. `fillrect` clips a rectangle and
walks it with one pointer, `printChar` draws a character in squares, and `printStringAt` moves a
cursor over the screen, which it scrolls by a text line when the cursor gets to the bottom. The
fields of `screenData` are kept apart from the memory that is drawn to.
-/

namespace TronKernel.Video

open Modules

/-- `Color`. -/
structure Color where
  b : UInt8
  g : UInt8
  r : UInt8
deriving DecidableEq

/-- The bytes of a color. -/
def Color.byte (c : Color) (k : ℕ) : UInt8 :=
  if k = 0 then c.b else if k = 1 then c.g else c.r

def sizeofColor : ℕ := 3

def BLACK : Color := ⟨0, 0, 0⟩

def FIRST_CHAR : UInt8 := 33

def LAST_CHAR : UInt8 := 126

def FONT_HEIGHT : ℕ := 32

def FONT_WIDTH : ℕ := 8

def MAX_FONT_SIZE : UInt32 := 3

def MIN_FONT_SIZE : UInt32 := 1

def NEWLINE : UInt8 := 10

def BACKSPACE : UInt8 := 8

/-- The fields of `screenData` that the driver uses, apart from `y_char`. -/
structure Screen where
  width : UInt16
  height : UInt16
  framebuffer : UInt32

/-! ## Rectangles -/

/-- `*where = color`. -/
def storeColor (m : Mem) (ptr : ℕ) (color : Color) : Mem :=
  Function.update (Function.update (Function.update m ptr color.b) (ptr + 1) color.g)
    (ptr + 2) color.r

/-- `getPixel`. -/
def getPixel (s : Screen) (x y : UInt16) : ℕ :=
  s.framebuffer.toNat + sizeofColor * (x.toNat + y.toNat * s.width.toNat)

/-- The loop over `j`: the memory and `where`. -/
def fillRow (color : Color) : ℕ → Mem → ℕ → Mem × ℕ
  | 0, m, ptr => (m, ptr)
  | n + 1, m, ptr => fillRow color n (storeColor m ptr color) (ptr + sizeofColor)

/-- The loop over `i`, for rows of `w` pixels. -/
def fillRows (color : Color) (w lineBreak : ℕ) : ℕ → Mem → ℕ → Mem
  | 0, m, _ => m
  | n + 1, m, ptr =>
    let (m, ptr) := fillRow color w m ptr
    fillRows color w lineBreak n m (ptr + sizeofColor * lineBreak)

/-- `fillrect`. -/
def fillrect (s : Screen) (m : Mem) (x y w h : UInt16) (color : Color) : Mem :=
  if x ≥ s.width ∨ y ≥ s.height then m
  else
    let maxX := s.width - x
    let w := if w > maxX then maxX else w
    let maxY := s.height - y
    let h := if h > maxY then maxY else h
    let lineBreak := s.width.toNat - w.toNat
    fillRows color w.toNat lineBreak h.toNat m (getPixel s x y)

/-- `colorScreen`. -/
def colorScreen (s : Screen) (m : Mem) (color : Color) : Mem :=
  fillrect s m 0 0 s.width s.height color

/-! ## Characters -/

/-- `printSquare`. -/
def printSquare (s : Screen) (m : Mem) (x y l : UInt16) (color : Color) : Mem :=
  fillrect s m x y l l color

/-- The loop over `j`, with so many rounds at most. -/
def printCharRow (s : Screen) (fontSize : UInt32) (x y : UInt16) (color : Color) :
    ℕ → Mem → UInt32 → Int8 → Mem
  | 0, m, _, _ => m
  | rounds + 1, m, j, l =>
    if j < UInt32.ofNat FONT_WIDTH * fontSize then
      let m :=
        if l &&& 1 = 1 then printSquare s m (x + j.toUInt16) y fontSize.toUInt16 color else m
      printCharRow s fontSize x y color rounds m (j + fontSize) (l >>> 1)
    else m

/-- The loop over `i` and `count`, with so many rounds at most. -/
def printCharRows (font : ℕ → Int8) (s : Screen) (fontSize : UInt32) (x y : UInt16) (charId : ℕ)
    (color : Color) : ℕ → Mem → UInt32 → ℕ → Mem
  | 0, m, _, _ => m
  | rounds + 1, m, i, count =>
    if i < UInt32.ofNat FONT_HEIGHT * fontSize ∧ count < 32 then
      let l := font (FONT_HEIGHT * charId + count)
      let m := printCharRow s fontSize x (y + i.toUInt16) color FONT_WIDTH m 0 l
      printCharRows font s fontSize x y charId color rounds m (i + fontSize) (count + 2)
    else m

/-- `printChar`, with the table `font`. -/
def printChar (font : ℕ → Int8) (s : Screen) (fontSize : UInt32) (m : Mem) (x y : UInt16)
    (c : UInt8) (color : Color) : Mem :=
  if c < FIRST_CHAR ∨ c > LAST_CHAR then m
  else
    let charId := (c - FIRST_CHAR).toNat
    printCharRows font s fontSize x y charId color (FONT_HEIGHT / 2) m 0 0

/-! ## Text -/

/-- `memset`: the bytes are written from the last one on. -/
def memset (m : Mem) (destination : ℕ) (c : UInt8) : ℕ → Mem
  | 0 => m
  | length + 1 => memset (Function.update m (destination + length) c) destination c length

/-- The address that the scrolled text is copied from. -/
def scrollSource (s : Screen) (fontSize : UInt32) : ℕ :=
  s.framebuffer.toNat + sizeofColor * fontSize.toNat * (FONT_HEIGHT / 2) * s.width.toNat

/-- `length`, an `uint64_t`. The difference is taken as an `int`. -/
def scrollLength (s : Screen) (fontSize : UInt32) : ℕ :=
  ((sizeofColor * fontSize.toNat * (s.width.toNat * ((s.height.toNat : ℤ) - FONT_HEIGHT / 2)))
    % 2 ^ 64).toNat

/-- The number of bytes that are cleared behind the copied text. -/
def scrollCleared (s : Screen) (fontSize : UInt32) : ℕ :=
  sizeofColor * fontSize.toNat * s.width.toNat * (FONT_HEIGHT / 2)

/-- The scrolling branch of `printStringAt`. -/
def scroll (s : Screen) (fontSize : UInt32) (m : Mem) : Mem :=
  let dst := s.framebuffer.toNat
  let length := scrollLength s fontSize
  let m := memcpy m dst (scrollSource s fontSize) length
  memset m (dst + length) 0 (scrollCleared s fontSize)

/-- The variables of `printStringAt`, and the memory. -/
structure Text where
  x : UInt16
  y : UInt8
  i : ℤ
  mem : Mem

/-- `x + FONT_WIDTH * i * fontSize`, an `uint32_t`. -/
def column (fontSize : UInt32) (t : Text) : ℕ :=
  ((t.x.toNat + FONT_WIDTH * t.i * fontSize.toNat : ℤ) % 2 ^ 32).toNat

/-- Whether the next character would go past the edge. The comparison is unsigned. -/
def atEdge (s : Screen) (fontSize : UInt32) (t : Text) : Bool :=
  ((t.x.toNat + fontSize.toNat * (t.i * FONT_WIDTH + FONT_WIDTH / 2) : ℤ) % 2 ^ 32).toNat
    > s.width.toNat

/-- The next line, which is the last one again after scrolling. -/
def newLine (s : Screen) (fontSize : UInt32) (t : Text) : Text :=
  if (t.y.toNat + 2) * (FONT_HEIGHT / 2) * fontSize.toNat % 2 ^ 32 ≥ s.height.toNat then
    { t with x := 0, i := 0, mem := scroll s fontSize t.mem }
  else
    { t with x := 0, i := 0, y := t.y + 1 }

/-- `y * FONT_HEIGHT / 2 * fontSize`, as it is passed on. -/
def textRow (fontSize : UInt32) (y : ℕ) : UInt16 :=
  UInt16.ofNat (y * FONT_HEIGHT / 2 * fontSize.toNat)

/-- One character of `printStringAt`. -/
def printNext (font : ℕ → Int8) (s : Screen) (fontSize : UInt32) (color : Color) (t : Text)
    (c : UInt8) : Text :=
  let t := if atEdge s fontSize t ∨ c = NEWLINE then newLine s fontSize t else t
  if c = BACKSPACE then
    let t := { t with i := t.i - 1 }
    let left := column fontSize t
    let mem := fillrect s t.mem (UInt16.ofNat left) (textRow fontSize t.y.toNat)
      (UInt16.ofNat (left + 1)) (textRow fontSize (t.y.toNat + 1)) BLACK
    { t with mem := mem }
  else if c ≠ NEWLINE then
    let mem := printChar font s fontSize t.mem (UInt16.ofNat (column fontSize t))
      (textRow fontSize t.y.toNat) c color
    { t with mem := mem, i := t.i + 1 }
  else t

/-- The variables of the driver, the screen and the memory. -/
structure Driver where
  fontSize : UInt32
  posX : UInt32
  yChar : UInt8
  screen : Screen
  mem : Mem

/-- `printStringAt`. -/
def printStringAt (font : ℕ → Int8) (d : Driver) (x : UInt16) (y : UInt8) (string : List UInt8)
    (color : Color) : Driver :=
  let t := string.foldl (printNext font d.screen d.fontSize color) ⟨x, y, 0, d.mem⟩
  { d with posX := UInt32.ofNat (column d.fontSize t), yChar := t.y, mem := t.mem }

/-- `printString`. -/
def printString (font : ℕ → Int8) (d : Driver) (string : List UInt8) (color : Color) : Driver :=
  printStringAt font d d.posX.toUInt16 d.yChar string color

/-- `clearScreen`. -/
def clearScreen (d : Driver) : Driver :=
  { d with yChar := 0, posX := 0, mem := colorScreen d.screen d.mem BLACK }

/-- `changeFontSize`: the driver and the returned `int`. -/
def changeFontSize (d : Driver) (dif : UInt32) : Driver × ℤ :=
  if d.fontSize + dif > MAX_FONT_SIZE ∨ d.fontSize + dif < MIN_FONT_SIZE then (d, 0)
  else (clearScreen { d with fontSize := d.fontSize + dif }, 1)

end TronKernel.Video
