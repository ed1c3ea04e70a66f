import Mathlib.Data.List.TakeWhile
import TronKernel.Text.Numerals

/-!
# `print` of the kernel and of the user library

Both copies scan the format with two states and hand what they emit to `sys_write`, which takes a
string up to its zero byte. Numbers go through a buffer of `BUFFER` bytes, in base 8 also for `%x`,
`%X` and `%p`. The copies differ in `%d` and `%i`: the kernel uses `numToBase`, the user library
`sitoa`.

For a format that is a sequence of pieces, `print_eq` says what is emitted.
-/

namespace TronKernel.Text

open Mem Numerals

/-- The copy of `print`. -/
inductive Version where
  | kernel
  | user
deriving DecidableEq

/-- An argument of a variable argument list. A string is given by the bytes before its zero byte. -/
inductive Arg where
  | int (n : Int32)
  | long (n : Int64)
  | str (s : List UInt8)
  | ptr (p : UInt64)
deriving DecidableEq

/-- `va_arg(args, int)`: the lower half of a wider argument. -/
def Arg.asInt : Arg → Option Int32
  | .int n => some n
  | .long n => some n.toInt32
  | .str _ => none
  | .ptr p => some p.toUInt32.toInt32

/-- `va_arg(args, long)`. -/
def Arg.asLong : Arg → Option Int64
  | .long n => some n
  | .ptr p => some p.toInt64
  | _ => none

/-- `va_arg(args, char *)`. -/
def Arg.asStr : Arg → Option (List UInt8)
  | .str s => some s
  | _ => none

/-- The variables of `print`, and what has been emitted. `directive` is true in state 1. -/
structure Scan where
  directive : Bool
  args : List Arg
  mem : Mem
  out : List UInt8

/-- `va_arg`. -/
def Scan.vaArg {α : Type} (s : Scan) (get : Arg → Option α) : Option (α × Scan) :=
  match s.args with
  | [] => none
  | a :: args => (get a).map fun v => (v, { s with args := args })

/-- `sys_write(STDOUT, str, 0, WHITE)`. -/
def Scan.sysWrite (s : Scan) (str : List UInt8) : Scan :=
  { s with out := s.out ++ str.takeWhile (· ≠ 0) }

/-- `putChar`. -/
def Scan.putChar (s : Scan) (c : UInt8) : Scan := s.sysWrite [c]

/-- `char buffer[27]`. -/
def BUFFER : ℕ := 27

/-- The bytes that are there. -/
def bytesAt (m : Mem) (a n : ℕ) : List UInt8 := (List.range n).map fun i => m (a + i)

/-- A conversion into the buffer, and the `sys_write` behind it. -/
def Scan.writeNumber (s : Scan) (buffer : ℕ) (convert : Mem → Option Mem) : Option Scan :=
  (convert s.mem).map fun m => { s with mem := m }.sysWrite (bytesAt m buffer BUFFER)

/-- How a copy writes `%d` and `%i`. -/
def Version.convertDecimal (v : Version) (buffer : ℕ) (num : Int32) (m : Mem) : Option Mem :=
  match v with
  | .kernel => (numToBase m num.toInt64 buffer 10).map Prod.fst
  | .user => sitoa m num buffer 10

/-- `numToBase(num, buffer, 8)`. -/
def convertOctal (buffer : ℕ) (num : Int64) (m : Mem) : Option Mem :=
  (numToBase m num buffer 8).map Prod.fst

/-- The `switch` on the character behind the percent sign. -/
def directive (v : Version) (buffer : ℕ) (s : Scan) (c : UInt8) : Option Scan :=
  if c = 'c'.toUInt8 then do
    let (n, s) ← s.vaArg Arg.asInt
    some (s.putChar n.toUInt32.toUInt8)
  else if c = 's'.toUInt8 then do
    let (str, s) ← s.vaArg Arg.asStr
    some (s.sysWrite str)
  else if c = 'i'.toUInt8 ∨ c = 'd'.toUInt8 then do
    let (num, s) ← s.vaArg Arg.asInt
    s.writeNumber buffer (v.convertDecimal buffer num)
  else if c = 'o'.toUInt8 then do
    let (num, s) ← s.vaArg Arg.asInt
    s.writeNumber buffer (convertOctal buffer num.toInt64)
  else if c = 'x'.toUInt8 ∨ c = 'X'.toUInt8 ∨ c = 'p'.toUInt8 then do
    let (num, s) ← s.vaArg Arg.asInt
    ((s.putChar '0'.toUInt8).putChar 'x'.toUInt8).writeNumber buffer
      (convertOctal buffer num.toInt64)
  else if c = '%'.toUInt8 then some (s.putChar '%'.toUInt8)
  else if c = 'l'.toUInt8 then do
    let (num, s) ← s.vaArg Arg.asLong
    s.writeNumber buffer (convertOctal buffer num)
  else some s

/-- `state = 0`. -/
def Scan.leave (s : Scan) : Scan := { s with directive := false }

/-- One round of the loop over the format. -/
def scan (v : Version) (buffer : ℕ) (s : Scan) (c : UInt8) : Option Scan :=
  if s.directive then (directive v buffer s c).map Scan.leave
  else if c = '%'.toUInt8 then some { s with directive := true }
  else some (s.putChar c)

/-- `print`: what is emitted, `none` for a missing argument or one of another type. -/
def print (v : Version) (m : Mem) (buffer : ℕ) (fmt : List UInt8) (args : List Arg) :
    Option (List UInt8) :=
  ((fmt.takeWhile (· ≠ 0)).foldlM (scan v buffer) ⟨false, args, m, []⟩).map Scan.out

/-! ## Formats -/

/-- A piece of a format, with the argument it takes. -/
inductive Piece where
  | lit (c : UInt8) (hc : c ≠ 0 ∧ c ≠ '%'.toUInt8)
  | char (n : Int32)
  | str (s : List UInt8) (hs : 0 ∉ s)
  | dec (n : Int32)
  | int (n : Int32)
  | oct (n : Int32)
  | hex (n : Int32)
  | upperHex (n : Int32)
  | ptr (p : UInt64)
  | percent

/-- The letter of a directive. -/
def Piece.letter : Piece → UInt8
  | .lit _ _ => 0
  | .char _ => 'c'.toUInt8
  | .str _ _ => 's'.toUInt8
  | .dec _ => 'd'.toUInt8
  | .int _ => 'i'.toUInt8
  | .oct _ => 'o'.toUInt8
  | .hex _ => 'x'.toUInt8
  | .upperHex _ => 'X'.toUInt8
  | .ptr _ => 'p'.toUInt8
  | .percent => '%'.toUInt8

def Piece.format : Piece → List UInt8
  | .lit c _ => [c]
  | q => ['%'.toUInt8, q.letter]

def Piece.args : Piece → List Arg
  | .lit _ _ => []
  | .char n => [.int n]
  | .str s _ => [.str s]
  | .dec n => [.int n]
  | .int n => [.int n]
  | .oct n => [.int n]
  | .hex n => [.int n]
  | .upperHex n => [.int n]
  | .ptr p => [.ptr p]
  | .percent => []

/-- The format string that the pieces spell, and their arguments. -/
def formatOf (qs : List Piece) : List UInt8 := qs.flatMap Piece.format

def argsOf (qs : List Piece) : List Arg := qs.flatMap Piece.args

/-- What `numToBase` makes of an `int`. -/
def signedText (b : ℕ) (n : Int32) : List UInt8 :=
  numeralText upperDigit (if n.toInt < 0 then -1 else 1) b n.toInt.natAbs

/-- What is written for `%d` and `%i`. -/
def Version.decimalText : Version → Int32 → List UInt8
  | .kernel, n => signedText 10 n
  | .user, n => sitoaText n

/-- What is written for `%x`, `%X` and `%p`. -/
def prefixedText (n : Int32) : List UInt8 := '0'.toUInt8 :: 'x'.toUInt8 :: signedText 8 n

/-- What `print` emits for a piece. -/
def Piece.emitted (v : Version) : Piece → List UInt8
  | .lit c _ => [c]
  | .char n => [n.toUInt32.toUInt8].takeWhile (· ≠ 0)
  | .str s _ => s
  | .dec n => v.decimalText n
  | .int n => v.decimalText n
  | .oct n => signedText 8 n
  | .hex n => prefixedText n
  | .upperHex n => prefixedText n
  | .ptr p => prefixedText p.toUInt32.toInt32
  | .percent => ['%'.toUInt8]

/-! ## Writing through the buffer -/

variable {m : Mem} {a b n buffer : ℕ} {cs : List UInt8} {num : Int32} {s : Scan}

theorem bytesAt_succ (m : Mem) (a n : ℕ) : bytesAt m a (n + 1) = m a :: bytesAt m (a + 1) n := by
  rw [bytesAt, List.range_succ_eq_map, List.map_cons, List.map_map, bytesAt, Nat.add_zero]
  congr 1
  apply List.map_congr_left
  intro i _
  simp only [Function.comp_apply]
  congr 1
  omega

/-- What `sys_write` reads of a string that fits. -/
theorem takeWhile_bytesAt (h : CString m a cs) (hlen : cs.length < n) :
    (bytesAt m a n).takeWhile (· ≠ 0) = cs := by
  induction cs generalizing a n with
  | nil =>
    obtain ⟨k, rfl⟩ : ∃ k, n = k + 1 := ⟨n - 1, by simp at hlen; omega⟩
    rw [bytesAt_succ, List.takeWhile_cons_of_neg]
    simpa using h.1.1
  | cons c cs ih =>
    obtain ⟨k, rfl⟩ : ∃ k, n = k + 1 := ⟨n - 1, by simp at hlen; omega⟩
    obtain ⟨⟨hc, hrest⟩, hzero⟩ := h
    rw [List.mem_cons, not_or] at hzero
    rw [bytesAt_succ, hc, List.takeWhile_cons_of_pos (by simpa using Ne.symm hzero.1),
      ih ⟨hrest, hzero.2⟩ (by simpa using hlen)]

/-- A conversion that fills the buffer with a string writes the string. -/
theorem writeNumber_spec {convert : Mem → Option Mem} (s : Scan)
    (h : ∃ m, convert s.mem = some m ∧ CString m buffer cs) (hlen : cs.length < BUFFER) :
    ∃ m, s.writeNumber buffer convert = some { s with mem := m, out := s.out ++ cs } := by
  obtain ⟨m, hrun, htext⟩ := h
  refine ⟨m, ?_⟩
  rw [Scan.writeNumber, hrun, Option.map_some, Scan.sysWrite, takeWhile_bytesAt htext hlen]

theorem upperDigit_signed_ne_zero :
    ∀ d < 16, upperDigit (d : ℕ) ≠ 0 ∧ upperDigit (-(d : ℕ)) ≠ 0 := by decide

theorem lowerDigit_signed_ne_zero :
    ∀ d < 10, lowerDigit (d : ℕ) ≠ 0 ∧ lowerDigit (-(d : ℕ)) ≠ 0 := by decide

theorem zero_notMem_numeralText {digit : ℤ → UInt8} {s : ℤ} (hb : 1 < b) (hs : s = 1 ∨ s = -1)
    (hdigit : ∀ d < b, digit (d : ℕ) ≠ 0 ∧ digit (-(d : ℕ)) ≠ 0) :
    0 ∉ numeralText digit s b n := by
  rw [numeralText, List.mem_map]
  rintro ⟨d, hd, hzero⟩
  have hne := hdigit d (lt_of_mem_numeral hb hd)
  rcases hs with rfl | rfl
  · exact hne.1 (by rwa [one_mul] at hzero)
  · exact hne.2 (by rwa [neg_one_mul] at hzero)

theorem natAbs_toInt_le (num : Int32) : num.toInt.natAbs ≤ 2 ^ 31 := by
  have hlow : -2 ^ 31 ≤ num.toInt := num.le_toInt
  have hhigh : num.toInt < 2 ^ 31 := num.toInt_lt
  omega

theorem length_numeralText_le {digit : ℤ → UInt8} {s : ℤ} (hb : 8 ≤ b) (hn : n ≤ 2 ^ 31) :
    (numeralText digit s b n).length ≤ 11 := by
  rw [numeralText, List.length_map, length_numeral_le_iff (by omega) (by omega)]
  have hpow : 8 ^ 11 ≤ b ^ 11 := Nat.pow_le_pow_left hb 11
  omega

/-- `numToBase` of an `int`, in the base 8 or 10. -/
theorem numToBase_int {base : Int32} (m : Mem) (num : Int32) (buffer : ℕ) (hbase : base.toInt = b)
    (hb : 1 < b) (hle : b ≤ 16) :
    ∃ m', (numToBase m num.toInt64 buffer base).map Prod.fst = some m' ∧
      CString m' buffer (signedText b num) := by
  have hs : (if num.toInt < 0 then -1 else 1 : ℤ) = 1 ∨
      (if num.toInt < 0 then -1 else 1 : ℤ) = -1 := by
    split_ifs <;> simp
  have hvalue : num.toInt = (if num.toInt < 0 then -1 else 1) * (num.toInt.natAbs : ℕ) := by
    split_ifs <;> omega
  have hbound := natAbs_toInt_le num
  obtain ⟨m', hrun, hholds, -⟩ := toBase_spec m buffer hb hs (n := num.toInt.natAbs) (by omega)
  refine ⟨m', ?_, hholds,
    zero_notMem_numeralText hb hs fun d hd => upperDigit_signed_ne_zero d (by omega)⟩
  rw [numToBase, Int32.toInt_toInt64, hbase, hvalue, hrun]
  rfl

theorem convertOctal_spec (m : Mem) (num : Int32) (buffer : ℕ) :
    ∃ m', convertOctal buffer num.toInt64 m = some m' ∧ CString m' buffer (signedText 8 num) :=
  numToBase_int m num buffer rfl (by omega) (by omega)

theorem convertDecimal_spec (v : Version) (m : Mem) (num : Int32) (buffer : ℕ) :
    ∃ m', v.convertDecimal buffer num m = some m' ∧ CString m' buffer (v.decimalText num) := by
  cases v with
  | kernel => exact numToBase_int m num buffer rfl (by omega) (by omega)
  | user =>
    obtain ⟨m', hrun, hholds⟩ := sitoa_spec m num buffer
    refine ⟨m', hrun, hholds, ?_⟩
    have hs : emittedSign num = 1 ∨ emittedSign num = -1 := by
      rw [emittedSign]
      split_ifs <;> simp
    rw [Version.decimalText, sitoaText, List.mem_append, not_or]
    refine ⟨?_, zero_notMem_numeralText (by omega) hs lowerDigit_signed_ne_zero⟩
    split_ifs <;> simp

theorem length_signedText (hb : 8 ≤ b) (num : Int32) : (signedText b num).length ≤ 11 :=
  length_numeralText_le hb (natAbs_toInt_le num)

theorem length_decimalText (v : Version) (num : Int32) : (v.decimalText num).length ≤ 12 := by
  cases v with
  | kernel => exact (length_signedText (by omega) num).trans (by omega)
  | user =>
    have hdigits : (numeralText lowerDigit (emittedSign num) 10 num.toInt.natAbs).length ≤ 11 :=
      length_numeralText_le (by omega) (natAbs_toInt_le num)
    rw [Version.decimalText, sitoaText, List.length_append]
    split_ifs
    · rw [List.length_singleton]
      omega
    · rw [List.length_nil]
      omega

/-! ## Scanning a piece -/

/-- The pieces emit one after the other. -/
def emittedOf (v : Version) (qs : List Piece) : List UInt8 := qs.flatMap (Piece.emitted v)

theorem scan_directive (v : Version) (buffer : ℕ) (args : List Arg) (m : Mem) (out : List UInt8)
    (c : UInt8) :
    ['%'.toUInt8, c].foldlM (scan v buffer) ⟨false, args, m, out⟩
      = (directive v buffer ⟨true, args, m, out⟩ c).map Scan.leave := by
  rw [List.foldlM_cons, scan, if_neg (by simp), if_pos rfl]
  simp only [Option.bind_eq_bind, Option.bind_some, List.foldlM_cons, List.foldlM_nil, scan,
    if_true, Option.pure_def, Option.bind_fun_some]

/-- A number is written behind what was emitted, and the scanner goes on behind its argument. -/
theorem map_writeNumber {convert : Mem → Option Mem} (args : List Arg) (out : List UInt8)
    (h : ∃ m', convert m = some m' ∧ CString m' buffer cs) (hlen : cs.length < BUFFER) :
    ∃ m', ((Scan.mk true args m out).writeNumber buffer convert).map Scan.leave
      = some ⟨false, args, m', out ++ cs⟩ := by
  obtain ⟨m', hrun⟩ := writeNumber_spec ⟨true, args, m, out⟩ h hlen
  exact ⟨m', by rw [hrun]; rfl⟩

/-- A piece is read with its argument, and what it emits goes behind the rest. -/
theorem scan_piece (v : Version) (buffer : ℕ) (q : Piece) (args : List Arg) (m : Mem)
    (out : List UInt8) :
    ∃ m', q.format.foldlM (scan v buffer) ⟨false, q.args ++ args, m, out⟩
      = some ⟨false, args, m', out ++ q.emitted v⟩ := by
  have hdecimal : ∀ n, ∃ m', ((Scan.mk true args m out).writeNumber buffer
      (v.convertDecimal buffer n)).map Scan.leave
        = some ⟨false, args, m', out ++ v.decimalText n⟩ := fun n =>
    map_writeNumber args out (convertDecimal_spec v m n buffer)
      ((length_decimalText v n).trans_lt (by decide))
  have hoctal : ∀ n out, ∃ m', ((Scan.mk true args m out).writeNumber buffer
      (convertOctal buffer n.toInt64)).map Scan.leave
        = some ⟨false, args, m', out ++ signedText 8 n⟩ := fun n out =>
    map_writeNumber args out (convertOctal_spec m n buffer)
      ((length_signedText (by omega) n).trans_lt (by decide))
  have hprefixed : ∀ n, ∃ m',
      ((Scan.mk true args m (out ++ ['0'.toUInt8] ++ ['x'.toUInt8])).writeNumber buffer
        (convertOctal buffer n.toInt64)).map Scan.leave
          = some ⟨false, args, m', out ++ prefixedText n⟩ := by
    intro n
    obtain ⟨m', hrun⟩ := hoctal n (out ++ ['0'.toUInt8] ++ ['x'.toUInt8])
    exact ⟨m', by rw [hrun, prefixedText]; simp⟩
  cases q with
  | lit c hc =>
    refine ⟨m, ?_⟩
    rw [Piece.format, List.foldlM_cons, scan, if_neg (by simp), if_neg hc.2]
    simp [Scan.putChar, Scan.sysWrite, Piece.args, Piece.emitted, hc.1]
  | char n => exact ⟨m, scan_directive v buffer _ m out _⟩
  | str s hs =>
    have hall : s.takeWhile (· ≠ 0) = s := by
      rw [List.takeWhile_eq_self_iff]
      intro c hc
      rw [decide_eq_true_eq]
      exact ne_of_mem_of_not_mem hc hs
    exact ⟨m, (scan_directive v buffer _ m out _).trans
      (congrArg (fun cs => some (Scan.mk false args m (out ++ cs))) hall)⟩
  | percent => exact ⟨m, scan_directive v buffer _ m out _⟩
  | dec n =>
    obtain ⟨m', hrun⟩ := hdecimal n
    exact ⟨m', (scan_directive v buffer _ m out _).trans hrun⟩
  | int n =>
    obtain ⟨m', hrun⟩ := hdecimal n
    exact ⟨m', (scan_directive v buffer _ m out _).trans hrun⟩
  | oct n =>
    obtain ⟨m', hrun⟩ := hoctal n out
    exact ⟨m', (scan_directive v buffer _ m out _).trans hrun⟩
  | hex n =>
    obtain ⟨m', hrun⟩ := hprefixed n
    exact ⟨m', (scan_directive v buffer _ m out _).trans hrun⟩
  | upperHex n =>
    obtain ⟨m', hrun⟩ := hprefixed n
    exact ⟨m', (scan_directive v buffer _ m out _).trans hrun⟩
  | ptr p =>
    obtain ⟨m', hrun⟩ := hprefixed p.toUInt32.toInt32
    exact ⟨m', (scan_directive v buffer _ m out _).trans hrun⟩

theorem scan_pieces (v : Version) (buffer : ℕ) (qs : List Piece) (rest : List Arg) (m : Mem)
    (out : List UInt8) :
    ∃ m', (formatOf qs).foldlM (scan v buffer) ⟨false, argsOf qs ++ rest, m, out⟩
      = some ⟨false, rest, m', out ++ emittedOf v qs⟩ := by
  induction qs generalizing m out with
  | nil => exact ⟨m, by simp [formatOf, argsOf, emittedOf]⟩
  | cons q qs ih =>
    obtain ⟨m₁, hfirst⟩ := scan_piece v buffer q (argsOf qs ++ rest) m out
    obtain ⟨m', hrest⟩ := ih m₁ (out ++ q.emitted v)
    refine ⟨m', ?_⟩
    rw [formatOf, List.flatMap_cons, List.foldlM_append, argsOf, List.flatMap_cons,
      List.append_assoc, ← argsOf, hfirst, emittedOf, List.flatMap_cons, ← List.append_assoc]
    exact hrest

theorem zero_notMem_format (q : Piece) : 0 ∉ q.format := by
  cases q with
  | lit c hc => simpa [Piece.format] using Ne.symm hc.1
  | _ =>
    simp only [Piece.format, Piece.letter]
    decide

/-- What `print` emits for a format and its arguments. -/
theorem print_eq (v : Version) (m : Mem) (buffer : ℕ) (qs : List Piece) (rest : List Arg) :
    print v m buffer (formatOf qs) (argsOf qs ++ rest) = some (emittedOf v qs) := by
  have hall : (formatOf qs).takeWhile (· ≠ 0) = formatOf qs := by
    rw [List.takeWhile_eq_self_iff]
    intro c hc
    obtain ⟨q, -, hq⟩ := List.mem_flatMap.mp hc
    rw [decide_eq_true_eq]
    exact ne_of_mem_of_not_mem hq (zero_notMem_format q)
  obtain ⟨m', hrun⟩ := scan_pieces v buffer qs rest m []
  rw [print, hall, hrun]
  rfl

end TronKernel.Text
