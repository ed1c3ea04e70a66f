import TronKernel.Lib.Split
import TronKernel.Shell.Commands

/-!
# `printMem`

The argument is spaces, `0x` and hexadecimal digits. The number is collected in a `long long`, which
wraps around, and the limit is tested by one subtraction behind the loop, which wraps around as
well. So a long number is taken for its last sixteen digits, and those from `0x8000000100000000` on
are negative and pass the test. Such a number is read from, or neither read from nor refused: the
condition of the second loop fails at once for `0xfffffffffffffffd`.

The code does what it says exactly for the numbers that `printMem_exact_iff` names. The argument is
the list of the bytes from its address on. A read behind them is `none`.
-/

namespace TronKernel.Shell.PrintMem

def PRINT_BYTES : ℕ := 32

def NO_ARGUMENT : String := "No argument received"

def NOT_HEXADECIMAL : String := "Argument must be a hexadecimal value"

def TOO_BIG : String := "Input number is too big, limit is 0xFFFFFFDE"

/-- A `long long`, and its conversion to an unsigned one. -/
def toLong (x : ℤ) : ℤ := (x + 2 ^ 63) % 2 ^ 64 - 2 ^ 63

def toULong (x : ℤ) : ℤ := x % 2 ^ 64

/-- What becomes of the argument: a refusal with its message, or the addresses that are read. -/
abbrev Outcome := Option (Except String (List ℤ))

def lowerHex (c : UInt8) : Bool := 97 ≤ c && c ≤ 102

def decimal (c : UInt8) : Bool := 48 ≤ c && c ≤ 57

/-- The loop over the digits. It gives `accum` at the terminator. -/
def accumulate : ℤ → List UInt8 → Option (Except String ℤ)
  | _, [] => none
  | accum, c :: buf =>
    if c = 0 then some (.ok accum)
    else if lowerHex c then accumulate (toLong (16 * accum + c.toNat - 97 + 10)) buf
    else if decimal c then accumulate (toLong (16 * accum + c.toNat - 48)) buf
    else some (.error NOT_HEXADECIMAL)

/-- The loop over the memory, from `j` on with so many passes to go: the addresses of
`pointer[j]`. -/
def readLoop (accum : ℤ) : ℕ → ℤ → List ℤ
  | 0, _ => []
  | n + 1, j =>
    if toULong (toLong (accum + j + 2)) < 0xFFFFFFFFFFFFFFFF then
      toULong (accum + 8 * j) :: readLoop accum n (j + 1)
    else []

/-- Behind the loop over the digits. -/
def readFrom (accum : ℤ) : Except String (List ℤ) :=
  if toLong (0xFFFFFFFF - accum) ≤ 32 then .error TOO_BIG else .ok (readLoop accum PRINT_BYTES 0)

/-- Behind `0x`. -/
def readDigits : List UInt8 → Outcome
  | [] => none
  | c :: buf =>
    if c = 0 then some (.error NOT_HEXADECIMAL)
    else (accumulate 0 (c :: buf)).map fun accum => accum.bind readFrom

/-- Behind `0`. -/
def readX : List UInt8 → Outcome
  | [] => none
  | c :: buf => if c = 120 then readDigits buf else some (.error NOT_HEXADECIMAL)

/-- Behind the spaces. -/
def readZero : List UInt8 → Outcome
  | [] => none
  | c :: buf =>
    if c = 0 then some (.error NO_ARGUMENT)
    else if c = 48 then readX buf
    else some (.error NOT_HEXADECIMAL)

/-- `printMem`. -/
def printMem (buf : List UInt8) : Outcome := readZero (buf.dropWhile (· = SPACE))

/-! ## The arguments -/

/-- The bytes before the terminator. -/
def content (buf : List UInt8) : List UInt8 := buf.takeWhile (· ≠ 0)

def hexDigit (c : UInt8) : Bool := lowerHex c || decimal c

def digitValue (c : UInt8) : ℕ := if lowerHex c then c.toNat - 97 + 10 else c.toNat - 48

/-- The exact value of a list of digits. -/
def value (digits : List UInt8) : ℕ := digits.foldl (fun v c => 16 * v + digitValue c) 0

/-- The text is spaces, `0x` and these digits, of which there is at least one. -/
def IsNumber (text digits : List UInt8) : Prop :=
  digits ≠ [] ∧ (∀ c ∈ digits, hexDigit c) ∧
    ∃ n, text = List.replicate n SPACE ++ 48 :: 120 :: digits

def LIMIT : ℕ := 0xFFFFFFDE

/-- Numbers up to the limit are read from, and every other text is refused. -/
def Exact (buf : List UInt8) : Prop :=
  (∀ digits, IsNumber (content buf) digits → value digits ≤ LIMIT →
    printMem buf = some (.ok ((List.range PRINT_BYTES).map fun j : ℕ =>
      (value digits + 8 * j : ℤ)))) ∧
  ((¬ ∃ digits, IsNumber (content buf) digits ∧ value digits ≤ LIMIT) →
    ∃ message, printMem buf = some (.error message))

variable {buf text digits : List UInt8} {c : UInt8} {accum j : ℤ} {n v : ℕ}

/-! ## The digits -/

theorem accumulate_digit (hc : hexDigit c) :
    accumulate (toLong v) (c :: buf) = accumulate (toLong (16 * v + digitValue c : ℕ)) buf := by
  have hzero : c ≠ 0 := by
    rintro rfl
    exact absurd hc (by decide)
  rw [accumulate, if_neg hzero]
  unfold hexDigit at hc
  unfold digitValue
  by_cases hlower : lowerHex c
  · have hrange : 97 ≤ c.toNat := by
      have hand : 97 ≤ c ∧ c ≤ 102 := by simpa [lowerHex] using hlower
      exact UInt8.le_iff_toNat_le.mp hand.1
    have hwrap : toLong (16 * toLong v + c.toNat - 97 + 10) =
        toLong (16 * v + (c.toNat - 97 + 10) : ℕ) := by
      unfold toLong
      omega
    rw [if_pos hlower, if_pos hlower, hwrap]
  · have hdecimal : decimal c := by simpa [hlower] using hc
    have hrange : 48 ≤ c.toNat := by
      have hand : 48 ≤ c ∧ c ≤ 57 := by simpa [decimal] using hdecimal
      exact UInt8.le_iff_toNat_le.mp hand.1
    have hwrap : toLong (16 * toLong v + c.toNat - 48) =
        toLong (16 * v + (c.toNat - 48) : ℕ) := by
      unfold toLong
      omega
    rw [if_neg hlower, if_neg hlower, if_pos hdecimal, hwrap]

theorem content_cons (hc : c ≠ 0) : content (c :: buf) = c :: content buf :=
  List.takeWhile_cons_of_pos (by simpa using hc)

theorem content_zero : content (0 :: buf) = [] := List.takeWhile_cons_of_neg (by simp)

/-- `accum` is the exact value, wrapped around. -/
theorem accumulate_spec (v : ℕ) (hbuf : 0 ∈ buf) :
    accumulate (toLong v) buf =
      if (content buf).all hexDigit then
        some (.ok (toLong ((content buf).foldl (fun v c => 16 * v + digitValue c) v : ℕ)))
      else some (.error NOT_HEXADECIMAL) := by
  induction buf generalizing v with
  | nil => simp at hbuf
  | cons c buf ih =>
    by_cases hzero : c = 0
    · rw [hzero, accumulate, if_pos rfl, content_zero]
      rfl
    · rw [content_cons hzero, List.all_cons, List.foldl_cons]
      by_cases hc : hexDigit c
      · rw [accumulate_digit hc, ih _ ((List.mem_cons.mp hbuf).resolve_left (Ne.symm hzero)), hc,
          Bool.true_and]
      · have hneither : ¬ lowerHex c ∧ ¬ decimal c := by simpa [hexDigit] using hc
        rw [accumulate, if_neg hzero, if_neg hneither.1, if_neg hneither.2,
          Bool.not_eq_true _ |>.mp hc]
        rfl

/-! ## The test of the limit -/

/-- The numbers above the limit that are refused. -/
def Caught (v : ℕ) : Prop := 0xFFFFFFDF ≤ v % 2 ^ 64 ∧ v % 2 ^ 64 ≤ 2 ^ 63 + 0xFFFFFFFF

theorem tooBig_iff (v : ℕ) : toLong (0xFFFFFFFF - toLong v) ≤ 32 ↔ Caught v := by
  unfold toLong Caught
  omega

theorem readLoop_small (hv : v ≤ LIMIT) (j : ℕ) (hj : j + n ≤ PRINT_BYTES) :
    readLoop (toLong v) n j = (List.range' j n).map fun j : ℕ => (v + 8 * j : ℤ) := by
  induction n generalizing j with
  | zero => rfl
  | succ n ih =>
    have hlimit : LIMIT = 0xFFFFFFDE := rfl
    have hcount : PRINT_BYTES = 32 := rfl
    have hgo : toULong (toLong (toLong v + j + 2)) < 0xFFFFFFFFFFFFFFFF := by
      unfold toULong toLong
      omega
    have haddress : toULong (toLong v + 8 * j) = v + 8 * j := by
      unfold toULong toLong
      omega
    have hrest := ih (j + 1) (by omega)
    rw [Int.natCast_add, Int.natCast_one] at hrest
    rw [readLoop, if_pos hgo, haddress, hrest, List.range'_succ, List.map_cons]

theorem readFrom_small (hv : v ≤ LIMIT) :
    readFrom (toLong v) = .ok ((List.range PRINT_BYTES).map fun j : ℕ => (v + 8 * j : ℤ)) := by
  have hlimit : LIMIT = 0xFFFFFFDE := rfl
  have hcaught : ¬ Caught v := by
    unfold Caught
    omega
  rw [readFrom, if_neg ((tooBig_iff v).not.mpr hcaught), List.range_eq_range']
  exact congrArg Except.ok (readLoop_small hv 0 (le_refl _))

theorem readFrom_caught (hv : Caught v) : readFrom (toLong v) = .error TOO_BIG :=
  if_pos ((tooBig_iff v).mpr hv)

theorem readFrom_missed (hv : ¬ Caught v) : ∃ addresses, readFrom (toLong v) = .ok addresses :=
  ⟨_, if_neg ((tooBig_iff v).not.mpr hv)⟩

/-! ## The text in front of the digits -/

theorem readDigits_spec (hbuf : 0 ∈ buf) :
    readDigits buf = if content buf ≠ [] ∧ (content buf).all hexDigit then
      some (readFrom (toLong (value (content buf)))) else some (.error NOT_HEXADECIMAL) := by
  cases buf with
  | nil => simp at hbuf
  | cons c buf =>
    rw [readDigits]
    by_cases hzero : c = 0
    · rw [if_pos hzero, hzero, content_zero, if_neg fun h => h.1 rfl]
    · have hspec := accumulate_spec 0 hbuf
      have hne : content (c :: buf) ≠ [] := by
        rw [content_cons hzero]
        exact List.cons_ne_nil _ _
      rw [if_neg hzero]
      have hstart : toLong (0 : ℕ) = 0 := rfl
      rw [hstart] at hspec
      rw [hspec]
      by_cases hall : (content (c :: buf)).all hexDigit = true
      · rw [if_pos hall, if_pos ⟨hne, hall⟩, Option.map_some, Except.bind, value]
      · rw [if_neg hall, if_neg fun h => hall h.2, Option.map_some, Except.bind]

theorem dropWhile_spaces (n : ℕ) (l : List UInt8) (hc : c ≠ SPACE) :
    (List.replicate n SPACE ++ c :: l).dropWhile (· = SPACE) = c :: l := by
  rw [List.dropWhile_append_of_pos (by simp), List.dropWhile_cons_of_neg (by simpa using hc)]

/-- A text has at most one list of digits. -/
theorem IsNumber.unique {digits' : List UInt8} (h : IsNumber text digits)
    (h' : IsNumber text digits') : digits = digits' := by
  obtain ⟨-, -, n, htext⟩ := h
  obtain ⟨-, -, n', htext'⟩ := h'
  have hdrop := dropWhile_spaces n (120 :: digits) (c := 48) (by decide)
  have hdrop' := dropWhile_spaces n' (120 :: digits') (c := 48) (by decide)
  rw [← htext, htext', hdrop'] at hdrop
  simpa using hdrop.symm

theorem content_append (htext : 0 ∉ text) (rest : List UInt8) :
    content (text ++ 0 :: rest) = text := by
  induction text with
  | nil => exact content_zero
  | cons c text ih =>
    rw [List.mem_cons, not_or] at htext
    rw [List.cons_append, content_cons (Ne.symm htext.1), ih htext.2]

/-- A number is handed to the test of the limit. -/
theorem printMem_number (hbuf : 0 ∈ buf) (h : IsNumber (content buf) digits) :
    printMem buf = some (readFrom (toLong (value digits))) := by
  obtain ⟨hne, hhex, n, htext⟩ := h
  have hbytes : content buf ++ 0 :: _ = buf := Split.takeWhile_append_cons hbuf
  rw [htext, List.append_assoc, List.cons_append, List.cons_append] at hbytes
  have hclean : 0 ∉ digits := fun h0 => absurd (hhex 0 h0) (by decide)
  rw [printMem, ← hbytes, dropWhile_spaces _ _ (by decide), readZero, if_neg (by decide),
    if_pos rfl, readX, if_pos rfl, readDigits_spec (by simp), content_append hclean, if_pos]
  exact ⟨hne, List.all_eq_true.mpr hhex⟩

theorem content_spaces (n : ℕ) (l : List UInt8) :
    content (List.replicate n SPACE ++ l) = List.replicate n SPACE ++ content l :=
  List.takeWhile_append_of_pos fun c hc => by
    rw [List.eq_of_mem_replicate hc]
    decide

/-- Any other text is refused. -/
theorem printMem_refused (hbuf : 0 ∈ buf) (h : ¬ ∃ digits, IsNumber (content buf) digits) :
    ∃ message, printMem buf = some (.error message) := by
  obtain ⟨n, core, rfl, hcore⟩ : ∃ n core, buf = List.replicate n SPACE ++ core ∧
      core = buf.dropWhile (· = SPACE) := by
    refine ⟨(buf.takeWhile (· = SPACE)).length, _, ?_, rfl⟩
    rw [← List.eq_replicate_length.mpr fun c hc => by simpa using List.mem_takeWhile_imp hc,
      List.takeWhile_append_dropWhile]
  have hzero : 0 ∈ core := by
    rcases List.mem_append.mp hbuf with hspace | hcore
    · exact absurd (List.eq_of_mem_replicate hspace) (by decide)
    · exact hcore
  rw [printMem, ← hcore]
  rw [content_spaces] at h
  -- The text is followed up to the byte where it differs from a number.
  match core with
  | [] => simp at hzero
  | c :: buf =>
    rw [readZero]
    by_cases hend : c = 0
    · exact ⟨_, if_pos hend⟩
    rw [if_neg hend]
    by_cases hc : c = 48
    swap
    · exact ⟨_, if_neg hc⟩
    rw [if_pos hc]
    have hzero' : 0 ∈ buf := (List.mem_cons.mp hzero).resolve_left (Ne.symm hend)
    match buf with
    | [] => simp at hzero'
    | d :: buf =>
      rw [readX]
      by_cases hd : d = 120
      swap
      · exact ⟨_, if_neg hd⟩
      have hzero'' : 0 ∈ buf := (List.mem_cons.mp hzero').resolve_left (by rw [hd]; decide)
      rw [if_pos hd, readDigits_spec hzero'']
      refine ⟨_, if_neg fun hhex => h ⟨content buf, hhex.1, List.all_eq_true.mp hhex.2, n, ?_⟩⟩
      rw [hc, hd, content_cons (by decide), content_cons (by decide)]

/-! ## The condition -/

/-- A number above the limit that the test misses is not refused. -/
theorem not_exact (hbuf : 0 ∈ buf) (hnumber : IsNumber (content buf) digits)
    (hbig : ¬ value digits ≤ LIMIT) (hmissed : ¬ Caught (value digits)) : ¬ Exact buf := by
  rintro ⟨-, hrefuses⟩
  obtain ⟨addresses, hread⟩ := readFrom_missed hmissed
  obtain ⟨message, hrefused⟩ := hrefuses fun ⟨digits', hnumber', hsmall⟩ =>
    hbig (hnumber.unique hnumber' ▸ hsmall)
  rw [printMem_number hbuf hnumber, hread] at hrefused
  exact absurd (Option.some.inj hrefused) (by simp)

/-- `printMem` does what it says exactly for texts that are no number, for numbers up to the limit,
and for those above it that the wrapped test catches. -/
theorem printMem_exact_iff (buf : List UInt8) (hbuf : 0 ∈ buf) :
    Exact buf ↔ ∀ digits, IsNumber (content buf) digits →
      value digits ≤ LIMIT ∨ Caught (value digits) := by
  constructor
  · intro hexact digits hnumber
    by_contra hnot
    obtain ⟨hbig, hmissed⟩ := not_or.mp hnot
    exact not_exact hbuf hnumber hbig hmissed hexact
  · intro h
    refine ⟨fun digits hnumber hsmall => ?_, fun hnot => ?_⟩
    · rw [printMem_number hbuf hnumber, readFrom_small hsmall]
    · by_cases hnumber : ∃ digits, IsNumber (content buf) digits
      · obtain ⟨digits, hnumber⟩ := hnumber
        have hcaught := (h digits hnumber).resolve_left fun hsmall => hnot ⟨digits, hnumber, hsmall⟩
        exact ⟨_, by rw [printMem_number hbuf hnumber, readFrom_caught hcaught]⟩
      · exact printMem_refused hbuf hnumber

/-- The argument ` 0x1f`. -/
theorem printMem_exact_iff_small : Exact [32, 48, 120, 49, 102, 0] := by
  refine (printMem_exact_iff [32, 48, 120, 49, 102, 0] (by decide)).mpr fun digits h => ?_
  have hdigits : IsNumber (content [32, 48, 120, 49, 102, 0]) [49, 102] :=
    ⟨by decide, List.all_eq_true.mp (by decide), 1, by decide⟩
  rw [h.unique hdigits]
  exact Or.inl (by decide)

/-- The argument `0x10000000000000000` is read from at the address 0. -/
theorem printMem_wraps : ¬ ∀ buf : List UInt8, 0 ∈ buf → Exact buf := by
  intro h
  set buf : List UInt8 := [48, 120] ++ (49 :: List.replicate 16 48) ++ [0] with hbuf
  have hnumber : IsNumber (content buf) (49 :: List.replicate 16 48) :=
    ⟨by decide, List.all_eq_true.mp (by decide), 0, by decide⟩
  exact not_exact (by decide) hnumber (by decide) (by unfold Caught; decide) (h buf (by decide))

end TronKernel.Shell.PrintMem
