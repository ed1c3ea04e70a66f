import TronKernel.Lib.Split
import TronKernel.Shell.Filters

/-!
# Splitting a line at the first bar

`pipedBuffer` copies what stands before the first `'|'` and what stands behind it to two blocks. Its
`strncpy` puts a terminator behind what it copied, so it writes one byte more than it was told to
copy when it stops at the count, and none more when it stops at the terminator of the source. The
first is what happens on the left, the second what happens on the right, and both fit.

A line is the list of the bytes from its address on. A read behind them is `none`.
-/

namespace TronKernel.Shell.SplitLine

open Filters (Holds)

/-- A block by offsets, with the offsets of the stores so far. -/
structure Block where
  size : ℤ
  bytes : ℤ → UInt8
  written : List ℤ

/-- A new block has some old content. -/
def malloc (fresh : ℤ → UInt8) (size : ℤ) : Block := ⟨size, fresh, []⟩

/-- `block[o] = c`. -/
def Block.store (b : Block) (o : ℤ) (c : UInt8) : Block :=
  { b with bytes := Function.update b.bytes o c, written := b.written ++ [o] }

def strlen : List UInt8 → Option ℤ
  | [] => none
  | c :: str => if c ≠ 0 then (strlen str).map (· + 1) else some 0

/-- `strchr`, or `NULL`. -/
def strchr : List UInt8 → UInt8 → Option (List UInt8)
  | [], _ => none
  | d :: str, c => if d ≠ 0 then if d = c then some (d :: str) else strchr str c else none

/-- `strncpy`, from `aux` on. -/
def strncpy : Block → ℤ → List UInt8 → ℤ → Option Block
  | _, _, [], _ => none
  | dest, aux, c :: src, n =>
    if c ≠ 0 ∧ n ≠ 0 then strncpy (dest.store aux c) (aux + 1) src (n - 1)
    else some (dest.store aux 0)

/-- The search for the bar, from `i` on. -/
def findDelimiter : List UInt8 → ℤ → ℤ → ℤ
  | [], _, _ => -1
  | c :: buf, i, totalLength =>
    if i < totalLength then if c = PIPE then i else findDelimiter buf (i + 1) totalLength else -1

/-- The first half of `pipedBuffer`, where both allocations succeed: `left` and `right`. -/
def splitLine (fresh fresh' : ℤ → UInt8) (buf : List UInt8) : Option (Block × Block) := do
  let _ ← strchr buf PIPE
  let totalLength ← strlen buf
  let delimiterPos := findDelimiter buf 0 totalLength
  if delimiterPos = -1 then none
  else
    let left ← strncpy (malloc fresh (delimiterPos + 1)) 0 buf delimiterPos
    let left := left.store delimiterPos 0
    let right ← strncpy (malloc fresh' (totalLength - delimiterPos)) 0
      (buf.drop (delimiterPos + 1).toNat) (totalLength - delimiterPos)
    let right := right.store (totalLength - delimiterPos - 1) 0
    return (left, right)

/-! ## What the functions do -/

variable {l rest text : List UInt8} {b dest : Block} {c d : UInt8} {o aux i n : ℤ}

theorem strlen_append (hl : 0 ∉ l) : strlen (l ++ 0 :: rest) = some (l.length : ℤ) := by
  induction l with
  | nil => rfl
  | cons c l ih =>
    rw [List.mem_cons, not_or] at hl
    rw [List.cons_append, strlen, if_pos (Ne.symm hl.1), ih hl.2]
    rfl

theorem strchr_append (hl : 0 ∉ l) (hc : c ≠ 0) (hfirst : c ∉ l) :
    strchr (l ++ c :: rest) c = some (c :: rest) := by
  induction l with
  | nil => rw [List.nil_append, strchr, if_pos hc, if_pos rfl]
  | cons d l ih =>
    rw [List.mem_cons, not_or] at hl hfirst
    rw [List.cons_append, strchr, if_pos (Ne.symm hl.1), if_neg (Ne.symm hfirst.1)]
    exact ih hl.2 hfirst.2

theorem findDelimiter_append (hl : PIPE ∉ l) (hlt : i + l.length < n) :
    findDelimiter (l ++ PIPE :: rest) i n = i + l.length := by
  induction l generalizing i with
  | nil =>
    simp only [List.length_nil, Int.natCast_zero, Int.add_zero] at hlt ⊢
    rw [List.nil_append, findDelimiter, if_pos hlt, if_pos rfl]
  | cons c l ih =>
    rw [List.mem_cons, not_or] at hl
    rw [List.length_cons, Int.natCast_add] at hlt ⊢
    rw [List.cons_append, findDelimiter, if_pos (by omega), if_neg (Ne.symm hl.1),
      ih hl.2 (by omega)]
    omega

/-- The stores of a text, from an offset on. -/
def Block.put : Block → ℤ → List UInt8 → Block
  | b, _, [] => b
  | b, o, c :: text => (b.store o c).put (o + 1) text

/-- `strncpy` copies a text in front of the terminator, or as much as it was told to, and puts a
terminator behind it. -/
theorem strncpy_append (hl : 0 ∉ l) (hn : l.length ≤ n) (hstop : c = 0 ∨ n = l.length) :
    strncpy dest aux (l ++ c :: rest) n = some (dest.put aux (l ++ [0])) := by
  induction l generalizing dest aux n with
  | nil =>
    have hend : ¬ (c ≠ 0 ∧ n ≠ 0) := by
      rintro ⟨hc, hne⟩
      exact hstop.elim hc hne
    rw [List.nil_append, strncpy, if_neg hend]
    rfl
  | cons d l ih =>
    rw [List.mem_cons, not_or] at hl
    rw [List.length_cons, Int.natCast_add] at hn hstop
    rw [List.cons_append, strncpy, if_pos ⟨Ne.symm hl.1, by omega⟩,
      ih hl.2 (by omega) (hstop.imp_right fun h => by omega)]
    rfl

/-- All stores so far were inside. -/
def Block.Inside (b : Block) : Prop := ∀ o ∈ b.written, 0 ≤ o ∧ o < b.size

/-- The block has the text as a string. -/
def Block.IsString (b : Block) (text : List UInt8) : Prop :=
  Holds b.bytes text ∧ b.bytes text.length = 0

theorem size_put (b : Block) (o : ℤ) (text : List UInt8) : (b.put o text).size = b.size := by
  induction text generalizing b o with
  | nil => rfl
  | cons c text ih => exact ih _ _

theorem put_frame (b : Block) {k : ℤ} (text : List UInt8) (hk : k < o) :
    (b.put o text).bytes k = b.bytes k := by
  induction text generalizing b o with
  | nil => rfl
  | cons c text ih =>
    rw [Block.put, ih _ (by omega)]
    exact Function.update_of_ne (by omega) _ _

theorem put_get (b : Block) (o : ℤ) (text : List UInt8) {j : ℕ} (hj : j < text.length) :
    (b.put o text).bytes (o + j) = text[j] := by
  induction text generalizing b o j with
  | nil => simp at hj
  | cons c text ih =>
    cases j with
    | zero =>
      rw [Block.put, put_frame _ _ (by omega)]
      simp [Block.store]
    | succ j =>
      have hstep : o + (j + 1 : ℕ) = o + 1 + j := by omega
      rw [Block.put, hstep, ih]
      rfl

theorem mem_written_put (ho : i ∈ (b.put o text).written) :
    i ∈ b.written ∨ o ≤ i ∧ i < o + text.length := by
  induction text generalizing b o with
  | nil => exact Or.inl ho
  | cons c text ih =>
    rw [List.length_cons, Int.natCast_add]
    rcases ih ho with ho | ho
    · rcases List.mem_append.mp ho with ho | ho
      · exact Or.inl ho
      · right
        rw [List.mem_singleton.mp ho]
        omega
    · right
      omega

/-- A text with two terminators, one on the other: what `strncpy` and the store behind it leave in a
block with room for it. -/
theorem put_string (fresh : ℤ → UInt8) (text : List UInt8) (hn : n = text.length + 1)
    (hi : i = text.length) :
    let b := ((malloc fresh n).put 0 (text ++ [0])).store i 0
    b.size = n ∧ b.Inside ∧ b.IsString text := by
  subst hn hi
  refine ⟨size_put _ _ _, fun o ho => ?_, fun j hj => ?_, Function.update_self _ _ _⟩
  · have hsize : (((malloc fresh (text.length + 1)).put 0 (text ++ [0])).store text.length 0).size =
        text.length + 1 := size_put _ _ _
    rw [hsize]
    rcases List.mem_append.mp ho with ho | ho
    · rcases mem_written_put ho with ho | ho
      · exact absurd ho List.not_mem_nil
      · simpa using ho
    · rw [List.mem_singleton.mp ho]
      omega
  · have hne : (j : ℤ) ≠ text.length := by omega
    have hget := put_get (malloc fresh (text.length + 1)) 0 (text ++ [0]) (j := j)
      (by rw [List.length_append]; omega)
    rw [Int.zero_add, List.getElem_append_left hj] at hget
    exact (Function.update_of_ne hne _ _).trans hget

/-! ## The split -/

/-- `pipedBuffer` splits a line at its first bar, and each block has room for its text. -/
theorem splitLine_exact (fresh fresh' : ℤ → UInt8) (buf line : List UInt8)
    (hline : line = buf.takeWhile (· ≠ 0)) (hbuf : 0 ∈ buf) (hbar : PIPE ∈ line) :
    ∃ left right, splitLine fresh fresh' buf = some (left, right) ∧
      leftOf line ++ PIPE :: rightOf line = line ∧ PIPE ∉ leftOf line ∧
      (left.size = (leftOf line).length + 1 ∧ left.Inside ∧ left.IsString (leftOf line)) ∧
      right.size = line.length - (leftOf line).length ∧ right.Inside ∧
        right.IsString (rightOf line) := by
  have hwhole : leftOf line ++ PIPE :: rightOf line = line := Split.takeWhile_append_cons hbar
  have hfirst : PIPE ∉ leftOf line := Split.notMem_takeWhile
  set before := leftOf line
  set behind := rightOf line
  have hclean : 0 ∉ line := hline ▸ Split.notMem_takeWhile
  have hbefore : 0 ∉ before := fun h => hclean (hwhole ▸ List.mem_append_left _ h)
  have hbehind : 0 ∉ behind := fun h =>
    hclean (hwhole ▸ List.mem_append_right _ (List.mem_cons_of_mem _ h))
  obtain ⟨rest, hbytes⟩ : ∃ rest, buf = line ++ 0 :: rest :=
    ⟨_, hline ▸ (Split.takeWhile_append_cons hbuf).symm⟩
  have hbytes' : buf = before ++ PIPE :: (behind ++ 0 :: rest) := by
    rw [hbytes, ← hwhole, List.append_assoc, List.cons_append]
  have hlength : (line.length : ℤ) = before.length + behind.length + 1 := by
    rw [← hwhole, List.length_append, List.length_cons]
    omega
  have hlen : strlen buf = some (line.length : ℤ) := hbytes ▸ strlen_append hclean
  have hchr : strchr buf PIPE = some (PIPE :: (behind ++ 0 :: rest)) :=
    hbytes' ▸ strchr_append hbefore (by decide) hfirst
  have hfind : findDelimiter buf 0 line.length = before.length := by
    rw [hbytes', findDelimiter_append hfirst (by omega), Int.zero_add]
  have hleft : strncpy (malloc fresh (before.length + 1)) 0 buf before.length =
      some ((malloc fresh (before.length + 1)).put 0 (before ++ [0])) :=
    hbytes' ▸ strncpy_append hbefore (Int.le_refl _) (Or.inr rfl)
  have hdrop : buf.drop ((before.length : ℤ) + 1).toNat = behind ++ 0 :: rest := by
    have hcount : ((before.length : ℤ) + 1).toNat = before.length + 1 := by omega
    rw [hcount, hbytes', List.append_cons]
    exact List.drop_left' (by simp)
  have hright : strncpy (malloc fresh' (line.length - before.length)) 0 (behind ++ 0 :: rest)
      (line.length - before.length) =
      some ((malloc fresh' (line.length - before.length)).put 0 (behind ++ [0])) :=
    strncpy_append hbehind (by omega) (Or.inl rfl)
  have hroom := put_string fresh before (n := before.length + 1) (i := before.length) rfl rfl
  have hroom' := put_string fresh' behind (n := line.length - before.length)
    (i := line.length - before.length - 1) (by omega) (by omega)
  refine ⟨_, _, ?_, hwhole, hfirst, hroom, hroom'⟩
  rw [splitLine, hchr, hlen, Option.bind_eq_bind, Option.bind_some, Option.bind_eq_bind,
    Option.bind_some]
  simp only [hfind, hdrop, hleft, hright]
  rw [if_neg (by omega)]
  rfl

/-- The line `a||b`. -/
theorem splitLine_exact_bars : ∃ left right,
    splitLine (fun _ => 7) (fun _ => 7) [97, 124, 124, 98, 0] = some (left, right) ∧
      ([97] : List UInt8) ++ PIPE :: [124, 98] = [97, 124, 124, 98] ∧
      PIPE ∉ ([97] : List UInt8) ∧
      (left.size = 2 ∧ left.Inside ∧ left.IsString [97]) ∧
      right.size = 3 ∧ right.Inside ∧ right.IsString [124, 98] :=
  splitLine_exact (fun _ => 7) (fun _ => 7) [97, 124, 124, 98, 0] [97, 124, 124, 98] (by decide)
    (by decide) (by decide)

end TronKernel.Shell.SplitLine
