import TronKernel.Bmfs.Utility
import TronKernel.Lib.FirstFit
import Mathlib.Data.List.Range

/-!
# The directory of a BMFS disk

The records in front of the first one with an empty name are in use, and of these the ones that
begin with 0x01 were deleted. The loops of `findfile`, `list` and `create` walk over the used
records (`used_induction`). `Sound` is what the commands keep: each used record has blocks of the
data area, each file has a name of its own, and no two files share a block. `Sound.set` keeps it
when one record changes.
-/

namespace TronKernel.Bmfs

open Mem FirstFit

variable {dir dir' : Mem} {filename name : Name} {numBlocks i j k : ℕ}

/-! ## The records in use -/

/-- How many records there are in front of the one that ends the directory. -/
def numUsed (dir : Mem) : ℕ := (List.range 64).findIdx fun i => dir (64 * i) = 0x00

theorem numUsed_le (dir : Mem) : numUsed dir ≤ 64 := by
  have hle : numUsed dir ≤ (List.range 64).length := List.findIdx_le_length
  rwa [List.length_range] at hle

theorem ne_zero_of_used (h : i < numUsed dir) : dir (64 * i) ≠ 0x00 := by
  have hnot := List.not_of_lt_findIdx h
  simpa using hnot

theorem mark_of_used (h : numUsed dir < 64) : dir (64 * numUsed dir) = 0x00 := by
  have hlt : numUsed dir < (List.range 64).length := by rwa [List.length_range]
  have hmark : decide (dir (64 * (List.range 64)[numUsed dir]) = 0x00) = true :=
    List.findIdx_getElem (w := hlt)
  rw [List.getElem_range] at hmark
  exact of_decide_eq_true hmark

theorem numUsed_eq (hk : k ≤ 64) (hused : ∀ i < k, dir (64 * i) ≠ 0x00)
    (hmark : k < 64 → dir (64 * k) = 0x00) : numUsed dir = k := by
  have hle := numUsed_le dir
  rcases Nat.lt_trichotomy (numUsed dir) k with hlt | heq | hgt
  · exact absurd (mark_of_used (by omega)) (hused _ hlt)
  · exact heq
  · exact absurd (hmark (by omega)) (ne_zero_of_used hgt)

/-- The induction of a loop that counts the records up and leaves at the end of the directory. -/
theorem used_induction (dir : Mem) {P : ℕ → ℕ → Prop} (hend : numUsed dir = 64 → P 0 64)
    (hmark : ∀ n, numUsed dir < 64 → P (n + 1) (numUsed dir))
    (hstep : ∀ n tint, tint < numUsed dir → P n (tint + 1) → P (n + 1) tint) : P 64 0 := by
  suffices h : ∀ n tint, n + tint = 64 → tint ≤ numUsed dir → P n tint from
    h 64 0 rfl (Nat.zero_le _)
  intro n
  induction n with
  | zero =>
    intro tint hsum hle
    obtain rfl : tint = 64 := by omega
    exact hend (Nat.le_antisymm (numUsed_le dir) hle)
  | succ n ih =>
    intro tint hsum hle
    rcases Nat.lt_or_eq_of_le hle with hlt | rfl
    · exact hstep n tint hlt (ih (tint + 1) (by omega) hlt)
    · exact hmark n (by omega)

/-! ## What a record holds -/

theorem sameString_iff {m : Mem} {a : ℕ} {bs : List UInt8} :
    sameString m a bs = true ↔ Holds m a (bs ++ [0]) := by
  induction bs generalizing a with
  | nil => simp [sameString]
  | cons b bs ih => simp [sameString, ih]

theorem entryAt_congr (h : ∀ x, 64 * i ≤ x → x < 64 * i + 64 → dir' x = dir x) :
    entryAt dir' i = entryAt dir i := by
  have hword : ∀ o, o + 8 ≤ 64 → load64 dir' (64 * i + o) = load64 dir (64 * i + o) :=
    fun o ho => loadLE_congr fun x hle hlt => h x (by omega) (by omega)
  have hname : ((List.range 32).map fun o => dir' (64 * i + o)) =
      (List.range 32).map fun o => dir (64 * i + o) :=
    List.map_congr_left fun o ho => h _ (by omega) (by have := List.mem_range.mp ho; omega)
  rw [entryAt, entryAt, hword 32 (by omega), hword 40 (by omega), hword 48 (by omega),
    hword 56 (by omega), hname]

/-- The blocks of a record. -/
def BMFSEntry.span (e : BMFSEntry) : Span := ⟨e.StartingBlock, e.ReservedBlocks⟩

theorem start_of_span {e e' : BMFSEntry} (h : e.span = e'.span) :
    e.StartingBlock = e'.StartingBlock := congrArg Span.start h

theorem reserved_of_span {e e' : BMFSEntry} (h : e.span = e'.span) :
    e.ReservedBlocks = e'.ReservedBlocks := congrArg Span.length h

theorem span_congr (h : ∀ x, 64 * i + 32 ≤ x → x < 64 * i + 48 → dir' x = dir x) :
    (entryAt dir' i).span = (entryAt dir i).span := by
  have hword : ∀ o, 32 ≤ o → o ≤ 40 → load64 dir' (64 * i + o) = load64 dir (64 * i + o) :=
    fun o hlow hhigh => loadLE_congr fun x hle hlt => h x (by omega) (by omega)
  simp only [BMFSEntry.span, entryAt, hword 32 le_rfl (by omega), hword 40 (by omega) le_rfl]

/-- Blocks between the first and the last one of the disk. -/
structure Placed (numBlocks : ℕ) (b : Span) : Prop where
  low : 1 ≤ b.start
  high : b.stop ≤ numBlocks - 1
  nonempty : 0 < b.length

/-- The record `i` is the one of a file. -/
structure IsFile (dir : Mem) (i : ℕ) (name : Name) : Prop where
  string : CString dir (64 * i) name.bytes
  short : name.bytes.length < 32
  used : dir (64 * i) ≠ 0x00
  kept : dir (64 * i) ≠ 0x01
  fits : (entryAt dir i).FileSize ≤ (entryAt dir i).ReservedBlocks * 2097152
  size_lt : (entryAt dir i).FileSize < 2 ^ 31

theorem IsFile.unique (h : IsFile dir i filename) (h' : IsFile dir i name) : filename = name := by
  obtain ⟨bytes, _⟩ := filename
  obtain ⟨bytes', _⟩ := name
  obtain rfl : bytes = bytes' := h.string.unique h'.string
  rfl

theorem IsFile.congr (h : IsFile dir i name)
    (hsame : ∀ x, 64 * i ≤ x → x < 64 * i + 64 → dir' x = dir x) : IsFile dir' i name := by
  have hentry := entryAt_congr hsame
  have hhead := hsame (64 * i) le_rfl (by omega)
  have hshort := h.short
  refine ⟨⟨h.string.1.congr fun x hle hlt => hsame x hle ?_, h.string.2⟩, hshort, ?_, ?_, ?_, ?_⟩
  · rw [List.length_append, List.length_singleton] at hlt
    omega
  · rw [hhead]
    exact h.used
  · rw [hhead]
    exact h.kept
  · rw [hentry]
    exact h.fits
  · rw [hentry]
    exact h.size_lt

/-- What the commands keep of a directory. -/
structure Sound (numBlocks : ℕ) (dir : Mem) : Prop where
  placed : ∀ i < numUsed dir, Placed numBlocks (entryAt dir i).span
  file : ∀ i < numUsed dir, dir (64 * i) = 0x01 ∨ ∃ name, IsFile dir i name
  apart : ∀ i < numUsed dir, ∀ j < numUsed dir, dir (64 * i) ≠ 0x01 → dir (64 * j) ≠ 0x01 →
    i ≠ j → Apart (entryAt dir i).span (entryAt dir j).span
  distinct : ∀ i < numUsed dir, ∀ j < numUsed dir, ∀ name, IsFile dir i name →
    IsFile dir j name → i = j

/-- `findfile` finds the used record of the file. -/
theorem findfile_eq_some_iff (h : Sound numBlocks dir) {r : BMFSEntry × ℕ} :
    findfile dir name = some r ↔
      r.2 < numUsed dir ∧ IsFile dir r.2 name ∧ r.1 = entryAt dir r.2 := by
  suffices hloop : findFrom dir name 64 0 = some r ↔
      0 ≤ r.2 ∧ r.2 < numUsed dir ∧ IsFile dir r.2 name ∧ r.1 = entryAt dir r.2 by
    rw [findfile, hloop]
    exact and_iff_right (Nat.zero_le _)
  refine used_induction dir (P := fun n tint => findFrom dir name n tint = some r ↔
    tint ≤ r.2 ∧ r.2 < numUsed dir ∧ IsFile dir r.2 name ∧ r.1 = entryAt dir r.2) ?_ ?_ ?_
  · intro hfull
    rw [findFrom]
    constructor
    · exact fun heq => absurd heq (by simp)
    · rintro ⟨hle, hlt, -⟩
      omega
  · intro n hlt
    rw [findFrom, if_pos (mark_of_used hlt)]
    constructor
    · exact fun heq => absurd heq (by simp)
    · rintro ⟨hle, hlt, -⟩
      omega
  · intro n tint hlt ih
    rw [findFrom, if_neg (ne_zero_of_used hlt)]
    -- a record that is not the one of the file is passed over
    have hpass : ¬ IsFile dir tint name → (tint ≤ r.2 ∧ r.2 < numUsed dir ∧ IsFile dir r.2 name ∧
        r.1 = entryAt dir r.2 ↔ tint + 1 ≤ r.2 ∧ r.2 < numUsed dir ∧ IsFile dir r.2 name ∧
        r.1 = entryAt dir r.2) := by
      intro hnot
      constructor
      · rintro ⟨hle, hr⟩
        refine ⟨Nat.lt_of_le_of_ne hle ?_, hr⟩
        rintro heq
        exact hnot (heq ▸ hr.2.1)
      · rintro ⟨hle, hr⟩
        exact ⟨by omega, hr⟩
    rcases h.file tint hlt with hdeleted | ⟨other, hother⟩
    · rw [if_pos hdeleted, ih, hpass fun hfile => hfile.kept hdeleted]
    · rw [if_neg hother.kept]
      by_cases hname : other = name
      · rw [hname] at hother
        rw [if_pos (sameString_iff.mpr hother.string.1)]
        constructor
        · intro heq
          obtain rfl := Option.some.inj heq
          exact ⟨le_rfl, hlt, hother, rfl⟩
        · rintro ⟨-, hr, hfile, hentry⟩
          have hsame := h.distinct tint hlt r.2 hr name hother hfile
          rw [hsame, ← hentry]
      · have hnot : ¬ IsFile dir tint name := fun hfile => hname (hother.unique hfile)
        rw [if_neg, ih, hpass hnot]
        intro hsame
        apply hname
        obtain ⟨bytes, _⟩ := other
        obtain ⟨bytes', hbytes'⟩ := name
        obtain rfl : bytes = bytes' :=
          hother.string.unique ⟨sameString_iff.mp hsame, hbytes'⟩
        rfl

/-- The line of `list` for a record. -/
def BMFSEntry.line (e : BMFSEntry) : List UInt8 × ℕ × ℕ :=
  (e.FileName.takeWhile (· ≠ 0), e.FileSize, e.ReservedBlocks * 2 % 2 ^ 64)

/-- `list` has a line for each used record that was not deleted. -/
theorem listFrom_eq (dir : Mem) : listFrom dir 64 0 =
    ((List.range (numUsed dir)).filter fun i => dir (64 * i) ≠ 0x01).map
      fun i => (entryAt dir i).line := by
  rw [List.range_eq_range']
  refine used_induction dir (P := fun n tint => listFrom dir n tint =
    ((List.range' tint (numUsed dir - tint)).filter fun i => dir (64 * i) ≠ 0x01).map
      fun i => (entryAt dir i).line) ?_ ?_ ?_
  · intro hfull
    rw [hfull]
    rfl
  · intro n hlt
    rw [listFrom, if_pos (mark_of_used hlt), Nat.sub_self]
    rfl
  · intro n tint hlt ih
    have hcount : numUsed dir - tint = numUsed dir - (tint + 1) + 1 := by omega
    rw [listFrom, if_neg (ne_zero_of_used hlt), ih, hcount, List.range'_succ]
    by_cases hdeleted : dir (64 * tint) = 0x01
    · rw [if_pos hdeleted, List.filter_cons_of_neg (by simpa using hdeleted)]
    · rw [if_neg hdeleted, List.filter_cons_of_pos (by simpa using hdeleted)]
      rfl

/-- What `create` counts: the used records, unless there is no end, and the place of a new one. -/
theorem countFrom_eq (dir : Mem) : ∃ r,
    countFrom dir 64 0 none = (if numUsed dir < 64 then numUsed dir else 0, r) ∧
      (∀ i, r = some i → i < 64 ∧ i ≤ numUsed dir ∧ (i < numUsed dir → dir (64 * i) = 0x01)) ∧
      (r = none → numUsed dir = 64 ∧ ∀ i < numUsed dir, dir (64 * i) ≠ 0x01) := by
  suffices hloop : ∀ free, ∃ r,
      countFrom dir 64 0 free = (if numUsed dir < 64 then numUsed dir else 0, free.or r) ∧
        (∀ i, r = some i → i < 64 ∧ i ≤ numUsed dir ∧ (i < numUsed dir → dir (64 * i) = 0x01)) ∧
        (r = none → numUsed dir = 64 ∧ ∀ i, 0 ≤ i → i < numUsed dir → dir (64 * i) ≠ 0x01) by
    obtain ⟨r, hcount, hsome, hnone⟩ := hloop none
    exact ⟨r, hcount, hsome, fun hr => ⟨(hnone hr).1, fun i => (hnone hr).2 i (Nat.zero_le i)⟩⟩
  refine used_induction dir (P := fun n tint => ∀ free, ∃ r,
    countFrom dir n tint free = (if numUsed dir < 64 then numUsed dir else 0, free.or r) ∧
      (∀ i, r = some i → i < 64 ∧ i ≤ numUsed dir ∧ (i < numUsed dir → dir (64 * i) = 0x01)) ∧
      (r = none → numUsed dir = 64 ∧ ∀ i, tint ≤ i → i < numUsed dir → dir (64 * i) ≠ 0x01))
    ?_ ?_ ?_
  · intro hfull free
    refine ⟨none, ?_, fun i hi => absurd hi (by simp), fun _ => ⟨hfull, fun i hle hlt => ?_⟩⟩
    · rw [countFrom, if_neg (by omega), Option.or_none]
    · omega
  · intro n hlt free
    refine ⟨some (numUsed dir), ?_, ?_, fun hnone => absurd hnone (by simp)⟩
    · rw [countFrom, if_pos (mark_of_used hlt), if_pos hlt]
    · intro i hi
      obtain rfl := Option.some.inj hi
      exact ⟨hlt, le_rfl, fun hself => absurd hself (Nat.lt_irrefl _)⟩
  · intro n tint hlt ih free
    by_cases hdeleted : dir (64 * tint) = 0x01
    · obtain ⟨r, hcount, -, -⟩ := ih (free.or (some tint))
      have hle := numUsed_le dir
      refine ⟨some tint, ?_, ?_, fun hnone => absurd hnone (by simp)⟩
      · rw [countFrom, if_neg (ne_zero_of_used hlt), if_pos hdeleted, hcount, Option.or_assoc,
          Option.some_or]
      · intro i hi
        obtain rfl := Option.some.inj hi
        exact ⟨by omega, hlt.le, fun _ => hdeleted⟩
    · obtain ⟨r, hcount, hsome, hnone⟩ := ih free
      refine ⟨r, ?_, hsome, fun hr => ⟨(hnone hr).1, fun i hle hi => ?_⟩⟩
      · rw [countFrom, if_neg (ne_zero_of_used hlt), if_neg hdeleted, hcount]
      · rcases Nat.lt_or_eq_of_le hle with hlater | rfl
        · exact (hnone hr).2 i hlater hi
        · exact hdeleted

/-! ## One record changes -/

/-- Of the records in use only `i` differs, and it is in use afterwards. -/
structure Changes (dir dir' : Mem) (i : ℕ) : Prop where
  le : i ≤ numUsed dir
  lt : i < 64
  other : ∀ j < numUsed dir, j ≠ i → ∀ x, 64 * j ≤ x → x < 64 * j + 64 → dir' x = dir x
  used : dir' (64 * i) ≠ 0x00
  mark : max (numUsed dir) (i + 1) < 64 → dir' (64 * max (numUsed dir) (i + 1)) = 0x00

/-- A used record that is changed and stays in use. -/
theorem changes_of_used (hi : i < numUsed dir) (hused : dir' (64 * i) ≠ 0x00)
    (hsame : ∀ x < 4096, x < 64 * i ∨ 64 * i + 64 ≤ x → dir' x = dir x) : Changes dir dir' i := by
  have hle := numUsed_le dir
  refine ⟨hi.le, by omega, fun j hj hne x hlow hhigh => hsame x (by omega) (by omega), hused,
    fun hlt => ?_⟩
  rw [max_eq_left hi] at hlt ⊢
  rw [hsame _ (by omega) (by omega)]
  exact mark_of_used hlt

namespace Changes

theorem head (h : Changes dir dir' i) (hj : j < numUsed dir) (hne : j ≠ i) :
    dir' (64 * j) = dir (64 * j) := h.other j hj hne _ le_rfl (by omega)

theorem numUsed_eq (h : Changes dir dir' i) : numUsed dir' = max (numUsed dir) (i + 1) := by
  have hle := numUsed_le dir
  have hi := h.lt
  refine Bmfs.numUsed_eq (by omega) (fun j hj => ?_) h.mark
  by_cases hji : j = i
  · rw [hji]
    exact h.used
  · have hlt : j < numUsed dir := by
      have hi := h.le
      omega
    rw [h.head hlt hji]
    exact ne_zero_of_used hlt

theorem entryAt_eq (h : Changes dir dir' i) (hj : j < numUsed dir) (hne : j ≠ i) :
    entryAt dir' j = entryAt dir j := entryAt_congr (h.other j hj hne)

theorem isFile_iff (h : Changes dir dir' i) (hj : j < numUsed dir) (hne : j ≠ i) :
    IsFile dir' j name ↔ IsFile dir j name :=
  ⟨fun hfile => hfile.congr fun x hle hlt => (h.other j hj hne x hle hlt).symm,
    fun hfile => hfile.congr (h.other j hj hne)⟩

theorem cases_lt (h : Changes dir dir' i) (hj : j < numUsed dir') :
    j = i ∨ j < numUsed dir ∧ j ≠ i := by
  have hi := h.le
  rw [h.numUsed_eq] at hj
  omega

end Changes

/-- A directory stays sound when a record is marked as deleted or becomes the one of a file that has
a name and blocks of its own. -/
theorem Sound.set (h : Sound numBlocks dir) (hc : Changes dir dir' i)
    (hplaced : Placed numBlocks (entryAt dir' i).span)
    (hrecord : dir' (64 * i) = 0x01 ∨ ∃ name, IsFile dir' i name ∧ ∀ j < numUsed dir, j ≠ i →
      dir (64 * j) ≠ 0x01 → Apart (entryAt dir' i).span (entryAt dir j).span ∧
        ¬ IsFile dir j name) : Sound numBlocks dir' := by
  -- what the new record owes to another one of a file
  have hnew : ∀ j < numUsed dir, j ≠ i → dir' (64 * i) ≠ 0x01 → dir (64 * j) ≠ 0x01 →
      Apart (entryAt dir' i).span (entryAt dir j).span ∧
        ∀ name, IsFile dir' i name → ¬ IsFile dir j name := by
    intro j hj hne hkept hkept'
    rcases hrecord with hdeleted | ⟨name, hfile, hother⟩
    · exact absurd hdeleted hkept
    · obtain ⟨hapart, hname⟩ := hother j hj hne hkept'
      exact ⟨hapart, fun other hi => hfile.unique hi ▸ hname⟩
  constructor
  · intro j hj
    rcases hc.cases_lt hj with rfl | ⟨hj, hne⟩
    · exact hplaced
    · rw [hc.entryAt_eq hj hne]
      exact h.placed j hj
  · intro j hj
    rcases hc.cases_lt hj with rfl | ⟨hj, hne⟩
    · rcases hrecord with hdeleted | ⟨name, hfile, -⟩
      · exact Or.inl hdeleted
      · exact Or.inr ⟨name, hfile⟩
    · rw [hc.head hj hne]
      rcases h.file j hj with hdeleted | ⟨name, hfile⟩
      · exact Or.inl hdeleted
      · exact Or.inr ⟨name, (hc.isFile_iff hj hne).mpr hfile⟩
  · intro j hj k hk hkeptj hkeptk hjk
    rcases hc.cases_lt hj with rfl | ⟨hj, hnej⟩
    · rcases hc.cases_lt hk with rfl | ⟨hk, hnek⟩
      · exact absurd rfl hjk
      · rw [hc.head hk hnek] at hkeptk
        rw [hc.entryAt_eq hk hnek]
        exact (hnew k hk hnek hkeptj hkeptk).1
    · rw [hc.head hj hnej] at hkeptj
      rw [hc.entryAt_eq hj hnej]
      rcases hc.cases_lt hk with rfl | ⟨hk, hnek⟩
      · exact (hnew j hj hnej hkeptk hkeptj).1.symm
      · rw [hc.head hk hnek] at hkeptk
        rw [hc.entryAt_eq hk hnek]
        exact h.apart j hj k hk hkeptj hkeptk hjk
  · intro j hj k hk name hfilej hfilek
    rcases hc.cases_lt hj with rfl | ⟨hj, hnej⟩
    · rcases hc.cases_lt hk with rfl | ⟨hk, hnek⟩
      · rfl
      · have hfilek' := (hc.isFile_iff hk hnek).mp hfilek
        exact absurd hfilek' ((hnew k hk hnek hfilej.kept hfilek'.kept).2 name hfilej)
    · have hfilej' := (hc.isFile_iff hj hnej).mp hfilej
      rcases hc.cases_lt hk with rfl | ⟨hk, hnek⟩
      · exact absurd hfilej' ((hnew j hj hnej hfilek.kept hfilej'.kept).2 name hfilek)
      · exact h.distinct j hj k hk name hfilej' ((hc.isFile_iff hk hnek).mp hfilek)

end TronKernel.Bmfs
