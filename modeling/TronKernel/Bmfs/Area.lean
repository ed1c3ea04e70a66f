import TronKernel.Bmfs.Directory
import Mathlib.Data.List.Sort

/-!
# Where `create` places a file

`create` sorts the used records, with the deleted ones behind the files, and walks over the gaps
between the files (`searchArea_eq`): first fit. Behind the files it goes on with the ends of the
deleted records, which may lie anywhere. So a place it finds is free as long as it does not get
there, and it finds one whenever there is a gap (`searchArea_free`, `searchArea_lowest`).
-/

namespace TronKernel.Bmfs

open Mem FirstFit

variable {dir : Mem} {qsort : Qsort} {numBlocks blocksRequested prevFileEnd b : ℕ}
  {l : List BMFSEntry} {e : BMFSEntry}

/-- The record was deleted. -/
def BMFSEntry.Deleted (e : BMFSEntry) : Prop := e.FileName.headD 0 = 0x01

instance (e : BMFSEntry) : Decidable e.Deleted := inferInstanceAs (Decidable (_ = _))

/-- The order that `StartingBlockCmp` sorts by. -/
def Before (a b : BMFSEntry) : Prop :=
  b.Deleted ∨ ¬ a.Deleted ∧ a.StartingBlock ≤ b.StartingBlock

/-- The used records of a directory. -/
def entries (dir : Mem) : List BMFSEntry := (List.range (numUsed dir)).map (entryAt dir)

/-- The blocks of the files among the records. -/
def fileSpans (l : List BMFSEntry) : List Span :=
  (l.filter fun e => ¬ e.Deleted).map BMFSEntry.span

/-! ## The sorted copy -/

theorem Before.trans {a b c : BMFSEntry} (hab : Before a b) (hbc : Before b c) : Before a c := by
  rcases hbc with hc | ⟨hb, hbc⟩
  · exact Or.inl hc
  · rcases hab with hb' | ⟨ha, hab⟩
    · exact absurd hb' hb
    · exact Or.inr ⟨ha, hab.trans hbc⟩

/-- The answers of `StartingBlockCmp` on blocks of a disk. -/
theorem before_of_cmp {a b : BMFSEntry} (ha : a.StartingBlock < 2 ^ 31)
    (hb : b.StartingBlock < 2 ^ 31) :
    (StartingBlockCmp a b ≤ 0 → Before a b) ∧ (0 < StartingBlockCmp a b → Before b a) := by
  rw [StartingBlockCmp]
  split_ifs with hdela hdelb
  · exact ⟨fun hle => absurd hle (by omega), fun _ => Or.inl hdela⟩
  · exact ⟨fun _ => Or.inl hdelb, fun hlt => absurd hlt (by omega)⟩
  · have hexact : Int.bmod ((a.StartingBlock : ℤ) - b.StartingBlock) (2 ^ 32) =
        a.StartingBlock - b.StartingBlock := Int.bmod_eq_of_le (by omega) (by omega)
    rw [hexact]
    exact ⟨fun hle => Or.inr ⟨hdela, by omega⟩, fun hlt => Or.inr ⟨hdelb, by omega⟩⟩

theorem fileSpans_cons_file (he : ¬ e.Deleted) : fileSpans (e :: l) = e.span :: fileSpans l := by
  rw [fileSpans, List.filter_cons_of_pos (by simpa using he), List.map_cons, fileSpans]

theorem fileSpans_of_deleted (h : ∀ e ∈ l, e.Deleted) : fileSpans l = [] := by
  rw [fileSpans, List.filter_eq_nil_iff.mpr fun e he => by simpa using h e he, List.map_nil]

theorem fileSpans_perm {l' : List BMFSEntry} (h : l.Perm l') : (fileSpans l).Perm (fileSpans l') :=
  (h.filter _).map _

/-! ## The walk over the gaps -/

/-- The test of `create` on a gap. -/
theorem fits_iff {thisFileStart : ℕ} (hle : prevFileEnd ≤ thisFileStart)
    (hlt : thisFileStart < 2 ^ 64) :
    (thisFileStart + 2 ^ 64 - prevFileEnd) % 2 ^ 64 ≥ blocksRequested ↔
      prevFileEnd + blocksRequested ≤ thisFileStart := by
  omega

/-- The bounds that the walk relies on. -/
structure Bounded (numBlocks : ℕ) (l : List BMFSEntry) : Prop where
  blocks : 1 ≤ numBlocks
  blocks_lt : numBlocks < 2 ^ 31
  stop : ∀ e ∈ l, e.span.stop ≤ numBlocks - 1

namespace Bounded

theorem tail (h : Bounded numBlocks (e :: l)) : Bounded numBlocks l :=
  ⟨h.blocks, h.blocks_lt, fun e' he' => h.stop e' (List.mem_cons_of_mem e he')⟩

theorem last_block (h : Bounded numBlocks l) :
    (numBlocks + 2 ^ 64 - 1) % 2 ^ 64 = numBlocks - 1 := by
  have hle := h.blocks
  have hlt := h.blocks_lt
  omega

theorem end_mod (h : Bounded numBlocks (e :: l)) :
    (e.StartingBlock + e.ReservedBlocks) % 2 ^ 64 = e.span.stop := by
  have hstop := h.stop e List.mem_cons_self
  have hlt := h.blocks_lt
  exact Nat.mod_eq_of_lt (show e.span.stop < 2 ^ 64 by omega)

theorem searchArea_nil (h : Bounded numBlocks []) (hprev : prevFileEnd ≤ numBlocks - 1) :
    searchArea numBlocks blocksRequested [] prevFileEnd =
      if prevFileEnd + blocksRequested ≤ numBlocks - 1 then prevFileEnd else 0 := by
  have hlt := h.blocks_lt
  simp only [searchArea, h.last_block, fits_iff hprev (show numBlocks - 1 < 2 ^ 64 by omega)]

theorem searchArea_cons_deleted (h : Bounded numBlocks (e :: l))
    (hprev : prevFileEnd ≤ numBlocks - 1) (he : e.Deleted) :
    searchArea numBlocks blocksRequested (e :: l) prevFileEnd =
      if prevFileEnd + blocksRequested ≤ numBlocks - 1 then prevFileEnd
      else searchArea numBlocks blocksRequested l e.span.stop := by
  have hlt := h.blocks_lt
  have hhead : e.FileName.headD 0 = 0x01 := he
  simp only [searchArea, if_pos hhead, h.last_block, h.end_mod,
    fits_iff hprev (show numBlocks - 1 < 2 ^ 64 by omega)]

theorem searchArea_cons_file (h : Bounded numBlocks (e :: l))
    (hprev : prevFileEnd ≤ e.StartingBlock) (he : ¬ e.Deleted) :
    searchArea numBlocks blocksRequested (e :: l) prevFileEnd =
      if prevFileEnd + blocksRequested ≤ e.StartingBlock then prevFileEnd
      else searchArea numBlocks blocksRequested l e.span.stop := by
  have hlt := h.blocks_lt
  have hstop := h.stop e List.mem_cons_self
  have hle : e.StartingBlock ≤ e.span.stop := e.span.start_le_stop
  have hhead : ¬ e.FileName.headD 0 = 0x01 := he
  simp only [searchArea, if_neg hhead, h.end_mod,
    fits_iff hprev (show e.StartingBlock < 2 ^ 64 by omega)]

end Bounded

/-- The end of the first deleted record that is far enough from the end of the disk, or 0. -/
def staleFit (numBlocks blocksRequested : ℕ) : List BMFSEntry → ℕ
  | [] => 0
  | e :: l =>
    if e.Deleted ∧ e.span.stop + blocksRequested ≤ numBlocks - 1 then e.span.stop
    else staleFit numBlocks blocksRequested l

theorem staleFit_eq_zero
    (h : ∀ e ∈ l, e.Deleted → numBlocks - 1 < e.span.stop + blocksRequested) :
    staleFit numBlocks blocksRequested l = 0 := by
  induction l with
  | nil => rfl
  | cons e l ih =>
    rw [staleFit, if_neg, ih fun e' he' => h e' (List.mem_cons_of_mem e he')]
    rintro ⟨he, hle⟩
    have hlt := h e List.mem_cons_self he
    omega

theorem staleFit_cons_file (he : ¬ e.Deleted) :
    staleFit numBlocks blocksRequested (e :: l) = staleFit numBlocks blocksRequested l :=
  if_neg fun hdel => he hdel.1

theorem staleFit_of_exists
    (h : ∃ e ∈ l, e.Deleted ∧ e.span.stop + blocksRequested ≤ numBlocks - 1) :
    ∃ e ∈ l, e.span.stop + blocksRequested ≤ numBlocks - 1 ∧
      staleFit numBlocks blocksRequested l = e.span.stop := by
  induction l with
  | nil =>
    obtain ⟨e, he, -⟩ := h
    exact absurd he List.not_mem_nil
  | cons e l ih =>
    rw [staleFit]
    split_ifs with hfirst
    · exact ⟨e, List.mem_cons_self, hfirst.2, rfl⟩
    · obtain ⟨e', he', hstale⟩ := h
      rcases List.mem_cons.mp he' with rfl | he'
      · exact absurd hstale hfirst
      · obtain ⟨e'', he'', hfit⟩ := ih ⟨e', he', hstale⟩
        exact ⟨e'', List.mem_cons_of_mem e he'', hfit⟩

/-- Behind the files the end of each deleted record is tried as well. -/
theorem searchArea_of_deleted (hb : Bounded numBlocks l) (hl : ∀ e ∈ l, e.Deleted)
    (hprev : prevFileEnd ≤ numBlocks - 1) :
    searchArea numBlocks blocksRequested l prevFileEnd =
      if prevFileEnd + blocksRequested ≤ numBlocks - 1 then prevFileEnd
      else staleFit numBlocks blocksRequested l := by
  induction l generalizing prevFileEnd with
  | nil => exact hb.searchArea_nil hprev
  | cons e l ih =>
    have he := hl e List.mem_cons_self
    rw [hb.searchArea_cons_deleted hprev he, staleFit, ih hb.tail
      (fun e' he' => hl e' (List.mem_cons_of_mem e he')) (hb.stop e List.mem_cons_self)]
    simp only [he, true_and]

/-- `create` takes the first gap between the files that is long enough. Without one, it goes on with
the deleted records. -/
theorem searchArea_eq (hb : Bounded numBlocks l) (hsorted : l.Pairwise Before)
    (horder : InOrder (numBlocks - 1) (fileSpans l) prevFileEnd) :
    searchArea numBlocks blocksRequested l prevFileEnd =
      (firstFit (numBlocks - 1) blocksRequested (fileSpans l) prevFileEnd).getD
        (staleFit numBlocks blocksRequested l) := by
  induction l generalizing prevFileEnd with
  | nil =>
    rw [hb.searchArea_nil horder.le_hi, fileSpans_of_deleted fun e he => absurd he List.not_mem_nil,
      firstFit]
    split_ifs with hfit
    · rfl
    · rfl
  | cons e l ih =>
    rw [List.pairwise_cons] at hsorted
    by_cases he : e.Deleted
    · -- no file is sorted behind a deleted record
      have hall : ∀ e' ∈ e :: l, e'.Deleted := by
        intro e' he'
        rcases List.mem_cons.mp he' with rfl | he'
        · exact he
        · rcases hsorted.1 e' he' with hdeleted | ⟨hnot, -⟩
          · exact hdeleted
          · exact absurd he hnot
      rw [searchArea_of_deleted hb hall horder.le_hi, fileSpans_of_deleted hall, firstFit]
      split_ifs with hfit
      · rfl
      · rfl
    · rw [fileSpans_cons_file he] at horder ⊢
      rw [hb.searchArea_cons_file horder.1 he, firstFit, ih hb.tail hsorted.2 horder.2,
        staleFit_cons_file he]
      by_cases hfit : prevFileEnd + blocksRequested ≤ e.StartingBlock
      · rw [if_pos hfit, if_pos (show _ ≤ e.span.start from hfit), Option.getD_some]
      · rw [if_neg hfit, if_neg (show ¬ _ ≤ e.span.start from hfit)]

/-! ## The place of a new file -/

theorem mem_entries : e ∈ entries dir ↔ ∃ i < numUsed dir, entryAt dir i = e := by
  simp only [entries, List.mem_map, List.mem_range]

theorem mem_fileSpans {c : Span} : c ∈ fileSpans (entries dir) ↔
    ∃ i < numUsed dir, dir (64 * i) ≠ 0x01 ∧ (entryAt dir i).span = c := by
  rw [fileSpans, List.mem_map]
  constructor
  · rintro ⟨e, he, rfl⟩
    rw [List.mem_filter, decide_eq_true_eq] at he
    obtain ⟨i, hi, rfl⟩ := mem_entries.mp he.1
    exact ⟨i, hi, he.2, rfl⟩
  · rintro ⟨i, hi, hkept, rfl⟩
    refine ⟨entryAt dir i, ?_, rfl⟩
    rw [List.mem_filter, decide_eq_true_eq]
    exact ⟨mem_entries.mpr ⟨i, hi, rfl⟩, hkept⟩

theorem Sound.bounded (h : Sound numBlocks dir) (hpos : 1 ≤ numBlocks)
    (hlt : numBlocks < 2 ^ 31) : Bounded numBlocks (entries dir) := by
  refine ⟨hpos, hlt, fun e he => ?_⟩
  obtain ⟨i, hi, rfl⟩ := mem_entries.mp he
  exact (h.placed i hi).high

/-- The files lie apart, in the order of their records. -/
theorem Sound.pairwise_apart (h : Sound numBlocks dir) :
    (fileSpans (entries dir)).Pairwise Apart := by
  rw [fileSpans, entries, List.filter_map, List.map_map, List.pairwise_map]
  refine List.Pairwise.imp_of_mem ?_ (List.nodup_range.filter _)
  intro i j hi hj hne
  rw [List.mem_filter, List.mem_range] at hi hj
  exact h.apart i hi.1 j hj.1 (of_decide_eq_true hi.2) (of_decide_eq_true hj.2) hne

/-- The walk of `create` over a sound directory. -/
theorem searchArea_sorted (blocksRequested : ℕ) (hq : Sorts qsort) (h : Sound numBlocks dir)
    (hpos : 2 ≤ numBlocks) (hlt : numBlocks < 2 ^ 31) : ∃ l, l.Perm (entries dir) ∧
      InOrder (numBlocks - 1) (fileSpans l) 1 ∧
      searchArea numBlocks blocksRequested (qsort StartingBlockCmp (entries dir)) 1 =
        (firstFit (numBlocks - 1) blocksRequested (fileSpans l) 1).getD
          (staleFit numBlocks blocksRequested l) := by
  have hb := h.bounded (by omega) hlt
  have hstart : ∀ e ∈ entries dir, e.StartingBlock < 2 ^ 31 := by
    intro e he
    have hstop := hb.stop e he
    have hle : e.StartingBlock ≤ e.span.stop := e.span.start_le_stop
    omega
  obtain ⟨hperm, hsorted⟩ := hq StartingBlockCmp (entries dir) Before (fun _ _ _ => Before.trans)
    fun a ha b hb => before_of_cmp (hstart a ha) (hstart b hb)
  have hbounded : Bounded numBlocks (qsort StartingBlockCmp (entries dir)) :=
    ⟨hb.blocks, hb.blocks_lt, fun e he => hb.stop e (hperm.mem_iff.mp he)⟩
  have hspans := fileSpans_perm hperm
  have hplaced : ∀ b ∈ fileSpans (qsort StartingBlockCmp (entries dir)),
      ∃ i < numUsed dir, b = (entryAt dir i).span := by
    intro b hb
    obtain ⟨i, hi, -, rfl⟩ := mem_fileSpans.mp (hspans.mem_iff.mp hb)
    exact ⟨i, hi, rfl⟩
  have horder : InOrder (numBlocks - 1) (fileSpans (qsort StartingBlockCmp (entries dir))) 1 := by
    apply inOrder_of_sorted (by omega)
    · intro b hb
      obtain ⟨i, hi, rfl⟩ := hplaced b hb
      exact ⟨(h.placed i hi).low, (h.placed i hi).high⟩
    · intro b hb
      obtain ⟨i, hi, rfl⟩ := hplaced b hb
      exact (h.placed i hi).nonempty
    · rw [fileSpans, List.pairwise_map]
      refine List.Pairwise.imp_of_mem ?_ (hsorted.filter _)
      intro a b _ hb hbefore
      rcases hbefore with hdeleted | ⟨-, hle⟩
      · exact absurd hdeleted (by simpa using (List.mem_filter.mp hb).2)
      · exact hle
    · exact (hspans.pairwise_iff fun hapart => hapart.symm).mpr h.pairwise_apart
  exact ⟨_, hperm, horder, searchArea_eq hbounded hsorted horder⟩

/-- The record of a file can go to `b`: the blocks from there on are those of no file. -/
abbrev Room (numBlocks blocksRequested : ℕ) (dir : Mem) (b : ℕ) : Prop :=
  Free (fileSpans (entries dir)) 1 (numBlocks - 1) ⟨b, blocksRequested⟩

/-- No deleted record ends where `create` would take the blocks behind it. -/
def NoStaleEnd (numBlocks blocksRequested : ℕ) (dir : Mem) : Prop :=
  ∀ e ∈ entries dir, e.Deleted → numBlocks - 1 < e.span.stop + blocksRequested

instance (numBlocks blocksRequested : ℕ) (dir : Mem) :
    Decidable (NoStaleEnd numBlocks blocksRequested dir) :=
  inferInstanceAs (Decidable (∀ e ∈ entries dir, _ → _))

/-- Where there is room, `create` finds the first. Where there is none it finds nothing, unless a
deleted record misleads it. -/
theorem searchArea_room (hq : Sorts qsort) (h : Sound numBlocks dir) (hpos : 2 ≤ numBlocks)
    (hlt : numBlocks < 2 ^ 31)
    (hstale : (∃ b, Room numBlocks blocksRequested dir b) ∨
      NoStaleEnd numBlocks blocksRequested dir) :
    let start := searchArea numBlocks blocksRequested (qsort StartingBlockCmp (entries dir)) 1
    (start = 0 ∧ ∀ b, ¬ Room numBlocks blocksRequested dir b) ∨
      Room numBlocks blocksRequested dir start ∧
        ∀ b, Room numBlocks blocksRequested dir b → start ≤ b := by
  obtain ⟨l, hperm, horder, hsearch⟩ := searchArea_sorted blocksRequested hq h hpos hlt
  have hspans := fileSpans_perm hperm
  intro start
  rcases hfit : firstFit (numBlocks - 1) blocksRequested (fileSpans l) 1 with - | s
  · have hnone : ∀ b, ¬ Room numBlocks blocksRequested dir b := by
      intro b hb
      obtain ⟨t, -, ht⟩ := firstFit_lowest (hb.of_subset hspans.subset)
      rw [hfit] at ht
      exact absurd ht (by simp)
    rcases hstale with ⟨b, hb⟩ | hstale
    · exact absurd hb (hnone b)
    · refine Or.inl ⟨?_, hnone⟩
      rw [hfit] at hsearch
      exact hsearch.trans (staleFit_eq_zero fun e he => hstale e (hperm.mem_iff.mp he))
  · have hstart : start = s := by
      rw [hfit] at hsearch
      exact hsearch
    refine Or.inr ⟨?_, fun b hb => ?_⟩
    · rw [hstart]
      exact (firstFit_free horder hfit).of_subset hspans.symm.subset
    · obtain ⟨t, hle, ht⟩ := firstFit_lowest (hb.of_subset hspans.subset)
      rw [hfit] at ht
      obtain rfl := Option.some.inj ht
      rwa [hstart]

/-- Where there is no room, a deleted record that is far enough from the end misleads `create`. -/
theorem searchArea_stale (hq : Sorts qsort) (h : Sound numBlocks dir) (hpos : 2 ≤ numBlocks)
    (hlt : numBlocks < 2 ^ 31) (hnone : ∀ b, ¬ Room numBlocks blocksRequested dir b)
    (hstale : ¬ NoStaleEnd numBlocks blocksRequested dir) :
    ∃ i < numUsed dir, (entryAt dir i).span.stop + blocksRequested ≤ numBlocks - 1 ∧
      searchArea numBlocks blocksRequested (qsort StartingBlockCmp (entries dir)) 1 =
        (entryAt dir i).span.stop := by
  obtain ⟨l, hperm, horder, hsearch⟩ := searchArea_sorted blocksRequested hq h hpos hlt
  have hspans := fileSpans_perm hperm
  have hfit : firstFit (numBlocks - 1) blocksRequested (fileSpans l) 1 = none := by
    by_contra hsome
    obtain ⟨s, hs⟩ := Option.ne_none_iff_exists'.mp hsome
    exact hnone s ((firstFit_free horder hs).of_subset hspans.symm.subset)
  unfold NoStaleEnd at hstale
  push Not at hstale
  obtain ⟨e, he, hdeleted, hle⟩ := hstale
  obtain ⟨e', he', hfits, hend⟩ :=
    staleFit_of_exists ⟨e, hperm.mem_iff.mpr he, hdeleted, hle⟩
  obtain ⟨i, hi, rfl⟩ := mem_entries.mp (hperm.mem_iff.mp he')
  rw [hfit] at hsearch
  exact ⟨i, hi, hfits, hsearch.trans hend⟩

end TronKernel.Bmfs
