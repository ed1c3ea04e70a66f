import TronKernel.Bmfs.Area

/-!
# The files of a BMFS disk

`Disk.Valid` is the state in which the commands find and leave a disk, and `Disk.files` what the
disk holds then: for each name a number of blocks and a string of bytes. `files_changed` says what
becomes of the files when one record of the directory changes.
-/

namespace TronKernel.Bmfs

open Mem FirstFit

/-- The directory that a command finds. -/
abbrev Disk.dir (disk : Disk) : Mem := disk.open.Directory

/-- The number of blocks that `create` counts. -/
def Disk.numBlocks (disk : Disk) : ℕ := disk.open.disksize / 2

/-- A formatted disk with a sound directory. -/
structure Disk.Valid (disk : Disk) : Prop where
  tagged : disk.isBMFS = true
  blocks : 2 ≤ disk.numBlocks
  sound : Sound disk.numBlocks disk.dir

/-- A file: how many blocks are reserved for it, and what it contains. -/
structure File where
  reserved : ℕ
  contents : List UInt8

/-- A store: a file for each name, or none. -/
abbrev Store := Name → Option File

/-- The file of a record. -/
def Disk.fileOf (disk : Disk) (e : BMFSEntry) : File := ⟨e.ReservedBlocks, contentsOf disk e⟩

/-- The files of a disk, as `findfile` finds them. -/
def Disk.files (disk : Disk) : Store :=
  fun name => (findfile disk.dir name).map fun r => disk.fileOf r.1

variable {disk disk' : Disk} {s : Session} {e : BMFSEntry} {name : Name} {i j x : ℕ}

/-! ## Reading and writing the disk -/

theorem numBlocks_lt (disk : Disk) : disk.numBlocks < 2 ^ 31 := by
  have hlt : disk.size / 1048576 % 2 ^ 32 < 2 ^ 32 := Nat.mod_lt _ (by omega)
  show disk.size / 1048576 % 2 ^ 32 / 2 < 2 ^ 31
  omega

/-- The blocks lie on the disk. -/
theorem numBlocks_le (disk : Disk) : disk.numBlocks * 2097152 ≤ disk.size := by
  have hle : disk.size / 1048576 % 2 ^ 32 ≤ disk.size / 1048576 := Nat.mod_le _ _
  show disk.size / 1048576 % 2 ^ 32 / 2 * 2097152 ≤ disk.size
  omega

theorem numBlocks_congr (h : disk'.size = disk.size) : disk'.numBlocks = disk.numBlocks := by
  show disk'.size / 1048576 % 2 ^ 32 / 2 = disk.size / 1048576 % 2 ^ 32 / 2
  rw [h]

theorem fwrite_of_notMem {offset n : ℕ} {buffer : Mem} (h : x < offset ∨ offset + n ≤ x) :
    (disk.fwrite offset buffer n).bytes x = disk.bytes x := if_neg (by omega)

theorem fwrite_of_mem {offset n : ℕ} {buffer : Mem} (hle : offset ≤ x) (hlt : x < offset + n) :
    (disk.fwrite offset buffer n).bytes x = buffer (x - offset) := if_pos ⟨hle, hlt⟩

theorem size_fwrite {offset n : ℕ} {buffer : Mem} (h : offset + n ≤ disk.size) :
    (disk.fwrite offset buffer n).size = disk.size := by
  show (if n = 0 then disk.size else max disk.size (offset + n)) = disk.size
  split_ifs
  · rfl
  · exact max_eq_left h

theorem isBMFS_congr (h : ∀ x, 1024 ≤ x → x < 1536 → disk'.bytes x = disk.bytes x) :
    disk'.isBMFS = disk.isBMFS := by
  have hinfo : disk'.fread 1024 512 = disk.fread 1024 512 := by
    funext i
    rw [Disk.fread, Disk.fread]
    split_ifs with hi
    · exact h (1024 + i) (by omega) (by omega)
    · rfl
  rw [Disk.isBMFS, Disk.isBMFS, hinfo]

theorem dir_flush (hx : x < 4096) : s.flush.disk.dir x = s.Directory x := by
  show (if x < 4096 then (s.disk.fwrite 4096 s.Directory 4096).bytes (4096 + x) else 0) = _
  rw [if_pos hx, fwrite_of_mem (by omega) (by omega), Nat.add_sub_cancel_left]

theorem bytes_flush (hx : x < 4096 ∨ 8192 ≤ x) : s.flush.disk.bytes x = s.disk.bytes x :=
  fwrite_of_notMem (by omega)

theorem size_flush (h : 8192 ≤ s.disk.size) : s.flush.disk.size = s.disk.size := size_fwrite h

theorem Disk.Valid.size_le (h : disk.Valid) : 4194304 ≤ disk.size := by
  have hle := numBlocks_le disk
  have hblocks := h.blocks
  omega

/-- A file depends on the bytes of its blocks only. -/
theorem contentsOf_congr (hplaced : Placed disk.numBlocks e.span)
    (hfits : e.FileSize ≤ e.ReservedBlocks * 2097152) (hsize : disk'.size = disk.size)
    (h : ∀ x, e.span.start * 2097152 ≤ x → x < e.span.stop * 2097152 →
      disk'.bytes x = disk.bytes x) : contentsOf disk' e = contentsOf disk e := by
  apply List.map_congr_left
  intro t ht
  have ht : t < e.FileSize := Nat.lt_of_lt_of_le (List.mem_range.mp ht) (Nat.min_le_left _ _)
  have hstop : e.StartingBlock + e.ReservedBlocks ≤ disk.numBlocks - 1 := hplaced.high
  have hlt := numBlocks_lt disk
  have hoffset : e.StartingBlock * 2097152 % 2 ^ 64 = e.StartingBlock * 2097152 :=
    Nat.mod_eq_of_lt (by omega)
  rw [Disk.getc, Disk.getc, hsize, hoffset]
  have hend : e.span.stop * 2097152 = e.StartingBlock * 2097152 + e.ReservedBlocks * 2097152 :=
    Nat.add_mul _ _ _
  have hbyte := h (e.StartingBlock * 2097152 + t) (Nat.le_add_right _ _) (by omega)
  rw [hbyte]

/-- What a file contains, byte by byte. -/
theorem contentsOf_eq (hplaced : Placed disk.numBlocks e.span)
    (hfits : e.FileSize ≤ e.ReservedBlocks * 2097152) (hlt : e.FileSize < 2 ^ 31) :
    contentsOf disk e =
      (List.range e.FileSize).map fun t => disk.bytes (e.StartingBlock * 2097152 + t) := by
  have hrounds : rounds e.FileSize = e.FileSize := Nat.min_eq_left (by omega)
  have hstop : e.StartingBlock + e.ReservedBlocks ≤ disk.numBlocks - 1 := hplaced.high
  have hblocks := numBlocks_lt disk
  have hsize := numBlocks_le disk
  have hoffset : e.StartingBlock * 2097152 % 2 ^ 64 = e.StartingBlock * 2097152 :=
    Nat.mod_eq_of_lt (by omega)
  rw [contentsOf, hrounds, hoffset]
  apply List.map_congr_left
  intro t ht
  have ht := List.mem_range.mp ht
  exact if_pos (by omega)

/-! ## The files of a valid disk -/

theorem Disk.Valid.files_eq_some_iff (h : disk.Valid) {f : File} : disk.files name = some f ↔
    ∃ i < numUsed disk.dir, IsFile disk.dir i name ∧ disk.fileOf (entryAt disk.dir i) = f := by
  rw [Disk.files, Option.map_eq_some_iff]
  constructor
  · rintro ⟨r, hr, hf⟩
    obtain ⟨hi, hfile, hentry⟩ := (findfile_eq_some_iff h.sound).mp hr
    exact ⟨r.2, hi, hfile, hentry ▸ hf⟩
  · rintro ⟨i, hi, hfile, hf⟩
    exact ⟨(entryAt disk.dir i, i), (findfile_eq_some_iff h.sound).mpr ⟨hi, hfile, rfl⟩, hf⟩

theorem Disk.Valid.files_eq_none_iff (h : disk.Valid) : disk.files name = none ↔
    ∀ i < numUsed disk.dir, ¬ IsFile disk.dir i name := by
  constructor
  · intro hnone i hi hfile
    have hsome := h.files_eq_some_iff.mpr ⟨i, hi, hfile, rfl⟩
    rw [hnone] at hsome
    exact absurd hsome (by simp)
  · intro hnot
    by_contra hsome
    obtain ⟨f, hf⟩ := Option.ne_none_iff_exists'.mp hsome
    obtain ⟨i, hi, hfile, -⟩ := h.files_eq_some_iff.mp hf
    exact hnot i hi hfile

/-- When the record `i` changes and nothing else of the files, only the names in that record see
it. -/
theorem files_changed (n : Name) (h : disk.Valid) (h' : disk'.Valid)
    (hc : Changes disk.dir disk'.dir i)
    (hdata : ∀ j < numUsed disk.dir, j ≠ i → disk.dir (64 * j) ≠ 0x01 →
      contentsOf disk' (entryAt disk.dir j) = contentsOf disk (entryAt disk.dir j)) :
    (IsFile disk'.dir i n → disk'.files n = some (disk'.fileOf (entryAt disk'.dir i))) ∧
    (¬ IsFile disk'.dir i n → i < numUsed disk.dir → IsFile disk.dir i n →
      disk'.files n = none) ∧
    (¬ IsFile disk'.dir i n → (i < numUsed disk.dir → ¬ IsFile disk.dir i n) →
      disk'.files n = disk.files n) := by
  have hused : i < numUsed disk'.dir := by
    rw [hc.numUsed_eq]
    omega
  refine ⟨fun hfile => h'.files_eq_some_iff.mpr ⟨i, hused, hfile, rfl⟩, ?_, ?_⟩
  · intro hnot hi hfile
    refine h'.files_eq_none_iff.mpr fun j hj hfile' => ?_
    rcases hc.cases_lt hj with rfl | ⟨hj, hne⟩
    · exact hnot hfile'
    · exact hne (h.sound.distinct j hj i hi n ((hc.isFile_iff hj hne).mp hfile') hfile)
  · intro hnot hold
    apply Option.ext
    intro f
    rw [h.files_eq_some_iff, h'.files_eq_some_iff]
    constructor
    · rintro ⟨j, hj, hfile, hf⟩
      rcases hc.cases_lt hj with rfl | ⟨hj, hne⟩
      · exact absurd hfile hnot
      · rw [hc.isFile_iff hj hne] at hfile
        rw [hc.entryAt_eq hj hne, Disk.fileOf, hdata j hj hne hfile.kept] at hf
        exact ⟨j, hj, hfile, hf⟩
    · rintro ⟨j, hj, hfile, hf⟩
      have hne : j ≠ i := fun heq => hold (heq ▸ hj) (heq ▸ hfile)
      refine ⟨j, ?_, (hc.isFile_iff hj hne).mpr hfile, ?_⟩
      · rw [hc.numUsed_eq]
        exact Nat.lt_of_lt_of_le hj (Nat.le_max_left _ _)
      · rw [hc.entryAt_eq hj hne, Disk.fileOf, hdata j hj hne hfile.kept]
        exact hf

end TronKernel.Bmfs
