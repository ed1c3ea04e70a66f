import TronKernel.Bmfs.Commands

/-!
# A BMFS disk as a store of files

The abstract store gives a file to each name. `Step` says what a command may answer and what it
makes of the store, with no blocks and no directory in it; only whether there is room for a new
file is left open. Every session of commands on a valid disk is a run of the store
(`session_refines`), in which the files share no block and the boot area stays as it is
(`session_keeps`). What `create` needs for this is `Safe`: it goes wrong in a directory whose
deleted records mislead it (`create_valid_iff`).
-/

namespace TronKernel.Bmfs

open Mem FirstFit

/-! ## The store -/

/-- The answer of a command and the store behind it. -/
inductive Step : Store → Command → Outcome → Store → Prop where
  | list {files : Store} {lines : List (List UInt8 × ℕ × ℕ)}
      (hmem : ∀ line, line ∈ lines ↔ ∃ name f, files name = some f ∧
        line = (name.bytes, f.contents.length, 2 * f.reserved))
      (honce : (lines.map Prod.fst).Nodup) : Step files .list (.listed lines) files
  | formatAborted {files : Store} : Step files (.format false) .formatAborted files
  | formatted {files : Store} : Step files (.format true) .formatted fun _ => none
  | invalidSize {files : Store} {name : Name} {filesize : ℤ} (h : filesize < 1) :
      Step files (.create name filesize) .invalidSize files
  | alreadyExists {files : Store} {name : Name} {filesize : ℤ} (hpos : 1 ≤ filesize)
      (h : files name ≠ none) : Step files (.create name filesize) .alreadyExists files
  | noFreeEntry {files : Store} {name : Name} {filesize : ℤ} (hpos : 1 ≤ filesize)
      (h : files name = none) : Step files (.create name filesize) .noFreeEntry files
  | cannotCreate {files : Store} {name : Name} {filesize : ℤ} (hpos : 1 ≤ filesize)
      (h : files name = none) :
      Step files (.create name filesize) (.cannotCreate (2 * blocksOf filesize.toNat)) files
  | created {files : Store} {name : Name} {filesize : ℤ} (hpos : 1 ≤ filesize)
      (h : files name = none) : Step files (.create name filesize) .complete
        (Function.update files name (some ⟨blocksOf filesize.toNat, []⟩))
  | readNotFound {files : Store} {name : Name} {writable : Bool} (h : files name = none) :
      Step files (.read name writable) .notFound files
  | readNoLocal {files : Store} {name : Name} (h : files name ≠ none) :
      Step files (.read name false) .noLocalFile files
  | read {files : Store} {name : Name} {f : File} (h : files name = some f) :
      Step files (.read name true) (.completeRead f.contents) files
  | writeNotFound {files : Store} {name : Name} {tfile : Option (List UInt8)}
      (h : files name = none) : Step files (.write name tfile) .notFound files
  | writeNoLocal {files : Store} {name : Name} (h : files name ≠ none) :
      Step files (.write name none) .noLocalFile files
  | notEnoughSpace {files : Store} {name : Name} {contents : List UInt8} {f : File}
      (h : files name = some f) (hfull : f.reserved * 2097152 < contents.length) :
      Step files (.write name (some contents)) .notEnoughSpace files
  | written {files : Store} {name : Name} {contents : List UInt8} {f : File}
      (h : files name = some f) (hfits : contents.length ≤ f.reserved * 2097152) :
      Step files (.write name (some contents)) .complete
        (Function.update files name (some ⟨f.reserved, contents⟩))
  | deleteNotFound {files : Store} {name : Name} (h : files name = none) :
      Step files (.delete name) .notFound files
  | deleted {files : Store} {name : Name} (h : files name ≠ none) :
      Step files (.delete name) .complete (Function.update files name none)

/-- A list of commands, each a run of the program: the disk they leave and what they print. -/
def session (qsort : Qsort) : Disk → List Command → Disk × List Outcome
  | disk, [] => (disk, [])
  | disk, c :: cs =>
    let rest := session qsort (main qsort disk c).1 cs
    (rest.1, (main qsort disk c).2 :: rest.2)

/-- A new file has a proper name and finds the end of the directory, and it fits between the files
or no deleted record ends where it would fit as well. A local file can be counted by an `int`. -/
def Safe (disk : Disk) : Command → Prop
  | .create name filesize => disk.files name = none → 1 ≤ filesize →
      Proper name ∧
      (numUsed disk.dir < 64 ∨ ∀ i < numUsed disk.dir, disk.dir (64 * i) ≠ 0x01) ∧
      ((∃ b, Room disk.numBlocks (blocksOf filesize.toNat) disk.dir b) ∨
        NoStaleEnd disk.numBlocks (blocksOf filesize.toNat) disk.dir)
  | .write _ (some contents) => contents.length < 2 ^ 31
  | _ => True

/-- Each command of the session is safe on the disk it finds. -/
def SafeSession (qsort : Qsort) : Disk → List Command → Prop
  | _, [] => True
  | disk, c :: cs => Safe disk c ∧ SafeSession qsort (main qsort disk c).1 cs

/-- The boot sector, the boot loader and the kernel, up to the first block for files, and the last
block of the disk. -/
def BootArea (disk : Disk) (x : ℕ) : Prop :=
  x < 1024 ∨ 1536 ≤ x ∧ x < 4096 ∨ 8192 ≤ x ∧ x < 2097152 ∨ (disk.numBlocks - 1) * 2097152 ≤ x

variable {disk : Disk} {c : Command} {cs : List Command} {name : Name} {qsort : Qsort} {i : ℕ}

/-! ## `format` -/

theorem isBMFS_of_tag (h : ∀ i < 512, disk.bytes (1024 + i) = fsTag.getD i 0) :
    disk.isBMFS = true := by
  have hinfo : ∀ i < 512, disk.fread 1024 512 i = fsTag.getD i 0 := by
    intro i hi
    rw [Disk.fread, if_pos hi, h i hi]
  rw [Disk.isBMFS]
  simp only [fsTag, List.map_cons, List.map_nil, sameString]
  rw [hinfo 0 (by omega), hinfo (0 + 1) (by omega), hinfo (0 + 1 + 1) (by omega),
    hinfo (0 + 1 + 1 + 1) (by omega), hinfo (0 + 1 + 1 + 1 + 1) (by omega)]
  decide

theorem sound_of_empty {numBlocks : ℕ} {dir : Mem} (h : numUsed dir = 0) :
    Sound numBlocks dir := by
  constructor
  · intro i hi
    omega
  · intro i hi
    omega
  · intro i hi
    omega
  · intro i hi
    omega

theorem size_format (h : 8192 ≤ disk.size) : (format disk.open).1.disk.size = disk.size := by
  have hinfo : (disk.fwrite 1024 (fun i => fsTag.getD i 0) 512).size = disk.size :=
    size_fwrite (by omega)
  exact (size_fwrite (h.trans_eq hinfo.symm)).trans hinfo

theorem flush_format {s : Session} (hblocks : 2 ≤ disk.numBlocks)
    (hdisk : s.disk = disk.fwrite 1024 (fun i => fsTag.getD i 0) 512)
    (hDirectory : s.Directory = fun _ => 0) :
    s.flush.disk.Valid ∧ numUsed s.flush.disk.dir = 0 ∧ s.flush.disk.size = disk.size ∧
      ∀ x, BootArea disk x → s.flush.disk.bytes x = disk.bytes x := by
  have hlarge := numBlocks_le disk
  have hsize : s.disk.size = disk.size := by
    rw [hdisk]
    exact size_fwrite (by omega)
  have hsize' : s.flush.disk.size = disk.size := (size_flush (by omega)).trans hsize
  have hempty : numUsed s.flush.disk.dir = 0 := by
    refine numUsed_eq (by omega) (fun i hi => absurd hi (by omega)) fun _ => ?_
    rw [dir_flush (by omega), hDirectory]
  have hvalid : s.flush.disk.Valid := by
    refine ⟨isBMFS_of_tag fun i hi => ?_, ?_, sound_of_empty hempty⟩
    · rw [bytes_flush (by omega), hdisk, fwrite_of_mem (by omega) (by omega),
        Nat.add_sub_cancel_left]
    · rw [numBlocks_congr hsize']
      exact hblocks
  refine ⟨hvalid, hempty, hsize', fun x hx => ?_⟩
  unfold BootArea at hx
  rw [bytes_flush (by omega), hdisk, fwrite_of_notMem (by omega)]

/-- A formatted disk is valid and has no record in use. -/
theorem format_spec (hblocks : 2 ≤ disk.numBlocks) :
    (format disk.open).1.disk.Valid ∧ numUsed (format disk.open).1.disk.dir = 0 ∧
      (format disk.open).1.disk.size = disk.size ∧
      ∀ x, BootArea disk x → (format disk.open).1.disk.bytes x = disk.bytes x :=
  flush_format hblocks rfl rfl

theorem Disk.Valid.files_of_empty (h : disk.Valid) (hempty : numUsed disk.dir = 0) :
    disk.files = fun _ => none :=
  funext fun _ => h.files_eq_none_iff.mpr fun i hi => absurd hi (by omega)

/-- A new disk of 16 MiB, with six blocks for files. -/
def newDisk : Disk := (format (Disk.blank 16777216).open).1.disk

theorem newDisk_valid : newDisk.Valid := (format_spec (by decide)).1

def nameA : Name := ⟨[0x61], by decide⟩

def nameB : Name := ⟨[0x62], by decide⟩

def nameC : Name := ⟨[0x63, 0x2E, 0x74], by decide⟩

/-! ## `list` -/

/-- The name of a record, as `printf` prints it. -/
theorem takeWhile_FileName {dir : Mem} (h : IsFile dir i name) :
    (entryAt dir i).FileName.takeWhile (· ≠ 0) = name.bytes := by
  have hshort := h.short
  have hchars := holds_iff_getElem.mp h.string.1
  have hrange : List.range 32 = List.range name.bytes.length ++ name.bytes.length ::
      List.range' (name.bytes.length + 1) (31 - name.bytes.length) := by
    have hcount : 32 = name.bytes.length + (31 - name.bytes.length + 1) := by omega
    rw [List.range_eq_range', List.range_eq_range', hcount, ← List.range'_append_1,
      List.range'_succ, Nat.zero_add]
  have hstring : ((List.range name.bytes.length).map fun o => dir (64 * i + o)) = name.bytes := by
    apply List.ext_getElem
    · rw [List.length_map, List.length_range]
    · intro o ho ho'
      rw [List.getElem_map, List.getElem_range,
        hchars o (by rw [List.length_append]; omega), List.getElem_append_left ho']
  have hzero : dir (64 * i + name.bytes.length) = 0 := by
    rw [hchars name.bytes.length (by rw [List.length_append]; simp)]
    simp
  rw [entryAt]
  dsimp only
  rw [hrange, List.map_append, List.map_cons, hstring, hzero, List.takeWhile_append_of_pos]
  · simp
  · intro c hc
    have hne : c ≠ 0 := fun hzero => name.no_nul (hzero ▸ hc)
    simpa using hne

theorem length_contentsOf {e : BMFSEntry} (h : e.FileSize < 2 ^ 31) :
    (contentsOf disk e).length = e.FileSize := by
  rw [contentsOf, List.length_map, List.length_range, rounds, min_eq_left (by omega)]

/-- The line of a file says its name, its length and what is reserved for it. -/
theorem line_eq (h : disk.Valid) (hi : i < numUsed disk.dir) (hfile : IsFile disk.dir i name) :
    (entryAt disk.dir i).line = (name.bytes, (disk.fileOf (entryAt disk.dir i)).contents.length,
      2 * (disk.fileOf (entryAt disk.dir i)).reserved) := by
  have hreserved : (entryAt disk.dir i).ReservedBlocks * 2 % 2 ^ 64 =
      2 * (entryAt disk.dir i).ReservedBlocks := by
    have hstop : (entryAt disk.dir i).StartingBlock + (entryAt disk.dir i).ReservedBlocks ≤
      disk.numBlocks - 1 := (h.sound.placed i hi).high
    have hlt := numBlocks_lt disk
    omega
  rw [BMFSEntry.line, takeWhile_FileName hfile, hreserved, Disk.fileOf,
    length_contentsOf hfile.size_lt]

theorem step_list (h : disk.Valid) :
    Step disk.files .list (.listed (listFrom disk.dir 64 0)) disk.files := by
  rw [listFrom_eq]
  refine .list (fun line => ?_) ?_
  · rw [List.mem_map]
    constructor
    · rintro ⟨i, hi, rfl⟩
      rw [List.mem_filter, List.mem_range, decide_eq_true_eq] at hi
      obtain ⟨name, hfile⟩ := (h.sound.file i hi.1).resolve_left hi.2
      exact ⟨name, _, h.files_eq_some_iff.mpr ⟨i, hi.1, hfile, rfl⟩, line_eq h hi.1 hfile⟩
    · rintro ⟨name, f, hf, rfl⟩
      obtain ⟨i, hi, hfile, rfl⟩ := h.files_eq_some_iff.mp hf
      refine ⟨i, ?_, line_eq h hi hfile⟩
      rw [List.mem_filter, List.mem_range, decide_eq_true_eq]
      exact ⟨hi, hfile.kept⟩
  · rw [List.map_map, List.Nodup, List.pairwise_map]
    refine List.Pairwise.imp_of_mem ?_ (List.nodup_range.filter _)
    intro i j hi hj hne heq
    rw [List.mem_filter, List.mem_range, decide_eq_true_eq] at hi hj
    obtain ⟨name, hfile⟩ := (h.sound.file i hi.1).resolve_left hi.2
    obtain ⟨name', hfile'⟩ := (h.sound.file j hj.1).resolve_left hj.2
    have hbytes : name.bytes = name'.bytes := by
      rw [← takeWhile_FileName hfile, ← takeWhile_FileName hfile']
      exact heq
    obtain ⟨bytes, _⟩ := name
    obtain ⟨bytes', _⟩ := name'
    obtain rfl : bytes = bytes' := hbytes
    exact hne (h.sound.distinct i hi.1 j hj.1 _ hfile hfile')

/-! ## One command -/

/-- What a command on a valid disk comes to. -/
structure Refines (disk : Disk) (c : Command) (disk' : Disk) (o : Outcome) : Prop where
  valid : disk'.Valid
  step : Step disk.files c o disk'.files
  size : disk'.size = disk.size
  boot : ∀ x, BootArea disk x → disk'.bytes x = disk.bytes x

theorem refines_same {o : Outcome} (h : disk.Valid) (hstep : Step disk.files c o disk.files) :
    Refines disk c disk o := ⟨h, hstep, rfl, fun _ _ => rfl⟩

theorem Leaves.refines {files : Store} {disk' : Disk} {o : Outcome} (h : Leaves disk files disk')
    (hstep : Step disk.files c o files) : Refines disk c disk' o := by
  refine ⟨h.valid, h.files_eq ▸ hstep, h.size, fun x hx => h.foreign x ?_⟩
  unfold BootArea at hx
  unfold Foreign
  omega

theorem findfile_of_files (h : disk.files name ≠ none) :
    ∃ r, findfile disk.dir name = some r ∧ disk.files name = some (disk.fileOf r.1) := by
  obtain ⟨f, hf⟩ := Option.ne_none_iff_exists'.mp h
  obtain ⟨r, hr, hfr⟩ := Option.map_eq_some_iff.mp hf
  exact ⟨r, hr, by rw [hf, hfr]⟩

theorem findfile_of_none (h : disk.files name = none) : findfile disk.open.Directory name = none :=
  Option.map_eq_none_iff.mp h

theorem refines_create {filesize : ℤ} (hq : Sorts qsort) (h : disk.Valid)
    (hsafe : Safe disk (.create name filesize)) (hpos : 1 ≤ filesize) :
    Refines disk (.create name filesize) (create qsort disk.open name filesize.toNat).1.disk
      (create qsort disk.open name filesize.toNat).2 := by
  by_cases hnone : disk.files name = none
  · obtain ⟨hname, hend, hstale⟩ := hsafe hnone hpos
    rcases Nat.lt_or_ge (numUsed disk.dir) 64 with hused | hused
    · obtain ⟨i, hlt, hle, hdeleted, hcreate⟩ :=
        create_eq qsort filesize.toNat hnone hused
      rw [hcreate]
      rcases searchArea_room hq h.sound h.blocks (numBlocks_lt disk) hstale with
        ⟨hzero, -⟩ | ⟨hroom, -⟩
      · rw [if_pos hzero]
        exact refines_same h (.cannotCreate hpos hnone)
      · have hstart := hroom.low
        rw [if_neg (by dsimp only at hstart; omega)]
        have hblocks : 0 < blocksOf filesize.toNat := by
          unfold blocksOf
          omega
        have hleaves := leaves_create (s := created disk i _ (blocksOf filesize.toNat) name) h hname
          hnone hle hlt hdeleted hroom hblocks rfl rfl
        exact hleaves.refines (.created hpos hnone)
    · have hfull : numUsed disk.dir = 64 := Nat.le_antisymm (numUsed_le _) hused
      rw [create_full hnone hfull (hend.resolve_left (by omega))]
      exact refines_same h (.noFreeEntry hpos hnone)
  · obtain ⟨r, hr, -⟩ := findfile_of_files hnone
    have hcreate : create qsort disk.open name filesize.toNat = (disk.open, .alreadyExists) := by
      rw [create, if_pos]
      rw [show findfile disk.open.Directory name = some r from hr]
      rfl
    rw [hcreate]
    exact refines_same h (.alreadyExists hpos hnone)

theorem refines_write {contents : List UInt8} (h : disk.Valid) (hlen : contents.length < 2 ^ 31) :
    Refines disk (.write name (some contents)) (write disk.open name (some contents)).1.disk
      (write disk.open name (some contents)).2 := by
  by_cases hnone : disk.files name = none
  · have hwrite : write disk.open name (some contents) = (disk.open, .notFound) := by
      rw [write, findfile_of_none hnone]
    rw [hwrite]
    exact refines_same h (.writeNotFound hnone)
  · obtain ⟨r, hr, hfile⟩ := findfile_of_files hnone
    rcases Nat.lt_or_ge (r.1.ReservedBlocks * 2097152) contents.length with hfull | hfits
    · rw [write_full h hr hfull]
      exact refines_same h (.notEnoughSpace hfile hfull)
    · obtain ⟨hleaves, hcomplete⟩ := write_spec h hr hlen hfits
      rw [hcomplete]
      exact hleaves.refines (.written hfile hfits)

theorem main_of_valid (h : disk.Valid) : main qsort disk c =
    ((command qsort disk.open c).1.disk, (command qsort disk.open c).2) := if_pos h.tagged

/-- A safe command on a valid disk answers as the store does and leaves a valid disk. -/
theorem main_refines (hq : Sorts qsort) (h : disk.Valid) (hsafe : Safe disk c) :
    Refines disk c (main qsort disk c).1 (main qsort disk c).2 := by
  rw [main_of_valid h]
  cases c with
  | list => exact refines_same h (step_list h)
  | format force =>
    cases force with
    | false => exact refines_same h .formatAborted
    | true =>
      obtain ⟨hvalid, hempty, hsize, hboot⟩ := format_spec h.blocks
      refine ⟨hvalid, ?_, hsize, hboot⟩
      show Step disk.files _ .formatted (format disk.open).1.disk.files
      rw [hvalid.files_of_empty hempty]
      exact .formatted
  | create name filesize =>
    by_cases hpos : filesize ≥ 1
    · rw [command, if_pos hpos]
      exact refines_create hq h hsafe hpos
    · rw [command, if_neg hpos]
      exact refines_same h (.invalidSize (by omega))
  | read name writable =>
    by_cases hnone : disk.files name = none
    · have hread : read disk.open name writable = (disk.open, .notFound) := by
        rw [read, findfile_of_none hnone]
      rw [command, hread]
      exact refines_same h (.readNotFound hnone)
    · obtain ⟨r, hr, hfile⟩ := findfile_of_files hnone
      have hread : read disk.open name writable =
          if writable then (disk.open, .completeRead (contentsOf disk r.1))
          else (disk.open, .noLocalFile) := by
        rw [read, show findfile disk.open.Directory name = some (r.1, r.2) from hr]
        rfl
      rw [command, hread]
      cases writable with
      | false => exact refines_same h (.readNoLocal hnone)
      | true => exact refines_same h (.read hfile)
  | write name tfile =>
    cases tfile with
    | some contents => exact refines_write h hsafe
    | none =>
      by_cases hnone : disk.files name = none
      · have hwrite : write disk.open name none = (disk.open, .notFound) := by
          rw [write, findfile_of_none hnone]
        rw [command, hwrite]
        exact refines_same h (.writeNotFound hnone)
      · obtain ⟨r, hr, -⟩ := findfile_of_files hnone
        have hwrite : write disk.open name none = (disk.open, .noLocalFile) := by
          rw [write, show findfile disk.open.Directory name = some (r.1, r.2) from hr]
        rw [command, hwrite]
        exact refines_same h (.writeNoLocal hnone)
  | delete name =>
    by_cases hnone : disk.files name = none
    · have hdelete : delete disk.open name = (disk.open, .notFound) := by
        rw [delete, findfile_of_none hnone]
      rw [command, hdelete]
      exact refines_same h (.deleteNotFound hnone)
    · obtain ⟨r, hr, -⟩ := findfile_of_files hnone
      obtain ⟨hleaves, hcomplete⟩ := delete_spec h hr
      rw [command, hcomplete]
      exact hleaves.refines (.deleted hnone)

/-! ## Whole sessions -/

theorem session_valid (hq : Sorts qsort) (h : disk.Valid) (hsafe : SafeSession qsort disk cs) :
    (session qsort disk cs).1.Valid ∧ (session qsort disk cs).1.size = disk.size ∧
      ∀ x, BootArea disk x → (session qsort disk cs).1.bytes x = disk.bytes x := by
  induction cs generalizing disk with
  | nil => exact ⟨h, rfl, fun _ _ => rfl⟩
  | cons c cs ih =>
    have hstep := main_refines hq h hsafe.1
    obtain ⟨hvalid, hsize, hboot⟩ := ih hstep.valid hsafe.2
    refine ⟨hvalid, hsize.trans hstep.size, fun x hx => ?_⟩
    have hx' : BootArea (main qsort disk c).1 x := by
      unfold BootArea
      rw [numBlocks_congr hstep.size]
      exact hx
    exact (hboot x hx').trans (hstep.boot x hx)

/-- The directory has a record for a new file, and the disk has its blocks from `b` on. -/
def HasRoomAt (disk : Disk) (filesize : ℤ) (b : ℕ) : Prop :=
  numUsed disk.dir < 64 ∧ Room disk.numBlocks (blocksOf filesize.toNat) disk.dir b

instance (disk : Disk) (filesize : ℤ) (b : ℕ) : Decidable (HasRoomAt disk filesize b) :=
  inferInstanceAs (Decidable (_ ∧ _))

theorem safe_of_room {filesize : ℤ} {b : ℕ} (hname : Proper name)
    (hroom : HasRoomAt disk filesize b) : Safe disk (.create name filesize) :=
  fun _ _ => ⟨hname, Or.inl hroom.1, Or.inl ⟨b, hroom.2⟩⟩

/-- Two files are created and written. When the first one is deleted, a third one gets its record,
but has to go behind the second one, for its hole is too small. -/
def twoFiles : List Command :=
  [.create nameA 2, .create nameB 3, .write nameA (some [1, 2, 3]), .write nameB (some [4, 5]),
    .delete nameA, .create nameC 4, .read nameB true, .read nameA true, .list]

/-- The blocks that are free for the files, and what the session leaves and prints. -/
theorem twoFiles_run :
    HasRoomAt newDisk 2 1 ∧ HasRoomAt (session insertionSort newDisk (twoFiles.take 1)).1 3 2 ∧
      HasRoomAt (session insertionSort newDisk (twoFiles.take 5)).1 4 4 ∧
      fileSpans (entries (session insertionSort newDisk twoFiles).1.dir) = [⟨4, 2⟩, ⟨2, 2⟩] ∧
      (session insertionSort newDisk twoFiles).2 = [.complete, .complete, .complete, .complete,
        .complete, .complete, .completeRead [4, 5], .notFound,
        .listed [([0x63, 0x2E, 0x74], 0, 4), ([0x62], 2, 4)]] := by
  decide +kernel

/-- In a directory with an end, `create` keeps the disk valid exactly when the new file fits between
the files or no deleted record ends where it would fit as well. -/
theorem create_valid_iff {filesize : ℤ} (hq : Sorts qsort) (h : disk.Valid) (hname : Proper name)
    (hnone : disk.files name = none) (hpos : 1 ≤ filesize) (hused : numUsed disk.dir < 64) :
    (main qsort disk (.create name filesize)).1.Valid ↔
      (∃ b, Room disk.numBlocks (blocksOf filesize.toNat) disk.dir b) ∨
        NoStaleEnd disk.numBlocks (blocksOf filesize.toNat) disk.dir := by
  constructor
  · intro hvalid
    by_contra hnot
    rw [not_or, not_exists] at hnot
    obtain ⟨hroom, hstale⟩ := hnot
    have hlt := numBlocks_lt disk
    obtain ⟨j, hj, hfits, hsearch⟩ := searchArea_stale hq h.sound h.blocks hlt hroom hstale
    obtain ⟨i, hi, hle, hdeleted, hcreate⟩ := create_eq qsort filesize.toNat hnone hused
    have hplaced := h.sound.placed j hj
    have hlow : 1 ≤ (entryAt disk.dir j).span.stop :=
      hplaced.low.trans (entryAt disk.dir j).span.start_le_stop
    have hmain : (main qsort disk (.create name filesize)).1 =
        (created disk i (entryAt disk.dir j).span.stop (blocksOf filesize.toNat)
          name).flush.disk := by
      have hcommand : command qsort disk.open (.create name filesize) =
        create qsort disk.open name filesize.toNat := if_pos hpos
      rw [main_of_valid h, hcommand, hcreate, hsearch, if_neg (by omega)]
    rw [hmain] at hvalid
    obtain ⟨hc, hspan, -, hfile⟩ := changes_created
      (s := created disk i (entryAt disk.dir j).span.stop (blocksOf filesize.toNat) name)
      hname hle hi (by omega) (by omega) rfl
    -- the new file shares no block with the others, so there was room
    apply hroom (entryAt disk.dir j).span.stop
    refine ⟨hlow, hfits, fun c hc' => ?_⟩
    obtain ⟨k, hk, hkept, rfl⟩ := mem_fileSpans.mp hc'
    have hki : k ≠ i := fun heq => hkept (heq ▸ hdeleted (heq ▸ hk))
    have hi' := hc.numUsed_eq
    have hapart := hvalid.sound.apart i (by omega) k (by omega) hfile.kept
      (by rw [hc.head hk hki]; exact hkept) (Ne.symm hki)
    rwa [hspan, hc.entryAt_eq hk hki] at hapart
  · intro hstale
    have hsafe : Safe disk (.create name filesize) := fun _ _ => ⟨hname, Or.inl hused, hstale⟩
    exact (main_refines hq h hsafe).valid

/-- A file in the second and third block for files. The record of the file that was in front of it
is deleted. -/
def holeDisk : Disk :=
  (session insertionSort newDisk [.create nameA 2, .create nameB 3, .delete nameA]).1

theorem holeDisk_run :
    HasRoomAt (session insertionSort newDisk [.create nameA 2]).1 3 2 ∧
      findfile holeDisk.dir nameC = none ∧ HasRoomAt holeDisk 4 4 ∧
      (findfile (main insertionSort holeDisk (.create nameC 4)).1.dir nameC).map
        (fun r => r.1.StartingBlock) = some 4 := by
  decide +kernel

theorem holeDisk_valid : holeDisk.Valid := by
  have hsafe : SafeSession insertionSort newDisk
      [.create nameA 2, .create nameB 3, .delete nameA] :=
    ⟨safe_of_room (by decide) twoFiles_run.1, safe_of_room (by decide) holeDisk_run.1, trivial,
      trivial⟩
  exact (session_valid sorts_insertionSort newDisk_valid hsafe).1

theorem holeDisk_files : holeDisk.files nameC = none :=
  Option.map_eq_none_iff.mpr holeDisk_run.2.1

/-- The same with a file that takes all the blocks but the first. -/
def fullDisk : Disk :=
  (session insertionSort newDisk [.create nameA 2, .create nameB 10, .delete nameA]).1

theorem fullDisk_run :
    HasRoomAt (session insertionSort newDisk [.create nameA 2]).1 10 2 ∧
      findfile fullDisk.dir nameC = none ∧ numUsed fullDisk.dir < 64 ∧ fullDisk.numBlocks = 8 ∧
      fileSpans (entries fullDisk.dir) = [⟨2, 5⟩] ∧
      ¬ NoStaleEnd fullDisk.numBlocks (blocksOf (4 : ℤ).toNat) fullDisk.dir := by
  decide +kernel

theorem fullDisk_valid : fullDisk.Valid := by
  have hsafe : SafeSession insertionSort newDisk
      [.create nameA 2, .create nameB 10, .delete nameA] :=
    ⟨safe_of_room (by decide) twoFiles_run.1, safe_of_room (by decide) fullDisk_run.1, trivial,
      trivial⟩
  exact (session_valid sorts_insertionSort newDisk_valid hsafe).1

theorem fullDisk_noRoom (b : ℕ) :
    ¬ Room fullDisk.numBlocks (blocksOf (4 : ℤ).toNat) fullDisk.dir b := by
  intro hroom
  obtain ⟨-, -, -, hblocks, hspans, -⟩ := fullDisk_run
  have hlow : 1 ≤ b := hroom.low
  have hhigh : b + 2 ≤ fullDisk.numBlocks - 1 := hroom.high
  have hapart : b + 2 ≤ 2 ∨ 2 + 5 ≤ b := hroom.apart ⟨2, 5⟩ (hspans ▸ List.mem_cons_self)
  omega

/-- A file of two blocks fits behind the other file. On the full disk the deleted record has
`create` give it blocks of the other file. -/
theorem create_valid_iff_hole :
    (main insertionSort holeDisk (.create nameC 4)).1.Valid ∧
      ¬ (main insertionSort fullDisk (.create nameC 4)).1.Valid := by
  constructor
  · obtain ⟨-, -, ⟨hused, hroom⟩, -⟩ := holeDisk_run
    exact (create_valid_iff sorts_insertionSort holeDisk_valid (by decide) holeDisk_files
      (by decide) hused).mpr (Or.inl ⟨4, hroom⟩)
  · intro hvalid
    obtain ⟨-, hnone, hused, -, -, hstale⟩ := fullDisk_run
    have hplace := (create_valid_iff sorts_insertionSort fullDisk_valid (by decide)
      (Option.map_eq_none_iff.mpr hnone) (by decide) hused).mp hvalid
    rcases hplace with ⟨b, hroom⟩ | hnostale
    · exact fullDisk_noRoom b hroom
    · exact hstale hnostale

theorem findfile_created {start blocksRequested : ℕ} (hname : Proper name)
    (hle : i ≤ numUsed disk.dir) (hlt : i < 64) (hstart : start < 2 ^ 64)
    (hblocks : blocksRequested < 2 ^ 64)
    (hvalid : (created disk i start blocksRequested name).flush.disk.Valid) :
    ∃ r, findfile (created disk i start blocksRequested name).flush.disk.dir name = some r ∧
      r.1.span = ⟨start, blocksRequested⟩ := by
  obtain ⟨hc, hspan, -, hfile⟩ := changes_created
    (s := created disk i start blocksRequested name) hname hle hlt hstart hblocks rfl
  have hused := hc.numUsed_eq
  exact ⟨(_, i), (findfile_eq_some_iff hvalid.sound).mpr ⟨by omega, hfile, rfl⟩, hspan⟩

/-- `create` is first fit: it makes the file exactly when a record is free and there is room, and
then the file gets the lowest blocks that were free. -/
theorem create_first_fit {filesize : ℤ} (hq : Sorts qsort) (h : disk.Valid)
    (hsafe : Safe disk (.create name filesize)) (hnone : disk.files name = none)
    (hpos : 1 ≤ filesize) :
    ((main qsort disk (.create name filesize)).2 = .complete ↔
      numUsed disk.dir < 64 ∧ ∃ b, Room disk.numBlocks (blocksOf filesize.toNat) disk.dir b) ∧
    ((main qsort disk (.create name filesize)).2 = .complete →
      ∃ r, findfile (main qsort disk (.create name filesize)).1.dir name = some r ∧
        IsLeast {b | Room disk.numBlocks (blocksOf filesize.toNat) disk.dir b} r.1.StartingBlock ∧
        r.1.ReservedBlocks = blocksOf filesize.toNat) := by
  have hvalid := (main_refines hq h hsafe).valid
  obtain ⟨hname, hend, hstale⟩ := hsafe hnone hpos
  have hcommand : command qsort disk.open (.create name filesize) =
    create qsort disk.open name filesize.toNat := if_pos hpos
  rw [main_of_valid h, hcommand] at hvalid ⊢
  dsimp only at hvalid ⊢
  rcases Nat.lt_or_ge (numUsed disk.dir) 64 with hused | hused
  · obtain ⟨i, hi, hle, hdeleted, hcreate⟩ := create_eq qsort filesize.toNat hnone hused
    rw [hcreate] at hvalid ⊢
    rcases searchArea_room hq h.sound h.blocks (numBlocks_lt disk) hstale with
      ⟨hzero, hnoroom⟩ | ⟨hroom, hleast⟩
    · rw [if_pos hzero]
      refine ⟨⟨fun heq => absurd heq (by simp), ?_⟩, fun heq => absurd heq (by simp)⟩
      rintro ⟨-, b, hb⟩
      exact absurd hb (hnoroom b)
    · generalize searchArea disk.numBlocks (blocksOf filesize.toNat)
        (qsort StartingBlockCmp (entries disk.dir)) 1 = start at hvalid hroom hleast ⊢
      have hlow : 1 ≤ start := hroom.low
      have hhigh : start + blocksOf filesize.toNat ≤ disk.numBlocks - 1 := hroom.high
      have hnum := numBlocks_lt disk
      rw [if_neg (by omega)] at hvalid ⊢
      refine ⟨⟨fun _ => ⟨hused, start, hroom⟩, fun _ => rfl⟩, fun _ => ?_⟩
      obtain ⟨r, hr, hspan⟩ := findfile_created hname hle hi (show start < 2 ^ 64 by omega)
        (show blocksOf filesize.toNat < 2 ^ 64 by omega) hvalid
      have hstart : r.1.StartingBlock = start := congrArg Span.start hspan
      refine ⟨r, hr, ?_, congrArg Span.length hspan⟩
      rw [hstart]
      exact ⟨hroom, fun b hb => hleast b hb⟩
  · have hfull : numUsed disk.dir = 64 := Nat.le_antisymm (numUsed_le _) hused
    rw [create_full hnone hfull (hend.resolve_left (by omega))]
    refine ⟨⟨fun heq => absurd heq (by simp), fun hlt => absurd hlt.1 (by omega)⟩,
      fun heq => absurd heq (by simp)⟩

/-- The first block is free, but two blocks are not before the fourth. -/
theorem create_first_fit_hole :
    (main insertionSort holeDisk (.create nameC 4)).2 = .complete ∧
      ∃ r, findfile (main insertionSort holeDisk (.create nameC 4)).1.dir nameC = some r ∧
        IsLeast {b | Room holeDisk.numBlocks (blocksOf (4 : ℤ).toNat) holeDisk.dir b}
          r.1.StartingBlock ∧ r.1.StartingBlock = 4 ∧ r.1.ReservedBlocks = 2 := by
  obtain ⟨-, -, hroom, hfound⟩ := holeDisk_run
  obtain ⟨hcomplete, hleast⟩ := create_first_fit sorts_insertionSort holeDisk_valid
    (safe_of_room (by decide) hroom) holeDisk_files (show (1 : ℤ) ≤ 4 by decide)
  have hdone := hcomplete.mpr ⟨hroom.1, 4, hroom.2⟩
  obtain ⟨r, hr, hstart, hblocks⟩ := hleast hdone
  rw [hr, Option.map_some] at hfound
  exact ⟨hdone, r, hr, hstart, Option.some.inj hfound, hblocks⟩

end TronKernel.Bmfs
