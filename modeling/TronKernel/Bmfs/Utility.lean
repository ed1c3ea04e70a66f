import TronKernel.Lib.Bytes
import Mathlib.Data.List.Sort

/-!
# `Bootloader/BMFS/bmfs.c`: the file system utility

A BMFS disk is divided into blocks of 2 MiB. The first one holds the tag of the file system at 1024
and the directory of 64 records at 4096, and a file has consecutive blocks of the others. Every
command opens the disk, works on a copy of the directory and writes the copy back. `qsort` is a
parameter, of which only `Sorts` is asked.
-/

namespace TronKernel.Bmfs

open Mem

/-! ## The disk -/

/-- An argument of the command line, a string without the zero behind it. -/
@[ext]
structure Name where
  bytes : List UInt8
  no_nul : 0 ∉ bytes

instance : DecidableEq Name := fun _ _ => decidable_of_iff _ Name.ext_iff.symm

/-- The file `disk`. -/
structure Disk where
  bytes : Mem
  size : ℕ
  zeros : ∀ x, size ≤ x → bytes x = 0

/-- `fread` of `n` bytes from `offset` on into a buffer of zeros. -/
def Disk.fread (disk : Disk) (offset n : ℕ) : Mem :=
  fun i => if i < n then disk.bytes (offset + i) else 0

/-- `fwrite` of the first `n` bytes of a buffer from `offset` on. -/
def Disk.fwrite (disk : Disk) (offset : ℕ) (buffer : Mem) (n : ℕ) : Disk where
  bytes x := if offset ≤ x ∧ x < offset + n then buffer (x - offset) else disk.bytes x
  size := if n = 0 then disk.size else max disk.size (offset + n)
  zeros x hx := by
    split_ifs at hx with hn
    · rw [if_neg (by omega)]
      exact disk.zeros x hx
    · rw [if_neg (by omega)]
      exact disk.zeros x (by omega)

/-- A file of zeros. -/
def Disk.blank (size : ℕ) : Disk := ⟨fun _ => 0, size, fun _ _ => rfl⟩

/-- `getc` at `offset`, as the byte that `putc` makes of it: it is -1 behind the end. -/
def Disk.getc (disk : Disk) (offset : ℕ) : UInt8 :=
  if offset < disk.size then disk.bytes offset else 0xFF

/-- `struct BMFSEntry`. -/
structure BMFSEntry where
  FileName : List UInt8
  StartingBlock : ℕ
  ReservedBlocks : ℕ
  FileSize : ℕ
  Unused : ℕ
deriving DecidableEq

/-- The record `tint` of a directory. -/
def entryAt (Directory : Mem) (tint : ℕ) : BMFSEntry where
  FileName := (List.range 32).map fun i => Directory (64 * tint + i)
  StartingBlock := load64 Directory (64 * tint + 32)
  ReservedBlocks := load64 Directory (64 * tint + 40)
  FileSize := load64 Directory (64 * tint + 48)
  Unused := load64 Directory (64 * tint + 56)

/-- What `main` has set up when it calls a command. `disksize` is in MiB. -/
structure Session where
  disk : Disk
  Directory : Mem
  disksize : ℕ

/-- The directory is written back. -/
def Session.flush (s : Session) : Session := { s with disk := s.disk.fwrite 4096 s.Directory 4096 }

/-- What a command prints, and the local file that `read` leaves. -/
inductive Outcome where
  /-- "Error: Not a valid BMFS drive (Disk is not BMFS formatted)." -/
  | notFormatted
  /-- "Format complete." -/
  | formatted
  /-- "Format aborted!" -/
  | formatAborted
  /-- One line for each file: its name, its size and the MiB reserved for it. -/
  | listed (lines : List (List UInt8 × ℕ × ℕ))
  /-- "Error: Invalid file size." -/
  | invalidSize
  /-- "Error: File already exists." -/
  | alreadyExists
  /-- "Cannot create file: no free directory entries." -/
  | noFreeEntry
  /-- "Cannot create file of size %lld MiB." -/
  | cannotCreate (maxsize : ℕ)
  /-- "Error: File not found in BMFS." -/
  | notFound
  /-- "Error: Could not open local file '%s'" -/
  | noLocalFile
  /-- "Not enough reserved space in BMFS." -/
  | notEnoughSpace
  /-- "Complete", with the local file written by `read`. -/
  | completeRead (contents : List UInt8)
  /-- "Complete" -/
  | complete
deriving DecidableEq

/-! ## The directory -/

/-- `strcmp` of the string at `a` with a string is zero. -/
def sameString (m : Mem) (a : ℕ) : List UInt8 → Bool
  | [] => m a == 0
  | c :: filename => m a == c && sameString m (a + 1) filename

/-- The loop of `findfile` with `n` records to go. -/
def findFrom (Directory : Mem) (filename : Name) : ℕ → ℕ → Option (BMFSEntry × ℕ)
  | 0, _ => none
  | n + 1, tint =>
    if Directory (64 * tint) = 0x00 then none
    else if Directory (64 * tint) = 0x01 then findFrom Directory filename n (tint + 1)
    else if sameString Directory (64 * tint) filename.bytes then
      some (entryAt Directory tint, tint)
    else findFrom Directory filename n (tint + 1)

/-- `findfile`: the record of the file and its number. -/
def findfile (Directory : Mem) (filename : Name) : Option (BMFSEntry × ℕ) :=
  findFrom Directory filename 64 0

/-- The loop of `list` with `n` records to go. -/
def listFrom (Directory : Mem) : ℕ → ℕ → List (List UInt8 × ℕ × ℕ)
  | 0, _ => []
  | n + 1, tint =>
    if Directory (64 * tint) = 0x00 then []
    else if Directory (64 * tint) = 0x01 then listFrom Directory n (tint + 1)
    else
      let entry := entryAt Directory tint
      (entry.FileName.takeWhile (· ≠ 0), entry.FileSize, entry.ReservedBlocks * 2 % 2 ^ 64) ::
        listFrom Directory n (tint + 1)

/-- `list` -/
def list (s : Session) : Session × Outcome := (s, .listed (listFrom s.Directory 64 0))

/-- `fs_tag` -/
def fsTag : List UInt8 := [0x42, 0x4D, 0x46, 0x53]

/-- `format` -/
def format (s : Session) : Session × Outcome :=
  let DiskInfo : Mem := fun i => fsTag.getD i 0
  let Directory : Mem := fun _ => 0
  let disk := s.disk.fwrite 1024 DiskInfo 512
  (Session.flush { s with disk := disk, Directory := Directory }, .formatted)

/-! ## The commands -/

/-- `StartingBlockCmp`. The difference of the blocks is cut down to an `int`. -/
def StartingBlockCmp (ea eb : BMFSEntry) : ℤ :=
  if ea.FileName.headD 0 = 0x01 then 1
  else if eb.FileName.headD 0 = 0x01 then -1
  else Int.bmod (ea.StartingBlock - eb.StartingBlock) (2 ^ 32)

/-- The loop of `create` over the directory with `n` records to go: `num_used_entries` and
`first_free_entry`. -/
def countFrom (Directory : Mem) : ℕ → ℕ → Option ℕ → ℕ × Option ℕ
  | 0, _, firstFreeEntry => (0, firstFreeEntry)
  | n + 1, tint, firstFreeEntry =>
    if Directory (64 * tint) = 0x00 then (tint, firstFreeEntry.or (some tint))
    else if Directory (64 * tint) = 0x01 then
      countFrom Directory n (tint + 1) (firstFreeEntry.or (some tint))
    else countFrom Directory n (tint + 1) firstFreeEntry

/-- The loop of `create` over the sorted copy: `new_file_start`, or 0. -/
def searchArea (numBlocks blocksRequested : ℕ) : List BMFSEntry → ℕ → ℕ
  | [], prevFileEnd =>
    let thisFileStart := (numBlocks + 2 ^ 64 - 1) % 2 ^ 64
    if (thisFileStart + 2 ^ 64 - prevFileEnd) % 2 ^ 64 ≥ blocksRequested then prevFileEnd
    else 0
  | entry :: rest, prevFileEnd =>
    let thisFileStart :=
      if entry.FileName.headD 0 = 0x01 then (numBlocks + 2 ^ 64 - 1) % 2 ^ 64
      else entry.StartingBlock
    if (thisFileStart + 2 ^ 64 - prevFileEnd) % 2 ^ 64 ≥ blocksRequested then prevFileEnd
    else
      searchArea numBlocks blocksRequested rest
        ((entry.StartingBlock + entry.ReservedBlocks) % 2 ^ 64)

/-- `strcpy` -/
def strcpy (m : Mem) (a : ℕ) : List UInt8 → Mem
  | [] => Function.update m a 0
  | c :: filename => strcpy (Function.update m a c) (a + 1) filename

/-- The record of a new file. -/
def addRecord (Directory : Mem) (slot newFileStart blocksRequested : ℕ) (filename : Name) :
    Mem :=
  let Directory := store64 Directory (64 * slot + 32) newFileStart
  let Directory := store64 Directory (64 * slot + 40) blocksRequested
  let Directory := store64 Directory (64 * slot + 48) 0
  strcpy Directory (64 * slot) filename.bytes

/-- A sort of the C library, with the comparison first. -/
abbrev Qsort := (BMFSEntry → BMFSEntry → ℤ) → List BMFSEntry → List BMFSEntry

/-- What a sort promises: its result is a rearrangement, and it is sorted by every transitive
relation that justifies the answers of the comparison. -/
def Sorts (qsort : Qsort) : Prop :=
  ∀ (cmp : BMFSEntry → BMFSEntry → ℤ) (l : List BMFSEntry) (R : BMFSEntry → BMFSEntry → Prop),
    (∀ a b c, R a b → R b c → R a c) →
    (∀ a ∈ l, ∀ b ∈ l, (cmp a b ≤ 0 → R a b) ∧ (0 < cmp a b → R b a)) →
    (qsort cmp l).Perm l ∧ (qsort cmp l).Pairwise R

/-- Insertion sort is such a sort. -/
def insertionSort : Qsort := fun cmp l => l.insertionSort fun a b => cmp a b ≤ 0

theorem pairwise_orderedInsert {cmp : BMFSEntry → BMFSEntry → ℤ} {l : List BMFSEntry}
    {R : BMFSEntry → BMFSEntry → Prop} {a : BMFSEntry} (htrans : ∀ a b c, R a b → R b c → R a c)
    (hcmp : ∀ b ∈ l, (cmp a b ≤ 0 → R a b) ∧ (0 < cmp a b → R b a)) (hl : l.Pairwise R) :
    (l.orderedInsert (fun a b => cmp a b ≤ 0) a).Pairwise R := by
  induction l with
  | nil => exact List.pairwise_singleton R a
  | cons b l ih =>
    rw [List.pairwise_cons] at hl
    rw [List.orderedInsert_cons]
    split_ifs with hle
    · have hab := (hcmp b List.mem_cons_self).1 hle
      refine List.pairwise_cons.mpr ⟨fun c hc => ?_, List.pairwise_cons.mpr hl⟩
      rcases List.mem_cons.mp hc with rfl | hc
      · exact hab
      · exact htrans a b c hab (hl.1 c hc)
    · refine List.pairwise_cons.mpr ⟨fun c hc => ?_, ih (fun c hc => hcmp c ?_) hl.2⟩
      · rcases (List.mem_orderedInsert _).mp hc with rfl | hc
        · exact (hcmp b List.mem_cons_self).2 (by omega)
        · exact hl.1 c hc
      · exact List.mem_cons_of_mem b hc

theorem sorts_insertionSort : Sorts insertionSort := by
  intro cmp l R htrans hcmp
  refine ⟨List.perm_insertionSort _ l, ?_⟩
  rw [insertionSort]
  induction l with
  | nil => exact List.Pairwise.nil
  | cons a l ih =>
    apply pairwise_orderedInsert htrans
    · intro b hb
      have hb := (List.mem_insertionSort _).mp hb
      exact hcmp a List.mem_cons_self b (List.mem_cons_of_mem a hb)
    · exact ih fun b hb c hc => hcmp b (List.mem_cons_of_mem a hb) c (List.mem_cons_of_mem a hc)

/-- `create` -/
def create (qsort : Qsort) (s : Session) (filename : Name) (maxsize : ℕ) : Session × Outcome :=
  let maxsize := if maxsize % 2 ≠ 0 then maxsize + 1 else maxsize
  if (findfile s.Directory filename).isSome then (s, .alreadyExists)
  else
    let blocksRequested := maxsize / 2
    let numBlocks := s.disksize / 2
    let (numUsedEntries, firstFreeEntry) := countFrom s.Directory 64 0 none
    match firstFreeEntry with
    | none => (s, .noFreeEntry)
    | some firstFreeEntry =>
      let dirCopy :=
        qsort StartingBlockCmp ((List.range numUsedEntries).map (entryAt s.Directory))
      let newFileStart := searchArea numBlocks blocksRequested dirCopy 1
      if newFileStart = 0 then (s, .cannotCreate maxsize)
      else
        let Directory :=
          addRecord s.Directory firstFreeEntry newFileStart blocksRequested filename
        let Directory :=
          if firstFreeEntry = numUsedEntries ∧ numUsedEntries + 1 < 64 then
            Function.update Directory (64 * (numUsedEntries + 1)) 0x00
          else Directory
        (Session.flush { s with Directory := Directory }, .complete)

/-- The rounds of `for (tint = 0; tint < size; tint++)`: the `int` wraps around to a number that is
above every size. -/
def rounds (size : ℕ) : ℕ := min size (2 ^ 31)

/-- The bytes that `read` copies for a record. -/
def contentsOf (disk : Disk) (entry : BMFSEntry) : List UInt8 :=
  (List.range (rounds entry.FileSize)).map fun tint =>
    disk.getc (entry.StartingBlock * 2097152 % 2 ^ 64 + tint)

/-- `read`. The local file has the file's name; `writable` says whether it could be opened. -/
def read (s : Session) (filename : Name) (writable : Bool) : Session × Outcome :=
  match findfile s.Directory filename with
  | none => (s, .notFound)
  | some (tempentry, _) =>
    if writable then (s, .completeRead (contentsOf s.disk tempentry)) else (s, .noLocalFile)

/-- `write`, where `tfile` is the local file of that name, if there is one. -/
def write (s : Session) (filename : Name) (tfile : Option (List UInt8)) : Session × Outcome :=
  match findfile s.Directory filename with
  | none => (s, .notFound)
  | some (tempentry, slot) =>
    match tfile with
    | none => (s, .noLocalFile)
    | some contents =>
      let tempfilesize := contents.length
      if tempentry.ReservedBlocks * 2097152 % 2 ^ 64 < tempfilesize then (s, .notEnoughSpace)
      else
        let disk := s.disk.fwrite (tempentry.StartingBlock * 2097152 % 2 ^ 64)
          (fun i => contents.getD i 0) (rounds tempfilesize)
        let Directory := store64 s.Directory (64 * slot + 48) tempfilesize
        (Session.flush { s with disk := disk, Directory := Directory }, .complete)

/-- `delete` -/
def delete (s : Session) (filename : Name) : Session × Outcome :=
  match findfile s.Directory filename with
  | none => (s, .notFound)
  | some (_, slot) =>
    (Session.flush { s with Directory := Function.update s.Directory (64 * slot) 0x01 }, .complete)

/-! ## `main` -/

/-- A command line, with what the command meets outside the disk. -/
inductive Command where
  | list
  | format (force : Bool)
  | create (filename : Name) (filesize : ℤ)
  | read (filename : Name) (writable : Bool)
  | write (filename : Name) (tfile : Option (List UInt8))
  | delete (filename : Name)

/-- The session that `main` sets up. -/
def Disk.open (disk : Disk) : Session where
  disk := disk
  Directory := disk.fread 4096 4096
  disksize := disk.size / 1048576 % 2 ^ 32

/-- A letter of ASCII in lower case. -/
def tolower (c : UInt8) : UInt8 := if 0x41 ≤ c ∧ c ≤ 0x5A then c + 0x20 else c

/-- `strcasecmp(DiskInfo, fs_tag) == 0` -/
def Disk.isBMFS (disk : Disk) : Bool :=
  sameString (fun i => tolower (disk.fread 1024 512 i)) 0 (fsTag.map tolower)

/-- The command of a formatted disk. -/
def command (qsort : Qsort) (s : Session) : Command → Session × Outcome
  | .list => list s
  | .format force => if force then format s else (s, .formatAborted)
  | .create filename filesize =>
    if filesize ≥ 1 then create qsort s filename filesize.toNat else (s, .invalidSize)
  | .read filename writable => read s filename writable
  | .write filename tfile => write s filename tfile
  | .delete filename => delete s filename

/-- `main` on a disk that could be opened: the disk it leaves and what it prints. -/
def main (qsort : Qsort) (disk : Disk) (c : Command) : Disk × Outcome :=
  let s := disk.open
  if disk.isBMFS then ((command qsort s c).1.disk, (command qsort s c).2)
  else
    match c with
    | .format _ => ((format s).1.disk, (format s).2)
    | _ => (disk, .notFormatted)

end TronKernel.Bmfs
