import TronKernel.Bmfs.Store
import TronKernel.Lib.Numerals
import Mathlib.Data.List.GetD

/-!
# `initialize`: a new disk image

`initialize` reads the size of the disk, a decimal numeral with a unit (`diskSizeOf_numeral`),
fills the disk with zeros, formats it and copies the boot sector, the boot loader and the kernel
onto it, in portions of 50 KiB. The kernel lies right behind the boot loader, which is where the
boot sector looks for both (`initializeDisk_holds`).
-/

namespace TronKernel.Bmfs

open Mem

/-! ## The code -/

/-- What `initialize` prints when it gives up. -/
inductive InitError where
  /-- "Error: A numeric disk size must be specified" -/
  | notNumeric
  /-- "Error: Disk size is too large" -/
  | tooLarge
  /-- "Error: Invalid disk size string: '%s'" -/
  | invalid
  /-- "Error: Disk size must be at least %llu bytes (%lluMiB)" -/
  | tooSmall
  /-- "Error: Unable to open MBR file '%s'" -/
  | openMbr
  /-- "Error: Unable to open %s file '%s'" -/
  | openBoot
  /-- "Error: Unable to open kernel file '%s'" -/
  | openKernel
  /-- "Error: Failed to read file '%s'" -/
  | readMbr
deriving DecidableEq

/-- `isdigit` -/
def isdigit (ch : UInt8) : Bool := 0x30 ≤ ch && ch ≤ 0x39

/-- `toupper` -/
def toupper (ch : UInt8) : UInt8 := if 0x61 ≤ ch ∧ ch ≤ 0x7A then ch - 0x20 else ch

/-- The `switch` over the unit: `diskSizeFactor`. -/
def unitFactor (ch : UInt8) : Option ℕ :=
  if toupper ch = 0x4B then some 1
  else if toupper ch = 0x4D then some 2
  else if toupper ch = 0x47 then some 3
  else if toupper ch = 0x54 then some 4
  else if toupper ch = 0x50 then some 5
  else none

/-- The loop over the size string: `diskSize` and `diskSizeFactor`. -/
def readSize : Bool → List UInt8 → ℕ → Except InitError (ℕ × ℕ)
  | _, [], diskSize => .ok (diskSize, 0)
  | first, ch :: rest, diskSize =>
    if isdigit ch then
      let n := (ch - 0x30).toNat
      if diskSize * 10 % 2 ^ 64 > diskSize then
        readSize false rest ((diskSize * 10 % 2 ^ 64 + n) % 2 ^ 64)
      else if diskSize = 0 then readSize false rest (diskSize + n)
      else .error .tooLarge
    else if first then .error .notNumeric
    else
      match unitFactor ch with
      | none => .error .invalid
      | some diskSizeFactor =>
        if rest = [] then .ok (diskSize, diskSizeFactor) else .error .invalid

/-- The loop over `diskSizeFactor`. -/
def scale : ℕ → ℕ → Except InitError ℕ
  | 0, diskSize => .ok diskSize
  | diskSizeFactor + 1, diskSize =>
    if diskSize * 1024 % 2 ^ 64 > diskSize then scale diskSizeFactor (diskSize * 1024 % 2 ^ 64)
    else .error .tooLarge

/-- `minimumDiskSize` -/
def minimumDiskSize : ℕ := 6 * 1024 * 1024

/-- The size of the disk, checked. -/
def diskSizeOf (size : List UInt8) : Except InitError ℕ := do
  let (diskSize, diskSizeFactor) ← readSize true size 0
  let diskSize ← (if diskSize > 0 ∧ diskSizeFactor > 0 then scale diskSizeFactor diskSize
    else .ok diskSize)
  if diskSize < minimumDiskSize then .error .tooSmall else .ok diskSize

/-- A file named on the command line, if one is. The inner `none` is a file that cannot be opened.
-/
abbrev FileArg := Option (Option (List UInt8))

/-- `fopen` of a file that is named. -/
def fopen (e : InitError) : FileArg → Except InitError (Option (List UInt8))
  | none => .ok none
  | some none => .error e
  | some (some bytes) => .ok (some bytes)

/-- `bufferSize` -/
def bufferSize : ℕ := 50 * 1024

/-- The loop that copies a file to the disk, from `offset` on: the disk and the offset behind. -/
def copyFile (disk : Disk) (offset : ℕ) (rest : List UInt8) : Disk × ℕ :=
  if rest = [] then (disk, offset)
  else
    let buffer := rest.take bufferSize
    copyFile (disk.fwrite offset (fun i => buffer.getD i 0) buffer.length) (offset + buffer.length)
      (rest.drop bufferSize)
termination_by rest.length
decreasing_by
  rename_i hne
  have hpos := List.length_pos_iff.mpr hne
  rw [List.length_drop, bufferSize]
  omega

/-- The boot sector is written: the disk and the offset behind. -/
def writeMbr (disk : Disk) : Option (List UInt8) → Except InitError (Disk × ℕ)
  | none => .ok (disk, 8192)
  | some mbr =>
    if 512 ≤ mbr.length then .ok (disk.fwrite 0 (fun i => mbr.getD i 0) 512, 512)
    else .error .readMbr

/-- `initialize`: the image. The directory that `format` writes ends at 8192, and the kernel is
written where the file before it ended. -/
def initializeDisk (size : List UInt8) (mbr boot kernel : FileArg) : Except InitError Disk := do
  let diskSize ← diskSizeOf size
  let mbrFile ← fopen .openMbr mbr
  let bootFile ← fopen .openBoot boot
  let kernelFile ← fopen .openKernel kernel
  let disk := (format (Disk.blank diskSize).open).1.disk
  let (disk, offset) ← writeMbr disk mbrFile
  let (disk, offset) :=
    match bootFile with
    | none => (disk, offset)
    | some bootFile => copyFile disk 8192 bootFile
  match kernelFile with
  | none => .ok disk
  | some kernelFile => .ok (copyFile disk offset kernelFile).1

/-! ## The size -/

/-- The character of a digit. -/
def digitChar (d : ℕ) : UInt8 := UInt8.ofNat (48 + d)

theorem digitChar_spec : ∀ d < 10, isdigit (digitChar d) = true ∧
    (digitChar d - 0x30).toNat = d := by decide

theorem le_valueFrom (v : ℕ) (ds : List ℕ) : v ≤ Numerals.valueFrom 10 v ds := by
  induction ds generalizing v with
  | nil => exact le_rfl
  | cons d ds ih =>
    have hrest := ih (v * 10 + d)
    rw [Numerals.valueFrom]
    omega

/-- The loop reads digits as long as their number fits into 64 bits. -/
theorem readSize_digits {ds : List ℕ} {tail : List UInt8} {v : ℕ} (first : Bool)
    (hds : ∀ d ∈ ds, d < 10) (hlt : Numerals.valueFrom 10 v ds < 2 ^ 64)
    (hfirst : first = true → ds ≠ []) :
    readSize first (ds.map digitChar ++ tail) v =
      readSize false tail (Numerals.valueFrom 10 v ds) := by
  induction ds generalizing v first with
  | nil =>
    cases first with
    | false => rfl
    | true => exact absurd rfl (hfirst rfl)
  | cons d ds ih =>
    obtain ⟨hdigit, hvalue⟩ := digitChar_spec d (hds d List.mem_cons_self)
    rw [Numerals.valueFrom] at hlt ⊢
    have hle := le_valueFrom (v * 10 + d) ds
    have hmod : v * 10 % 2 ^ 64 = v * 10 := Nat.mod_eq_of_lt (by omega)
    have hrest := ih (v := v * 10 + d) false
      (fun d' hd' => hds d' (List.mem_cons_of_mem d hd')) hlt (fun h => absurd h (by simp))
    rw [List.map_cons, List.cons_append, readSize, if_pos hdigit]
    dsimp only
    rw [hvalue, hmod]
    by_cases hv : v = 0
    · rw [if_neg (by omega), if_pos hv, ← hrest, hv]
    · rw [if_pos (by omega), Nat.mod_eq_of_lt (by omega), hrest]

theorem scale_eq {f d : ℕ} (hd : 0 < d) (hlt : d * 1024 ^ f < 2 ^ 64) :
    scale f d = .ok (d * 1024 ^ f) := by
  induction f generalizing d with
  | zero => rw [scale, pow_zero, Nat.mul_one]
  | succ f ih =>
    have hstep : d * 1024 ^ (f + 1) = d * 1024 * 1024 ^ f := by
      rw [pow_succ, Nat.mul_comm (1024 ^ f), Nat.mul_assoc]
    rw [hstep] at hlt ⊢
    have hle : d * 1024 ≤ d * 1024 * 1024 ^ f := Nat.le_mul_of_pos_right _ (by positivity)
    have hmod : d * 1024 % 2 ^ 64 = d * 1024 := Nat.mod_eq_of_lt (by omega)
    rw [scale, hmod, if_pos (by omega)]
    exact ih (by omega) hlt

/-- The end of a size string: nothing, or one unit. -/
def IsUnit (tail : List UInt8) (f : ℕ) : Prop :=
  tail = [] ∧ f = 0 ∨ ∃ ch, tail = [ch] ∧ isdigit ch = false ∧ unitFactor ch = some f

/-- A decimal numeral with a unit is read as the number of bytes it stands for. -/
theorem diskSizeOf_numeral {ds : List ℕ} {tail : List UInt8} {f : ℕ} (hne : ds ≠ [])
    (hds : ∀ d ∈ ds, d < 10) (hunit : IsUnit tail f)
    (hlt : Numerals.value 10 ds * 1024 ^ f < 2 ^ 64)
    (hmin : minimumDiskSize ≤ Numerals.value 10 ds * 1024 ^ f) :
    diskSizeOf (ds.map digitChar ++ tail) = .ok (Numerals.value 10 ds * 1024 ^ f) := by
  have hpos : 0 < Numerals.value 10 ds := by
    rcases Nat.eq_zero_or_pos (Numerals.value 10 ds) with hzero | hpos
    · rw [hzero, Nat.zero_mul] at hmin
      exact absurd hmin (by decide)
    · exact hpos
  have hvalue : Numerals.valueFrom 10 0 ds < 2 ^ 64 :=
    (Nat.le_mul_of_pos_right (Numerals.value 10 ds) (by positivity)).trans_lt hlt
  have hread : readSize true (ds.map digitChar ++ tail) 0 = .ok (Numerals.value 10 ds, f) := by
    rw [readSize_digits true hds hvalue fun _ => hne]
    rcases hunit with ⟨rfl, rfl⟩ | ⟨ch, rfl, hdigit, hfactor⟩
    · rfl
    · rw [readSize, hdigit, hfactor]
      rfl
  have hscale : (if Numerals.value 10 ds > 0 ∧ f > 0 then scale f (Numerals.value 10 ds)
      else .ok (Numerals.value 10 ds)) = .ok (Numerals.value 10 ds * 1024 ^ f) := by
    split_ifs with hf
    · exact scale_eq hpos hlt
    · obtain rfl : f = 0 := by omega
      rw [pow_zero, Nat.mul_one]
  rw [diskSizeOf, hread]
  show (if Numerals.value 10 ds > 0 ∧ f > 0 then scale f (Numerals.value 10 ds)
      else .ok (Numerals.value 10 ds)) >>= (fun diskSize =>
        if diskSize < minimumDiskSize then .error .tooSmall else .ok diskSize) = _
  rw [hscale]
  exact if_neg (by omega)

theorem minimumDiskSize_le {size : List UInt8} {diskSize : ℕ} (h : diskSizeOf size = .ok diskSize) :
    minimumDiskSize ≤ diskSize := by
  rw [diskSizeOf] at h
  rcases hread : readSize true size 0 with e | r
  · rw [hread] at h
    exact absurd h (by simp [bind, Except.bind])
  · rcases hscale : (if r.1 > 0 ∧ r.2 > 0 then scale r.2 r.1 else .ok r.1) with e | d
    · simp [hread, hscale, bind, Except.bind] at h
    · have hlast : (if d < minimumDiskSize then .error .tooSmall else .ok d) =
          (.ok diskSize : Except InitError ℕ) := by
        simpa [hread, hscale, bind, Except.bind] using h
      split_ifs at hlast with hlt
      · obtain rfl := Except.ok.inj hlast
        omega

/-! ## The image -/

theorem copyFile_offset (disk : Disk) (offset : ℕ) (rest : List UInt8) :
    (copyFile disk offset rest).2 = offset + rest.length := by
  induction disk, offset, rest using copyFile.induct with
  | case1 disk offset => rw [copyFile, if_pos rfl]; rfl
  | case2 disk offset rest hne buffer ih =>
    rw [copyFile, if_neg hne]
    dsimp only
    rw [ih, Nat.add_assoc, ← List.length_append, List.take_append_drop]

/-- Two portions written one behind the other. -/
theorem fwrite_append (disk : Disk) (offset x : ℕ) (xs ys : List UInt8) :
    (if offset + xs.length ≤ x ∧ x < offset + xs.length + ys.length then
        ys.getD (x - (offset + xs.length)) 0
      else (disk.fwrite offset (fun i => xs.getD i 0) xs.length).bytes x) =
      if offset ≤ x ∧ x < offset + (xs ++ ys).length then (xs ++ ys).getD (x - offset) 0
      else disk.bytes x := by
  rw [List.length_append]
  rcases Nat.lt_or_ge x (offset + xs.length) with hlt | hge
  · rw [if_neg (by omega)]
    by_cases hle : offset ≤ x
    · rw [fwrite_of_mem hle hlt, if_pos (by omega), List.getD_append _ _ _ _ (by omega)]
    · rw [fwrite_of_notMem (by omega), if_neg (by omega)]
  · by_cases hin : x < offset + xs.length + ys.length
    · rw [if_pos ⟨hge, hin⟩, if_pos (by omega), List.getD_append_right _ _ _ _ (by omega),
        Nat.sub_sub]
    · rw [if_neg (by omega), if_neg (by omega), fwrite_of_notMem (Or.inr hge)]

/-- The file lies on the disk from `offset` on, and nothing else has changed. -/
theorem copyFile_bytes (disk : Disk) (offset : ℕ) (rest : List UInt8) (x : ℕ) :
    (copyFile disk offset rest).1.bytes x =
      if offset ≤ x ∧ x < offset + rest.length then rest.getD (x - offset) 0
      else disk.bytes x := by
  induction disk, offset, rest using copyFile.induct with
  | case1 disk offset =>
    rw [copyFile, if_pos rfl, if_neg]
    rw [List.length_nil]
    omega
  | case2 disk offset rest hne buffer ih =>
    rw [copyFile, if_neg hne]
    dsimp only
    rw [ih, fwrite_append, List.take_append_drop]

theorem copyFile_size {disk : Disk} {offset : ℕ} (rest : List UInt8) (h : offset ≤ disk.size) :
    (copyFile disk offset rest).1.size = max disk.size (offset + rest.length) := by
  induction disk, offset, rest using copyFile.induct with
  | case1 disk offset =>
    rw [copyFile, if_pos rfl, List.length_nil, Nat.add_zero, max_eq_left h]
  | case2 disk offset rest hne buffer ih =>
    have hsplit : buffer.length + (rest.drop bufferSize).length = rest.length := by
      rw [← List.length_append, List.take_append_drop]
    have hpos : 0 < buffer.length := by
      have hlength := List.length_pos_iff.mpr hne
      rw [List.length_take, bufferSize]
      omega
    have hsize : (disk.fwrite offset (fun i => buffer.getD i 0) buffer.length).size =
        max disk.size (offset + buffer.length) := if_neg (by omega)
    rw [copyFile, if_neg hne]
    dsimp only
    rw [ih (by omega), hsize]
    omega

theorem numUsed_congr {dir dir' : Mem} (h : ∀ x < 4096, dir' x = dir x) :
    numUsed dir' = numUsed dir := by
  refine numUsed_eq (numUsed_le dir) (fun i hi => ?_) fun hlt => ?_
  · have hle := numUsed_le dir
    rw [h _ (by omega)]
    exact ne_zero_of_used hi
  · rw [h _ (by omega)]
    exact mark_of_used hlt

/-- The boot loader and the kernel behind it, on a disk of which only the boot sector was written.
-/
theorem copyFile_twice {disk : Disk} {mbr : List UInt8} (boot kernel : List UInt8)
    (hsize : 8192 ≤ disk.size) (hmbr : 512 ≤ mbr.length) :
    let image := (copyFile (copyFile (disk.fwrite 0 (fun i => mbr.getD i 0) 512) 8192 boot).1
      (8192 + boot.length) kernel).1
    Holds image.bytes 0 (mbr.take 512) ∧ Holds image.bytes 8192 (boot ++ kernel) ∧
      image.size = max disk.size (8192 + (boot ++ kernel).length) ∧
      ∀ x, 512 ≤ x → x < 8192 → image.bytes x = disk.bytes x := by
  intro image
  have hlow : ∀ x < 8192, image.bytes x = (disk.fwrite 0 (fun i => mbr.getD i 0) 512).bytes x := by
    intro x hx
    rw [copyFile_bytes, if_neg (by omega), copyFile_bytes, if_neg (by omega)]
  refine ⟨?_, ?_, ?_, fun x hle hlt => ?_⟩
  · rw [holds_iff_getElem]
    intro i hi
    rw [List.length_take] at hi
    rw [hlow _ (by omega), fwrite_of_mem (by omega) (by omega), Nat.zero_add, Nat.sub_zero,
      List.getD_eq_getElem _ _ (by omega), List.getElem_take]
  · rw [holds_append]
    constructor
    · rw [holds_iff_getElem]
      intro i hi
      rw [copyFile_bytes, if_neg (by omega), copyFile_bytes, if_pos (by omega),
        Nat.add_sub_cancel_left, List.getD_eq_getElem _ _ hi]
    · rw [holds_iff_getElem]
      intro i hi
      rw [copyFile_bytes, if_pos (by omega), Nat.add_sub_cancel_left,
        List.getD_eq_getElem _ _ hi]
  · have hfirst : (disk.fwrite 0 (fun i => mbr.getD i 0) 512).size = disk.size :=
      size_fwrite (by omega)
    have hboot := copyFile_size boot (hsize.trans_eq hfirst.symm)
    rw [copyFile_size kernel (by omega), hboot, hfirst, List.length_append]
    omega
  · rw [hlow x hlt, fwrite_of_notMem (Or.inr hle)]

/-- The image: the boot sector in front, the boot loader and the kernel from 8192 on, and in between
a formatted disk without files. -/
theorem initializeDisk_holds {size mbr boot kernel : List UInt8} {disk : Disk}
    (h : initializeDisk size (some (some mbr)) (some (some boot)) (some (some kernel)) = .ok disk) :
    Holds disk.bytes 0 (mbr.take 512) ∧ Holds disk.bytes 8192 (boot ++ kernel) ∧
      (∃ diskSize, diskSizeOf size = .ok diskSize ∧
        disk.size = max diskSize (8192 + (boot ++ kernel).length)) ∧
      (disk.size < 2 ^ 52 → disk.Valid ∧ disk.files = fun _ => none) := by
  rw [initializeDisk] at h
  rcases hdiskSize : diskSizeOf size with e | diskSize
  · rw [hdiskSize] at h
    exact absurd h (by simp [bind, Except.bind])
  · have hmin : 6291456 ≤ diskSize := minimumDiskSize_le hdiskSize
    have hlong : 512 ≤ mbr.length := by
      by_contra hshort
      rw [hdiskSize] at h
      simp [bind, Except.bind, fopen, writeMbr, hshort] at h
    have himage : (copyFile (copyFile ((format (Disk.blank diskSize).open).1.disk.fwrite 0
        (fun i => mbr.getD i 0) 512) 8192 boot).1 (8192 + boot.length) kernel).1 = disk := by
      rw [hdiskSize] at h
      simpa [bind, Except.bind, fopen, writeMbr, hlong, copyFile_offset] using h
    have hblank : (Disk.blank diskSize).size = diskSize := rfl
    have hsize := size_format (show 8192 ≤ (Disk.blank diskSize).size by omega)
    have hlarge : 8192 ≤ (format (Disk.blank diskSize).open).1.disk.size := by omega
    obtain ⟨hmbr, hboot, himagesize, hkept⟩ := copyFile_twice boot kernel hlarge hlong
    rw [himage] at hmbr hboot himagesize hkept
    rw [hsize, hblank] at himagesize
    refine ⟨hmbr, hboot, ⟨diskSize, rfl, himagesize⟩, fun hlt => ?_⟩
    have hblocks : ∀ d : Disk, 6291456 ≤ d.size → d.size < 2 ^ 52 → 2 ≤ d.numBlocks := by
      intro d hle hlt
      show 2 ≤ d.size / 1048576 % 2 ^ 32 / 2
      omega
    obtain ⟨hvalid, hempty, -, -⟩ := format_spec (hblocks (Disk.blank diskSize) hmin (by omega))
    have hused : numUsed disk.dir = 0 := by
      rw [← hempty]
      apply numUsed_congr
      intro x hx
      show (if x < 4096 then disk.bytes (4096 + x) else 0) = if x < 4096 then _ else 0
      rw [if_pos hx, if_pos hx, hkept _ (by omega) (by omega)]
    have hvalid' : disk.Valid := by
      refine ⟨?_, hblocks disk (by omega) hlt, sound_of_empty hused⟩
      rw [isBMFS_congr fun x hle hlt => hkept x (by omega) (by omega)]
      exact hvalid.tagged
    exact ⟨hvalid', hvalid'.files_of_empty hused⟩

theorem initializeDisk_ok {ds : List ℕ} {tail mbr : List UInt8} {f : ℕ} (boot kernel : List UInt8)
    (hne : ds ≠ []) (hds : ∀ d ∈ ds, d < 10) (hunit : IsUnit tail f)
    (hmin : minimumDiskSize ≤ Numerals.value 10 ds * 1024 ^ f)
    (hlt : Numerals.value 10 ds * 1024 ^ f < 2 ^ 64) (hmbr : 512 ≤ mbr.length) :
    ∃ disk, initializeDisk (ds.map digitChar ++ tail) (some (some mbr)) (some (some boot))
      (some (some kernel)) = .ok disk := by
  rw [initializeDisk, diskSizeOf_numeral hne hds hunit hlt hmin]
  simp [bind, Except.bind, fopen, writeMbr, hmbr]

/-- For a size with a unit, a boot sector that is long enough and files that fit, `initialize` makes
that image. -/
theorem initializeDisk_exact {ds : List ℕ} {tail mbr boot kernel : List UInt8} {f : ℕ}
    (hne : ds ≠ []) (hds : ∀ d ∈ ds, d < 10) (hunit : IsUnit tail f)
    (hmin : minimumDiskSize ≤ Numerals.value 10 ds * 1024 ^ f)
    (hlt : Numerals.value 10 ds * 1024 ^ f < 2 ^ 52) (hmbr : 512 ≤ mbr.length)
    (hfiles : 8192 + (boot ++ kernel).length < 2 ^ 52) :
    ∃ disk, initializeDisk (ds.map digitChar ++ tail) (some (some mbr)) (some (some boot))
        (some (some kernel)) = .ok disk ∧
      Holds disk.bytes 0 (mbr.take 512) ∧ Holds disk.bytes 8192 (boot ++ kernel) ∧
      disk.size = max (Numerals.value 10 ds * 1024 ^ f) (8192 + (boot ++ kernel).length) ∧
      disk.Valid ∧ disk.files = fun _ => none := by
  have hsize := diskSizeOf_numeral hne hds hunit (by omega) hmin
  obtain ⟨disk, hdisk⟩ := initializeDisk_ok boot kernel hne hds hunit hmin (by omega) hmbr
  obtain ⟨hsector, hboot, ⟨diskSize, hdiskSize, hmax⟩, hvalid⟩ := initializeDisk_holds hdisk
  obtain rfl : Numerals.value 10 ds * 1024 ^ f = diskSize :=
    Except.ok.inj (hsize.symm.trans hdiskSize)
  obtain ⟨hvalid, hnone⟩ := hvalid (by omega)
  exact ⟨disk, hdisk, hsector, hboot, hmax, hvalid, hnone⟩

/-- A disk of 6M, as small as it may be. -/
theorem initializeDisk_exact_six :
    ∃ disk, initializeDisk [0x36, 0x4D] (some (some (List.replicate 512 0xFA)))
        (some (some [0xFA, 0x66, 0x31, 0xC0])) (some (some [1, 2, 3])) = .ok disk ∧
      Holds disk.bytes 0 ((List.replicate 512 0xFA).take 512) ∧
      Holds disk.bytes 8192 ([0xFA, 0x66, 0x31, 0xC0] ++ [1, 2, 3]) ∧
      disk.size = max (Numerals.value 10 [6] * 1024 ^ 2) (8192 + 7) ∧
      disk.Valid ∧ disk.files = fun _ => none :=
  @initializeDisk_exact [6] [0x4D] (List.replicate 512 0xFA) [0xFA, 0x66, 0x31, 0xC0] [1, 2, 3] 2
    (by decide) (by decide) (Or.inr ⟨0x4D, rfl, by decide, by decide⟩) (by decide) (by decide)
    (by rw [List.length_replicate]) (by decide)

end TronKernel.Bmfs
