import TronKernel.Bmfs.Files

/-!
# The commands on a valid disk

Each command that changes the disk changes one record of the directory, and `write` the bytes of one
file. So the disk stays valid, and of the files only the one named changes (`delete_spec`,
`write_spec`, `create_spec`).
-/

namespace TronKernel.Bmfs

open Mem FirstFit

variable {disk : Disk} {s : Session} {name : Name} {qsort : Qsort} {r : BMFSEntry × ℕ}
  {contents : List UInt8} {m : Mem} {bs : List UInt8} {a i x : ℕ}

/-- The bytes that no command but `format` may change: those in front of the directory, the ones up
to the first block for files, and the last block with what is behind it. -/
def Foreign (disk : Disk) (x : ℕ) : Prop :=
  x < 4096 ∨ 8192 ≤ x ∧ x < 2097152 ∨ (disk.numBlocks - 1) * 2097152 ≤ x

/-- What holds of the disk after a command that changed its files to `files`. -/
structure Leaves (disk : Disk) (files : Store) (disk' : Disk) : Prop where
  valid : disk'.Valid
  files_eq : disk'.files = files
  size : disk'.size = disk.size
  foreign : ∀ x, Foreign disk x → disk'.bytes x = disk.bytes x

/-- A command that changed one record, and at most the bytes of its file. -/
theorem leaves_of_changes {files : Store} (h : disk.Valid)
    (hc : Changes disk.dir s.flush.disk.dir i)
    (hplaced : Placed disk.numBlocks (entryAt s.flush.disk.dir i).span)
    (hrecord : s.flush.disk.dir (64 * i) = 0x01 ∨ ∃ name, IsFile s.flush.disk.dir i name ∧
      ∀ j < numUsed disk.dir, j ≠ i → disk.dir (64 * j) ≠ 0x01 →
        Apart (entryAt s.flush.disk.dir i).span (entryAt disk.dir j).span ∧
          ¬ IsFile disk.dir j name)
    (hsize : s.disk.size = disk.size)
    (hbytes : ∀ x, s.disk.bytes x = disk.bytes x ∨ s.flush.disk.dir (64 * i) ≠ 0x01 ∧
      (entryAt s.flush.disk.dir i).span.start * 2097152 ≤ x ∧
        x < (entryAt s.flush.disk.dir i).span.stop * 2097152)
    (hnew : ∀ n, IsFile s.flush.disk.dir i n →
      files n = some (s.flush.disk.fileOf (entryAt s.flush.disk.dir i)))
    (hgone : ∀ n, ¬ IsFile s.flush.disk.dir i n → i < numUsed disk.dir → IsFile disk.dir i n →
      files n = none)
    (hother : ∀ n, ¬ IsFile s.flush.disk.dir i n →
      (i < numUsed disk.dir → ¬ IsFile disk.dir i n) → files n = disk.files n) :
    Leaves disk files s.flush.disk := by
  have hlarge := h.size_le
  have hblocks := h.blocks
  have hlow := hplaced.low
  have hhigh := hplaced.high
  have hsize' : s.flush.disk.size = disk.size := (size_flush (by omega)).trans hsize
  have hkept : ∀ x, Foreign disk x → s.flush.disk.bytes x = disk.bytes x := by
    intro x hx
    rw [bytes_flush (by unfold Foreign at hx; omega)]
    rcases hbytes x with hsame | ⟨-, hle, hlt⟩
    · exact hsame
    · unfold Foreign at hx
      omega
  have hvalid : s.flush.disk.Valid := by
    have hnum := numBlocks_congr hsize'
    refine ⟨?_, ?_, ?_⟩
    · rw [isBMFS_congr fun x _ hlt => hkept x (Or.inl (by omega))]
      exact h.tagged
    · rw [hnum]
      exact h.blocks
    · rw [hnum]
      exact h.sound.set hc hplaced hrecord
  -- the blocks of the other files are as they were
  have hdata : ∀ j < numUsed disk.dir, j ≠ i → disk.dir (64 * j) ≠ 0x01 →
      contentsOf s.flush.disk (entryAt disk.dir j) = contentsOf disk (entryAt disk.dir j) := by
    intro j hj hne hkeptj
    have hplacedj := h.sound.placed j hj
    have hlowj := hplacedj.low
    obtain ⟨n, hfile⟩ := (h.sound.file j hj).resolve_left hkeptj
    apply contentsOf_congr hplacedj hfile.fits hsize'
    intro x hle hlt
    rw [bytes_flush (by omega)]
    rcases hbytes x with hsame | ⟨hkept, hle', hlt'⟩
    · exact hsame
    · obtain ⟨n, -, hapart⟩ := hrecord.resolve_left hkept
      rcases (hapart j hj hne hkeptj).1 with hbefore | hbehind
      · omega
      · omega
  refine ⟨hvalid, funext fun n => ?_, hsize', hkept⟩
  obtain ⟨hnew', hgone', hother'⟩ := files_changed n h hvalid hc hdata
  by_cases hfile : IsFile s.flush.disk.dir i n
  · rw [hnew' hfile, hnew n hfile]
  · by_cases hold : i < numUsed disk.dir ∧ IsFile disk.dir i n
    · rw [hgone' hfile hold.1 hold.2, hgone n hfile hold.1 hold.2]
    · have hold : i < numUsed disk.dir → ¬ IsFile disk.dir i n := fun hi hn => hold ⟨hi, hn⟩
      rw [hother' hfile hold, hother n hfile hold]

/-! ## `delete` -/

theorem leaves_delete (h : disk.Valid) (hi : i < numUsed disk.dir) (hfile : IsFile disk.dir i name)
    (hdisk : s.disk = disk) (hDirectory : s.Directory = Function.update disk.dir (64 * i) 0x01) :
    Leaves disk (Function.update disk.files name none) s.flush.disk := by
  have hle := numUsed_le disk.dir
  have hdir : ∀ x < 4096, s.flush.disk.dir x = Function.update disk.dir (64 * i) 0x01 x :=
    fun x hx => (dir_flush hx).trans (congrFun hDirectory x)
  have hself : s.flush.disk.dir (64 * i) = 0x01 := by
    rw [hdir _ (by omega), Function.update_self]
  have hc : Changes disk.dir s.flush.disk.dir i := by
    apply changes_of_used hi
    · rw [hself]
      decide
    · intro x hx hout
      rw [hdir x hx, Function.update_of_ne (by omega)]
  have hspan : (entryAt s.flush.disk.dir i).span = (entryAt disk.dir i).span := by
    apply span_congr
    intro x hlow hhigh
    rw [hdir x (by omega), Function.update_of_ne (by omega)]
  have hplaced : Placed disk.numBlocks (entryAt s.flush.disk.dir i).span := by
    rw [hspan]
    exact h.sound.placed i hi
  refine leaves_of_changes h hc hplaced (Or.inl hself) ?_ (fun x => Or.inl ?_) ?_ ?_ ?_
  · rw [hdisk]
  · rw [hdisk]
  · exact fun n hn => absurd hself hn.kept
  · intro n _ _ hn
    rw [hn.unique hfile, Function.update_self]
  · intro n _ hn
    rw [Function.update_of_ne]
    rintro rfl
    exact hn hi hfile

theorem delete_spec (h : disk.Valid) (hr : findfile disk.dir name = some r) :
    Leaves disk (Function.update disk.files name none) (delete disk.open name).1.disk ∧
      (delete disk.open name).2 = .complete := by
  obtain ⟨hi, hfile, -⟩ := (findfile_eq_some_iff h.sound).mp hr
  rw [delete, show findfile disk.open.Directory name = some (r.1, r.2) from hr]
  exact ⟨leaves_delete h hi hfile rfl rfl, rfl⟩

/-! ## `write` -/

theorem map_range_getD (l : List UInt8) : ((List.range l.length).map fun t => l.getD t 0) = l := by
  apply List.ext_getElem
  · rw [List.length_map, List.length_range]
  · intro t ht ht'
    rw [List.getElem_map, List.getElem_range, List.getD_eq_getElem?_getD,
      List.getElem?_eq_getElem ht', Option.getD_some]

/-- The multiplications by the size of a block do not overflow. -/
theorem mul_mod_of_valid (h : disk.Valid) (hi : i < numUsed disk.dir) :
    (entryAt disk.dir i).StartingBlock * 2097152 % 2 ^ 64 =
        (entryAt disk.dir i).StartingBlock * 2097152 ∧
      (entryAt disk.dir i).ReservedBlocks * 2097152 % 2 ^ 64 =
        (entryAt disk.dir i).ReservedBlocks * 2097152 := by
  have hstop : (entryAt disk.dir i).StartingBlock + (entryAt disk.dir i).ReservedBlocks ≤
    disk.numBlocks - 1 := (h.sound.placed i hi).high
  have hlt := numBlocks_lt disk
  exact ⟨Nat.mod_eq_of_lt (by omega), Nat.mod_eq_of_lt (by omega)⟩

theorem write_full (h : disk.Valid) (hr : findfile disk.dir name = some r)
    (hfull : r.1.ReservedBlocks * 2097152 < contents.length) :
    write disk.open name (some contents) = (disk.open, .notEnoughSpace) := by
  obtain ⟨hi, -, hentry⟩ := (findfile_eq_some_iff h.sound).mp hr
  rw [hentry, ← (mul_mod_of_valid h hi).2, ← hentry] at hfull
  rw [write, show findfile disk.open.Directory name = some (r.1, r.2) from hr]
  exact if_pos hfull

/-- The bytes of a file end on the disk. -/
theorem block_end_le {e : BMFSEntry} (hplaced : Placed disk.numBlocks e.span) :
    e.StartingBlock * 2097152 + e.ReservedBlocks * 2097152 ≤ disk.size := by
  rw [← Nat.add_mul]
  exact (Nat.mul_le_mul_right _ (hplaced.high.trans (Nat.sub_le _ _))).trans (numBlocks_le disk)

/-- A record in which only the size of the file is written anew. -/
theorem written_record {dir dir' : Mem} {size : ℕ} (hi : i < numUsed dir)
    (hfile : IsFile dir i name) (hlen : size < 2 ^ 31)
    (hfits : size ≤ (entryAt dir i).ReservedBlocks * 2097152)
    (hdir : ∀ x < 4096, dir' x = store64 dir (64 * i + 48) size x) :
    Changes dir dir' i ∧ (entryAt dir' i).span = (entryAt dir i).span ∧
      (entryAt dir' i).FileSize = size ∧ IsFile dir' i name := by
  have hle := numUsed_le dir
  have hsame : ∀ x < 4096, x < 64 * i + 48 ∨ 64 * i + 56 ≤ x → dir' x = dir x :=
    fun x hx hout => (hdir x hx).trans (store64_frame (by omega))
  have hhead : dir' (64 * i) = dir (64 * i) := hsame _ (by omega) (by omega)
  have hspan : (entryAt dir' i).span = (entryAt dir i).span :=
    span_congr fun x hlow hhigh => hsame x (by omega) (by omega)
  have hFileSize : (entryAt dir' i).FileSize = size := by
    have hload : load64 dir' (64 * i + 48) =
        load64 (store64 dir (64 * i + 48) size) (64 * i + 48) :=
      loadLE_congr fun x hlow hhigh => hdir x (by omega)
    exact hload.trans (load64_store64_self _ _ (by omega))
  have hshort := hfile.short
  refine ⟨changes_of_used hi ?_ fun x hx hout => hsame x hx (by omega), hspan, hFileSize,
    ⟨hfile.string.1.congr fun x hlow hhigh => ?_, hfile.string.2⟩, hshort, ?_, ?_, ?_, ?_⟩
  · rw [hhead]
    exact hfile.used
  · rw [List.length_append, List.length_singleton] at hhigh
    exact hsame x (by omega) (by omega)
  · rw [hhead]
    exact hfile.used
  · rw [hhead]
    exact hfile.kept
  · rw [hFileSize, reserved_of_span hspan]
    exact hfits
  · rw [hFileSize]
    exact hlen

theorem leaves_write (h : disk.Valid) (hi : i < numUsed disk.dir) (hfile : IsFile disk.dir i name)
    (hlen : contents.length < 2 ^ 31)
    (hfits : contents.length ≤ (entryAt disk.dir i).ReservedBlocks * 2097152)
    (hdisk : s.disk = disk.fwrite ((entryAt disk.dir i).StartingBlock * 2097152)
      (fun t => contents.getD t 0) contents.length)
    (hDirectory : s.Directory = store64 disk.dir (64 * i + 48) contents.length) :
    Leaves disk (Function.update disk.files name
      (some ⟨(entryAt disk.dir i).ReservedBlocks, contents⟩)) s.flush.disk := by
  have hplaced := h.sound.placed i hi
  have hinside := block_end_le hplaced
  obtain ⟨hc, hspan, hFileSize, hfile'⟩ := written_record hi hfile hlen hfits
    fun x hx => (dir_flush hx).trans (congrFun hDirectory x)
  have hreserved := reserved_of_span hspan
  have hsize : s.disk.size = disk.size := by
    rw [hdisk]
    exact size_fwrite (by omega)
  have hplaced' : Placed disk.numBlocks (entryAt s.flush.disk.dir i).span := by
    rw [hspan]
    exact hplaced
  have hstart : (entryAt disk.dir i).span.start = (entryAt disk.dir i).StartingBlock := rfl
  have hstop : (entryAt disk.dir i).span.stop * 2097152 =
      (entryAt disk.dir i).StartingBlock * 2097152 +
        (entryAt disk.dir i).ReservedBlocks * 2097152 :=
    Nat.add_mul _ _ _
  refine leaves_of_changes h hc hplaced' (Or.inr ⟨name, hfile', fun j hj hne hkept => ?_⟩) hsize
    (fun x => ?_) ?_ ?_ ?_
  · rw [hspan]
    exact ⟨h.sound.apart i hi j hj hfile.kept hkept (Ne.symm hne),
      fun hfilej => hne (h.sound.distinct j hj i hi name hfilej hfile)⟩
  · rw [hspan, hstart, hstop, hdisk]
    by_cases hx : (entryAt disk.dir i).StartingBlock * 2097152 ≤ x ∧
        x < (entryAt disk.dir i).StartingBlock * 2097152 + contents.length
    · exact Or.inr ⟨hfile'.kept, hx.1, by omega⟩
    · exact Or.inl (fwrite_of_notMem (by omega))
  · intro n hn
    have hnum : s.flush.disk.numBlocks = disk.numBlocks :=
      numBlocks_congr ((size_flush (by rw [hsize]; have := h.size_le; omega)).trans hsize)
    have hcontents : contentsOf s.flush.disk (entryAt s.flush.disk.dir i) = contents := by
      rw [contentsOf_eq (hnum ▸ hplaced') hfile'.fits hfile'.size_lt, hFileSize]
      refine Eq.trans (List.map_congr_left fun t ht => ?_) (map_range_getD contents)
      have ht := List.mem_range.mp ht
      have hlow : 1 ≤ (entryAt disk.dir i).StartingBlock := hplaced.low
      rw [start_of_span hspan, bytes_flush (by omega), hdisk,
        fwrite_of_mem (Nat.le_add_right _ t) (Nat.add_lt_add_left ht _), Nat.add_sub_cancel_left]
    rw [hn.unique hfile', Function.update_self, Disk.fileOf, hreserved, hcontents]
  · exact fun n hn _ hold => absurd (hold.unique hfile ▸ hfile') hn
  · intro n hn _
    rw [Function.update_of_ne]
    rintro rfl
    exact hn hfile'

theorem write_spec (h : disk.Valid) (hr : findfile disk.dir name = some r)
    (hlen : contents.length < 2 ^ 31) (hfits : contents.length ≤ r.1.ReservedBlocks * 2097152) :
    Leaves disk (Function.update disk.files name (some ⟨r.1.ReservedBlocks, contents⟩))
        (write disk.open name (some contents)).1.disk ∧
      (write disk.open name (some contents)).2 = .complete := by
  obtain ⟨hi, hfile, hentry⟩ := (findfile_eq_some_iff h.sound).mp hr
  have hmod := mul_mod_of_valid h hi
  have hrounds : rounds contents.length = contents.length := Nat.min_eq_left (by omega)
  rw [hentry] at hfits ⊢
  have hroom : ¬ (entryAt disk.dir r.2).ReservedBlocks * 2097152 % 2 ^ 64 < contents.length := by
    rw [hmod.2]
    omega
  rw [write, show findfile disk.open.Directory name = some (entryAt disk.dir r.2, r.2) by
    rw [← hentry]; exact hr]
  dsimp only
  rw [if_neg hroom, hmod.1, hrounds]
  exact ⟨leaves_write h hi hfile hlen hfits rfl rfl, rfl⟩

/-! ## `create` -/

/-- A name that fits into a record and marks it as one in use. -/
structure Proper (name : Name) : Prop where
  ne_nil : name.bytes ≠ []
  head : name.bytes.headD 0 ≠ 0x01
  short : name.bytes.length < 32

instance (name : Name) : Decidable (Proper name) :=
  decidable_of_iff (name.bytes ≠ [] ∧ name.bytes.headD 0 ≠ 0x01 ∧ name.bytes.length < 32)
    ⟨fun h => ⟨h.1, h.2.1, h.2.2⟩, fun h => ⟨h.ne_nil, h.head, h.short⟩⟩

theorem strcpy_frame (h : x < a ∨ a + bs.length < x) : strcpy m a bs x = m x := by
  induction bs generalizing m a with
  | nil =>
    rw [List.length_nil] at h
    exact Function.update_of_ne (by omega) _ _
  | cons b bs ih =>
    rw [List.length_cons] at h
    rw [strcpy, ih (by omega), Function.update_of_ne (by omega)]

theorem holds_strcpy : Holds (strcpy m a bs) a (bs ++ [0]) := by
  induction bs generalizing m a with
  | nil => exact ⟨Function.update_self _ _ _, trivial⟩
  | cons b bs ih =>
    refine ⟨?_, ih⟩
    rw [strcpy, strcpy_frame (by omega), Function.update_self]

section AddRecord

variable {dir : Mem} {slot start blocksRequested : ℕ}

theorem addRecord_frame (hname : name.bytes.length < 32) (h : x < 64 * slot ∨ 64 * slot + 56 ≤ x) :
    addRecord dir slot start blocksRequested name x = dir x := by
  rw [addRecord, strcpy_frame (by omega), store64_frame (by omega), store64_frame (by omega),
    store64_frame (by omega)]

/-- The words behind the name. -/
theorem load64_addRecord (dir : Mem) (slot : ℕ) (hname : name.bytes.length < 32)
    (hstart : start < 2 ^ 64)
    (hblocks : blocksRequested < 2 ^ 64) :
    load64 (addRecord dir slot start blocksRequested name) (64 * slot + 32) = start ∧
      load64 (addRecord dir slot start blocksRequested name) (64 * slot + 40) = blocksRequested ∧
      load64 (addRecord dir slot start blocksRequested name) (64 * slot + 48) = 0 := by
  have hbehind : ∀ m o, 32 ≤ o →
      load64 (strcpy m (64 * slot) name.bytes) (64 * slot + o) = load64 m (64 * slot + o) :=
    fun m o ho => loadLE_congr fun x _ _ => strcpy_frame (by omega)
  refine ⟨?_, ?_, ?_⟩
  · rw [addRecord, hbehind _ 32 le_rfl, load64_store64_of_disjoint (by omega),
      load64_store64_of_disjoint (by omega), load64_store64_self _ _ hstart]
  · rw [addRecord, hbehind _ 40 (by omega), load64_store64_of_disjoint (by omega),
      load64_store64_self _ _ hblocks]
  · rw [addRecord, hbehind _ 48 (by omega), load64_store64_self _ _ (by omega)]

end AddRecord

variable {start blocksRequested : ℕ}

/-- The directory with the new record. -/
theorem changes_created (hname : Proper name) (hle : i ≤ numUsed disk.dir) (hlt : i < 64)
    (hstart : start < 2 ^ 64) (hblocks : blocksRequested < 2 ^ 64) (hDirectory : s.Directory =
      if i = numUsed disk.dir ∧ numUsed disk.dir + 1 < 64 then
        Function.update (addRecord disk.dir i start blocksRequested name)
          (64 * (numUsed disk.dir + 1)) 0x00
      else addRecord disk.dir i start blocksRequested name) :
    Changes disk.dir s.flush.disk.dir i ∧
      (entryAt s.flush.disk.dir i).span = ⟨start, blocksRequested⟩ ∧
      (entryAt s.flush.disk.dir i).FileSize = 0 ∧ IsFile s.flush.disk.dir i name := by
  have hused := numUsed_le disk.dir
  have hshort := hname.short
  obtain ⟨hstart, hreserved, hsize⟩ := load64_addRecord disk.dir i hshort
    hstart hblocks
  -- the record itself is the new one, every other record is as it was
  have hrecord : ∀ x < 4096, 64 * i ≤ x → x < 64 * i + 64 →
      s.flush.disk.dir x = addRecord disk.dir i start blocksRequested name x := by
    intro x hx hlow hhigh
    rw [dir_flush hx, hDirectory]
    split_ifs with hmark
    · exact Function.update_of_ne (by omega) _ _
    · rfl
  have hother : ∀ j < numUsed disk.dir, j ≠ i → ∀ x, 64 * j ≤ x → x < 64 * j + 64 →
      s.flush.disk.dir x = disk.dir x := by
    intro j hj hne x hlow hhigh
    rw [dir_flush (by omega), hDirectory]
    split_ifs with hmark
    · rw [Function.update_of_ne (by omega), addRecord_frame hshort (by omega)]
    · exact addRecord_frame hshort (by omega)
  have hword : ∀ o, o ≤ 56 → load64 s.flush.disk.dir (64 * i + o) =
      load64 (addRecord disk.dir i start blocksRequested name) (64 * i + o) :=
    fun o ho => loadLE_congr fun x hlow hhigh => hrecord x (by omega) (by omega) (by omega)
  have hspan : (entryAt s.flush.disk.dir i).span = ⟨start, blocksRequested⟩ := by
    rw [BMFSEntry.span, entryAt, hword 32 (by omega), hword 40 (by omega), hstart, hreserved]
  have hFileSize : (entryAt s.flush.disk.dir i).FileSize = 0 := (hword 48 (by omega)).trans hsize
  have hstring : CString s.flush.disk.dir (64 * i) name.bytes := by
    have hadded : Holds (addRecord disk.dir i start blocksRequested name) (64 * i)
        (name.bytes ++ [0]) := holds_strcpy
    refine ⟨hadded.congr fun x hlow hhigh => ?_, name.no_nul⟩
    rw [List.length_append, List.length_singleton] at hhigh
    exact hrecord x (by omega) hlow (by omega)
  obtain ⟨c, cs, hbytes⟩ := List.exists_cons_of_ne_nil hname.ne_nil
  have hhead : s.flush.disk.dir (64 * i) = c := by
    have hholds := hstring.1
    rw [hbytes] at hholds
    exact hholds.1
  have hc0 : c ≠ 0 := by
    rintro rfl
    exact name.no_nul (hbytes ▸ List.mem_cons_self)
  have hc1 : c ≠ 0x01 := by
    have hhead1 := hname.head
    rwa [hbytes] at hhead1
  have hfile : IsFile s.flush.disk.dir i name :=
    ⟨hstring, hshort, hhead ▸ hc0, hhead ▸ hc1, by omega, by omega⟩
  refine ⟨⟨hle, hlt, hother, hfile.used, fun hmax => ?_⟩, hspan, hFileSize, hfile⟩
  rcases Nat.lt_or_eq_of_le hle with hi | rfl
  · rw [max_eq_left hi] at hmax ⊢
    rw [dir_flush (by omega), hDirectory, if_neg (by omega), addRecord_frame hshort (by omega)]
    exact mark_of_used hmax
  · rw [max_eq_right (Nat.le_succ _)] at hmax ⊢
    rw [dir_flush (by omega), hDirectory, if_pos ⟨rfl, hmax⟩, Function.update_self]

/-- What `create` leaves when it has found a record and a place. -/
theorem leaves_create (h : disk.Valid) (hname : Proper name) (hnone : disk.files name = none)
    (hle : i ≤ numUsed disk.dir) (hlt : i < 64)
    (hfree : i < numUsed disk.dir → disk.dir (64 * i) = 0x01)
    (hroom : Room disk.numBlocks blocksRequested disk.dir start) (hpos : 0 < blocksRequested)
    (hdisk : s.disk = disk) (hDirectory : s.Directory =
      if i = numUsed disk.dir ∧ numUsed disk.dir + 1 < 64 then
        Function.update (addRecord disk.dir i start blocksRequested name)
          (64 * (numUsed disk.dir + 1)) 0x00
      else addRecord disk.dir i start blocksRequested name) :
    Leaves disk (Function.update disk.files name (some ⟨blocksRequested, []⟩)) s.flush.disk := by
  have hnum := numBlocks_lt disk
  have hhigh : start + blocksRequested ≤ disk.numBlocks - 1 := hroom.high
  obtain ⟨hc, hspan, hFileSize, hfile⟩ := changes_created hname hle hlt
    (show start < 2 ^ 64 by omega) (show blocksRequested < 2 ^ 64 by omega) hDirectory
  have hplaced : Placed disk.numBlocks (entryAt s.flush.disk.dir i).span := by
    rw [hspan]
    exact ⟨hroom.low, hroom.high, hpos⟩
  refine leaves_of_changes h hc hplaced (Or.inr ⟨name, hfile, fun j hj hne hkept => ?_⟩) ?_
    (fun x => Or.inl ?_) ?_ ?_ ?_
  · rw [hspan]
    exact ⟨hroom.apart _ (mem_fileSpans.mpr ⟨j, hj, hkept, rfl⟩), h.files_eq_none_iff.mp hnone j hj⟩
  · rw [hdisk]
  · rw [hdisk]
  · intro n hn
    have hcontents : contentsOf s.flush.disk (entryAt s.flush.disk.dir i) = [] := by
      rw [contentsOf, hFileSize]
      rfl
    have hblocks : (entryAt s.flush.disk.dir i).ReservedBlocks = blocksRequested :=
      @reserved_of_span _ ⟨[], start, blocksRequested, 0, 0⟩ hspan
    rw [hn.unique hfile, Function.update_self, Disk.fileOf, hblocks, hcontents]
  · exact fun n _ hi hold => absurd (hfree hi) hold.kept
  · intro n hn _
    rw [Function.update_of_ne]
    rintro rfl
    exact hn hfile

/-- The session of `create` with the new record in the directory. -/
def created (disk : Disk) (i start blocksRequested : ℕ) (name : Name) : Session :=
  { disk.open with
    Directory :=
      if i = numUsed disk.dir ∧ numUsed disk.dir + 1 < 64 then
        Function.update (addRecord disk.dir i start blocksRequested name)
          (64 * (numUsed disk.dir + 1)) 0x00
      else addRecord disk.dir i start blocksRequested name }

/-- The blocks that `create` asks for. -/
def blocksOf (maxsize : ℕ) : ℕ := (maxsize + 1) / 2

variable {maxsize : ℕ}

theorem rounded (maxsize : ℕ) : (if maxsize % 2 ≠ 0 then maxsize + 1 else maxsize) =
    2 * blocksOf maxsize := by
  unfold blocksOf
  split_ifs
  · omega
  · omega

/-- Without a free record `create` gives up. -/
theorem create_full (hnone : disk.files name = none) (hused : numUsed disk.dir = 64)
    (hkept : ∀ i < numUsed disk.dir, disk.dir (64 * i) ≠ 0x01) :
    create qsort disk.open name maxsize = (disk.open, .noFreeEntry) := by
  obtain ⟨r, hcount, hsome, -⟩ := countFrom_eq disk.dir
  have hr : r = none := by
    rcases r with - | i
    · rfl
    · obtain ⟨hlt, -, hdeleted⟩ := hsome i rfl
      exact absurd (hdeleted (by omega)) (hkept i (by omega))
  have hfind : ¬ (findfile disk.open.Directory name).isSome := by
    rw [Option.map_eq_none_iff.mp hnone]
    simp
  rw [create, if_neg hfind, hcount, hr]

/-- With an end of the directory `create` takes a record that is not in use and searches a place. -/
theorem create_eq (qsort : Qsort) (maxsize : ℕ) (hnone : disk.files name = none)
    (hused : numUsed disk.dir < 64) :
    ∃ i < 64, i ≤ numUsed disk.dir ∧ (i < numUsed disk.dir → disk.dir (64 * i) = 0x01) ∧
      create qsort disk.open name maxsize =
        if searchArea disk.numBlocks (blocksOf maxsize)
            (qsort StartingBlockCmp (entries disk.dir)) 1 = 0 then
          (disk.open, .cannotCreate (2 * blocksOf maxsize))
        else
          ((created disk i (searchArea disk.numBlocks (blocksOf maxsize)
            (qsort StartingBlockCmp (entries disk.dir)) 1) (blocksOf maxsize) name).flush,
            .complete) := by
  obtain ⟨r, hcount, hsome, hfull⟩ := countFrom_eq disk.dir
  have hfind : ¬ (findfile disk.open.Directory name).isSome := by
    rw [Option.map_eq_none_iff.mp hnone]
    simp
  have hblocks : 2 * blocksOf maxsize / 2 = blocksOf maxsize := by omega
  rcases r with - | i
  · exact absurd (hfull rfl).1 (by omega)
  · obtain ⟨hlt, hle, hdeleted⟩ := hsome i rfl
    refine ⟨i, hlt, hle, hdeleted, ?_⟩
    rw [create, if_neg hfind, hcount, if_pos hused, rounded]
    dsimp only
    rw [hblocks]
    rfl

end TronKernel.Bmfs
