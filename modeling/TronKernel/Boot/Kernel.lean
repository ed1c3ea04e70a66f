import TronKernel.Bmfs.Initialize
import TronKernel.Boot.Mbr
import TronKernel.Boot.Paging
import TronKernel.Modules.RoundTrip
import TronKernel.Video.Scroll

/-!
# From the disk image to the running kernel

The image that `make` builds is the packed kernel behind Pure64 on a BMFS disk. The boot sector
takes it to 0x60000, Pure64 takes the packed kernel from there to 0x100000, and
`initializeKernelBinary` loads the two modules behind the kernel and then clears the kernel's `bss`,
which is where the packed modules were. `boot_loads` follows the bytes through all of them.
-/

namespace TronKernel.Boot

open Mem Modules

/-! ## The code -/

/-- `rep movsq` -/
def repMovsq : ℕ → ℕ → ℕ → Mem → Mem
  | 0, _, _, m => m
  | rcx + 1, rsi, rdi, m => repMovsq rcx (rsi + 8) (rdi + 8) (store64 m rdi (load64 m rsi))

/-- The trailing binary is moved to its final location. -/
def movePayload (m : Mem) : Mem := repMovsq 0x8000 (0x60000 + 6144) 0x100000 m

/-- The addresses that the linker gives to the kernel. -/
structure Labels where
  endOfKernelBinary : ℕ
  bss : ℕ
  endOfKernel : ℕ

/-- `PageSize` -/
def PageSize : ℕ := 0x1000

/-- `clearBSS` -/
def clearBSS (m : Mem) (bssAddress bssSize : ℕ) : Mem := Video.memset m bssAddress 0 bssSize

/-- `initializeKernelBinary`, up to `initMemoryManager`: `startOfMem` and the memory. It has no
address to begin at where no module was loaded. -/
def initializeKernelBinary (l : Labels) (m : Mem) : Option (ℕ × Mem) := do
  let (endOfModules, m) ← loadModules m l.endOfKernelBinary [0x400000, 0x500000]
  let endOfModules ← endOfModules
  let m := clearBSS m l.bss (l.endOfKernel - l.bss)
  some (endOfModules + PageSize - endOfModules % PageSize, m)

/-- The way from the boot sector to the memory manager. `realMode` is what Pure64 does before
`start32`, and `longMode` what it does between the page tables and the move. -/
def boot (gdt64 : ℕ) (realMode longMode : Mem → Mem) (l : Labels) (disk : Bmfs.Disk) (m : Mem) :
    Option (ℕ × Mem) := do
  let m ← bmfsMbr disk m
  let m ← buildTables gdt64 (realMode m)
  initializeKernelBinary l (movePayload (longMode m))

/-! ## The move -/

variable {m : Mem} {n : ℕ}

theorem repMovsq_eq {rsi rdi : ℕ} (h : rsi + 8 * n ≤ rdi) :
    repMovsq n rsi rdi m = copied m rdi rsi (8 * n) := by
  induction n generalizing rsi rdi m with
  | zero =>
    funext x
    exact (copied_source id).symm
  | succ n ih =>
    have hfirst : store64 m rdi (load64 m rsi) = copied m rdi rsi 8 := by
      funext x
      by_cases hx : rdi ≤ x ∧ x < rdi + 8
      · rw [copied, if_pos hx]
        exact storeLE_loadLE m m rdi rsi 8 x hx.1 hx.2
      · rw [copied, if_neg hx, store64_frame (by omega)]
    have hlength : 8 + 8 * n = 8 * (n + 1) := by omega
    rw [repMovsq, ih (by omega), hfirst, copied_copied (by omega), hlength]

/-- The packed kernel behind Pure64 gets to 0x100000. -/
theorem movePayload_holds {pure64 packed : List UInt8} (hlength : pure64.length = 6144)
    (hfits : (pure64 ++ packed).length ≤ 0x40000) (h : Holds m 0x60000 (pure64 ++ packed)) :
    Holds (movePayload m) 0x100000 packed := by
  have hpacked := (holds_append.mp h).2
  rw [hlength] at hpacked
  rw [List.length_append, hlength] at hfits
  apply hpacked.copy
  intro x hx
  have hwords : 8 * 0x8000 = 0x40000 := rfl
  rw [movePayload, repMovsq_eq (by decide), hwords]
  exact copied_dest (by omega)

/-! ## The kernel -/

/-- The loader on a memory that holds the image of the packer. -/
theorem loadModules_held {a : ℕ} {kernel : List UInt8} {loads : List Placed} (hne : loads ≠ [])
    (hfew : loads.length < 2 ^ 32) (hsize : ∀ p ∈ loads, p.file.length < 2 ^ 32)
    (hheld : Holds m a (image kernel (filesOf loads)))
    (hapart : loads.Pairwise fun p q => Disjoint p.range q.range)
    (hspares : SparesUnread (a + (image kernel (filesOf loads)).length)
      (a + kernel.length + sizeofUint32) loads) :
    ∃ m', loadModules m (a + kernel.length) (loads.map Placed.target) =
        some (some (loads.getLast hne).stop, m') ∧
      (∀ p ∈ loads, Holds m' p.target p.file) ∧
      ∀ x, (∀ p ∈ loads, x ∉ p.range) → m' x = m x := by
  obtain ⟨hcount, hentries⟩ := holds_append.mp (holds_append.mp hheld).2
  rw [length_bytesLE] at hentries
  have hword : loadLE m (a + kernel.length) 4 = loads.length := by
    rw [hcount.loadLE, filesOf, List.length_map]
    exact Nat.mod_eq_of_lt hfew
  have hend : a + (image kernel (filesOf loads)).length =
      a + kernel.length + 4 + (entries (filesOf loads)).length := by
    simp only [image, List.length_append, length_bytesLE]
    ring
  rw [hend] at hspares
  obtain ⟨m', hrun, hloaded, hframe⟩ := loadRest_eq none hsize hentries hapart hspares
  refine ⟨m', ?_, hloaded, hframe⟩
  simp only [loadModules, readUint32, sizeofUint32, hword]
  rw [hrun, foldl_stop none hne]

/-- The addresses as the linker lays them out: `bss` behind the binary, and all of the kernel below
the modules. -/
structure Labels.Linked (l : Labels) (kernel : List UInt8) : Prop where
  binary : l.endOfKernelBinary = 0x100000 + kernel.length
  bss : l.endOfKernelBinary ≤ l.bss
  endOfKernel : l.bss ≤ l.endOfKernel
  modules : l.endOfKernel ≤ 0x400000

/-- What the kernel finds when it begins: itself, both modules, an empty `bss`, and the page behind
the modules, where the memory manager begins. -/
structure Loaded (l : Labels) (kernel code data : List UInt8) (startOfMem : ℕ) (m : Mem) :
    Prop where
  holds_kernel : Holds m 0x100000 kernel
  bss : ∀ x, l.bss ≤ x → x < l.endOfKernel → m x = 0
  holds_code : Holds m 0x400000 code
  holds_data : Holds m 0x500000 data
  behind : 0x500000 + data.length < startOfMem ∧ startOfMem ≤ 0x500000 + data.length + PageSize
  aligned : startOfMem % PageSize = 0

/-- The two modules, each with its address. -/
def moduleLoads (code data : List UInt8) : List Placed := [⟨0x400000, code⟩, ⟨0x500000, data⟩]

variable {l : Labels} {kernel code data : List UInt8} {x : ℕ}

theorem mem_moduleLoads {p : Placed} :
    p ∈ moduleLoads code data ↔ p = ⟨0x400000, code⟩ ∨ p = ⟨0x500000, data⟩ := by
  rw [moduleLoads, List.mem_cons, List.mem_singleton]

theorem moduleLoads_apart (hcode : code.length ≤ 0x40000) :
    (moduleLoads code data).Pairwise fun p q => Disjoint p.range q.range := by
  rw [moduleLoads, List.pairwise_pair]
  apply Set.disjoint_left.mpr
  intro x hfirst hsecond
  have hlt : x < 0x400000 + code.length := hfirst.2
  have hle : 0x500000 ≤ x := hsecond.1
  omega

/-- The packed kernel lies below both modules. -/
theorem moduleLoads_spare {stop cursor : ℕ} (hstop : stop ≤ 0x400000) :
    SparesUnread stop cursor (moduleLoads code data) := by
  refine ⟨?_, ?_, trivial⟩
  · apply Set.disjoint_left.mpr
    intro x htarget hunread
    exact absurd (htarget.1.trans_lt hunread.2) (Nat.not_lt_of_le hstop)
  · apply Set.disjoint_left.mpr
    intro x htarget hunread
    have hlow : 0x400000 ≤ x := (show 0x400000 ≤ 0x500000 by decide).trans htarget.1
    exact absurd (hlow.trans_lt hunread.2) (Nat.not_lt_of_le hstop)

theorem moduleLoads_above (hx : x < 0x400000) : ∀ p ∈ moduleLoads code data, x ∉ p.range := by
  intro p hp hin
  rcases mem_moduleLoads.mp hp with rfl | rfl
  · exact Nat.lt_irrefl 0x400000 (hin.1.trans_lt hx)
  · have hlt : 0x500000 < 0x400000 := hin.1.trans_lt hx
    exact absurd hlt (by decide)

theorem clearBSS_apply (m : Mem) (h : l.bss ≤ l.endOfKernel) (x : ℕ) :
    clearBSS m l.bss (l.endOfKernel - l.bss) x =
      if l.bss ≤ x ∧ x < l.endOfKernel then 0 else m x := by
  rw [clearBSS, Video.memset_apply, Nat.add_sub_cancel' h]

/-- The kernel loads its modules from behind itself, although `bss` begins there as well. -/
theorem initializeKernelBinary_loads (hlinked : l.Linked kernel)
    (hfits : (image kernel [code, data]).length ≤ 0x40000)
    (hheld : Holds m 0x100000 (image kernel [code, data])) :
    ∃ startOfMem m', initializeKernelBinary l m = some (startOfMem, m') ∧
      Loaded l kernel code data startOfMem m' := by
  have hshort : kernel.length ≤ 0x40000 ∧ code.length ≤ 0x40000 ∧ data.length ≤ 0x40000 := by
    simp only [image, entries, List.flatMap_cons, List.flatMap_nil, List.length_append,
      length_bytesLE, List.length_nil] at hfits
    omega
  obtain ⟨hkernel, hcode, hdata⟩ := hshort
  have hsize : ∀ p ∈ moduleLoads code data, p.file.length < 2 ^ 32 := by
    intro p hp
    rcases mem_moduleLoads.mp hp with rfl | rfl
    · exact hcode.trans_lt (by decide)
    · exact hdata.trans_lt (by decide)
  have hne : moduleLoads code data ≠ [] := List.cons_ne_nil _ _
  have hfew : (moduleLoads code data).length < 2 ^ 32 := show 2 < 2 ^ 32 by decide
  obtain ⟨m₁, hrun, hloaded, hframe⟩ :=
    loadModules_held hne hfew hsize hheld (moduleLoads_apart hcode)
      (moduleLoads_spare ((Nat.add_le_add_left hfits _).trans (by decide)))
  have hcall : loadModules m l.endOfKernelBinary [0x400000, 0x500000] =
      some (some (0x500000 + data.length), m₁) := by
    rw [hlinked.binary]
    exact hrun
  have hbehind : 0x100000 + kernel.length ≤ l.bss := hlinked.binary.symm.trans_le hlinked.bss
  have hbelow := hlinked.modules
  have hclear := clearBSS_apply m₁ hlinked.endOfKernel
  refine ⟨0x500000 + data.length + PageSize - (0x500000 + data.length) % PageSize,
    clearBSS m₁ l.bss (l.endOfKernel - l.bss), ?_, ⟨?_, ?_, ?_, ?_, ?_, ?_⟩⟩
  · simp only [initializeKernelBinary, hcall, Option.bind_eq_bind, Option.bind_some]
  · apply (holds_append.mp hheld).1.congr
    intro x hle hlt
    rw [hclear, if_neg (by omega), hframe x (moduleLoads_above (by omega))]
  · intro x hle hlt
    rw [hclear, if_pos ⟨hle, hlt⟩]
  · apply (hloaded _ (mem_moduleLoads.mpr (Or.inl rfl))).congr
    intro x hle hlt
    have hle : 0x400000 ≤ x := hle
    rw [hclear, if_neg (by omega)]
  · apply (hloaded _ (mem_moduleLoads.mpr (Or.inr rfl))).congr
    intro x hle hlt
    have hle : 0x500000 ≤ x := hle
    rw [hclear, if_neg (by omega)]
  · unfold PageSize
    omega
  · unfold PageSize
    omega

/-! ## The whole way -/

/-- A part of Pure64 leaves the first `n` bytes from 0x60000 on alone. -/
def SparesPayload (n : ℕ) (f : Mem → Mem) : Prop :=
  ∀ m x, 0x60000 ≤ x → x < 0x60000 + n → f m x = m x

theorem length_of_buildImage {files : FileArray} {packed : List UInt8}
    (hfiles : files.array = [kernel, code, data]) (hpacked : buildImage files = some packed) :
    packed.length = kernel.length + code.length + data.length + 12 := by
  have hmodule : ∀ target file : List UInt8,
      (writeModule target file).length = target.length + 4 + file.length := by
    intro target file
    rw [writeModule, writeFile_eq _ _ rfl, writeSize, List.length_append, List.length_append,
      length_bytesLE]
    rfl
  rw [buildImage, hfiles] at hpacked
  obtain rfl := Option.some.inj hpacked
  rw [List.foldl_cons, List.foldl_cons, List.foldl_nil, hmodule, hmodule, List.length_append,
    writeFile_eq _ _ rfl, length_bytesLE]
  show kernel.length + 4 + 4 + code.length + 4 + data.length = _
  omega

theorem buildImage_of_fits {files : FileArray} {packed : List UInt8}
    (hfiles : files.array = [kernel, code, data]) (hpacked : buildImage files = some packed)
    (hfits : packed.length ≤ 0x40000) : packed = image kernel [code, data] := by
  have hlength := length_of_buildImage hfiles hpacked
  have hsize : ∀ file ∈ [code, data], file.length < 2 ^ 32 := by
    intro file hfile
    simp only [List.mem_cons, List.not_mem_nil, or_false] at hfile
    rcases hfile with rfl | rfl
    · omega
    · omega
  exact Option.some.inj (hpacked.symm.trans (buildImage_eq hfiles hsize))

/-- **The image boots.** Let the packer pack a kernel and two modules, and `initialize` make a disk
from the boot sector, Pure64 and the packed kernel. If all of it fits into the 256 KiB that the boot
sector reads, then whatever is in memory, the boot sector gets to Pure64, and when the kernel calls
`initMemoryManager` it is at 1 MiB with its modules at 4 and 5 MiB. -/
theorem boot_loads {files : FileArray} {size mbr pure64 packed : List UInt8} {disk : Bmfs.Disk}
    {realMode longMode : Mem → Mem} (gdt64 : ℕ) (m : Mem)
    (hfiles : files.array = [kernel, code, data]) (hpacked : buildImage files = some packed)
    (hdisk : Bmfs.initializeDisk size (some (some mbr)) (some (some pure64))
      (some (some packed)) = .ok disk)
    (hlength : pure64.length = 6144) (hmagic : pure64.take 4 = magic)
    (hfits : (pure64 ++ packed).length ≤ 0x40000) (hlinked : l.Linked kernel)
    (hreal : SparesPayload (pure64 ++ packed).length realMode)
    (hlong : SparesPayload (pure64 ++ packed).length longMode) :
    (∃ m₁, bmfsMbr disk m = some m₁ ∧ Holds m₁ 0x8000 pure64) ∧
      ∃ startOfMem m', boot gdt64 realMode longMode l disk m = some (startOfMem, m') ∧
        Loaded l kernel code data startOfMem m' := by
  obtain ⟨-, hheld, hsize, -⟩ := Bmfs.initializeDisk_holds hdisk
  have hsectors : 16 + 512 ≤ sectors disk := by
    obtain ⟨diskSize, hdiskSize, hmax⟩ := hsize
    have hmin : 6291456 ≤ diskSize := Bmfs.minimumDiskSize_le hdiskSize
    have hlarge : 6291456 ≤ disk.size := hmin.trans ((le_max_left _ _).trans_eq hmax.symm)
    exact (Nat.le_div_iff_mul_le (by decide)).mpr (le_trans (by decide) hlarge)
  have hfound : Holds disk.bytes 8192 magic := by
    have hpure := (holds_append.mp hheld).1
    rw [← List.take_append_drop 4 pure64, hmagic] at hpure
    exact (holds_append.mp hpure).1
  obtain ⟨m₁, hmbr, hread, hcopy⟩ := bmfsMbr_eq m hsectors hfound
  have hpure : Holds m₁ 0x8000 (pure64 ++ packed) :=
    hheld.copy fun i hi => hread i (hi.trans_le hfits)
  have hpayload : Holds m₁ 0x60000 (pure64 ++ packed) :=
    hheld.copy fun i hi => hcopy i (hi.trans_le hfits)
  obtain ⟨m₂, htables, -, hfree⟩ := buildTables_eq gdt64 (realMode m₁)
  -- neither Pure64 nor its tables touch the copy at 0x60000
  have hkept : Holds (longMode m₂) 0x60000 (pure64 ++ packed) := by
    apply hpayload.congr
    intro x hle hlt
    rw [hlong m₂ x hle hlt, hfree x (le_trans (by decide) hle), hreal m₁ x hle hlt]
  have hmoved := movePayload_holds hlength hfits hkept
  have hshort : packed.length ≤ 0x40000 := by
    rw [List.length_append] at hfits
    exact (Nat.le_add_left _ _).trans hfits
  obtain rfl := buildImage_of_fits hfiles hpacked hshort
  obtain ⟨startOfMem, m', hrun, hloaded⟩ := initializeKernelBinary_loads hlinked hshort hmoved
  refine ⟨⟨m₁, hmbr, (holds_append.mp hpure).1⟩, startOfMem, m', ?_, hloaded⟩
  rw [boot, Option.bind_eq_bind, hmbr, Option.bind_some, htables,
    Option.bind_some, hrun]

/-- A kernel of one byte and two modules. -/
def smallFiles : FileArray := ⟨[[0x55], [1, 2], [3]], by decide⟩

/-- Pure64 with nothing in it but its first four bytes. -/
def smallPure64 : List UInt8 := magic ++ List.replicate 6140 0x90

/-- Pure64 before `start32`: the memory below the payload is used. -/
def scratchLow (m : Mem) : Mem := fun x => if x < 0x60000 then 0xCC else m x

theorem scratchLow_spares (n : ℕ) : SparesPayload n scratchLow :=
  fun _ _ hle _ => if_neg (Nat.not_lt_of_le hle)

/-- Pure64 behind the page tables: the interrupt table is at 0, and all behind the payload is
used. -/
def scratchHigh (m : Mem) : Mem := fun x => if x < 0x1000 ∨ 0xA0000 ≤ x then 0x8E else m x

theorem scratchHigh_spares {n : ℕ} (h : n ≤ 0x40000) : SparesPayload n scratchHigh := by
  intro m x hle hlt
  exact if_neg (by omega)

/-- The kernel is linked with its `bss` right behind it, over the packed modules. -/
def smallLabels : Labels := ⟨0x100001, 0x100001, 0x102000⟩

theorem boot_loads_small :
    ∃ packed disk startOfMem m', buildImage smallFiles = some packed ∧
      Bmfs.initializeDisk [0x36, 0x4D] (some (some (List.replicate 512 0xFA)))
        (some (some smallPure64)) (some (some packed)) = .ok disk ∧
      boot 0x9000 scratchLow scratchHigh smallLabels disk (fun _ => 0xEE) =
        some (startOfMem, m') ∧
      Loaded smallLabels [0x55] [1, 2] [3] startOfMem m' := by
  have hpacked : buildImage smallFiles = some (image [0x55] [[1, 2], [3]]) :=
    buildImage_eq rfl (by decide)
  obtain ⟨disk, hdisk⟩ : ∃ disk, Bmfs.initializeDisk [0x36, 0x4D]
      (some (some (List.replicate 512 0xFA))) (some (some smallPure64))
      (some (some (image [0x55] [[1, 2], [3]]))) = .ok disk :=
    @Bmfs.initializeDisk_ok [6] [0x4D] (List.replicate 512 0xFA) 2 smallPure64 _ (by decide)
      (by decide) (Or.inr ⟨0x4D, rfl, by decide, by decide⟩) (by decide) (by decide)
      (by rw [List.length_replicate])
  have hlength : smallPure64.length = 6144 := by
    rw [smallPure64, List.length_append, List.length_replicate]
    rfl
  have hfits : (smallPure64 ++ image [0x55] [[1, 2], [3]]).length ≤ 0x40000 := by
    rw [List.length_append, hlength]
    decide
  have hfiles : smallFiles.array = [[0x55], [1, 2], [3]] := rfl
  obtain ⟨-, startOfMem, m', hboot, hloaded⟩ := boot_loads (l := smallLabels) 0x9000
    (fun _ => 0xEE) hfiles hpacked hdisk hlength rfl hfits ⟨rfl, by decide, by decide, by decide⟩
    (scratchLow_spares _) (scratchHigh_spares hfits)
  exact ⟨_, disk, startOfMem, m', hpacked, hdisk, hboot, hloaded⟩

end TronKernel.Boot
