import TronKernel.Lib.Bytes

/-!
# The packed kernel image

`buildImage` of the module packer writes the kernel, the number of modules and each module behind
its size. `loadModules` of the kernel reads what follows the kernel and copies every module to its
address. Writer and reader are separate programs: what they share is only the order of the bytes.
-/

namespace TronKernel.Modules

open Mem

/-! ## The module packer -/

/-- The contents of a file. -/
abbrev File := List UInt8

/-- `BUFFER_SIZE` -/
def BUFFER_SIZE : ℕ := 128

/-- A `FILE` open for reading: the bytes ahead and the end-of-file flag. -/
structure Stream where
  rest : List UInt8
  atEof : Bool

/-- `fopen` for reading. -/
def fopen (file : File) : Stream := ⟨file, false⟩

/-- `fread` of `n` bytes. The end of the file is noticed once fewer than `n` bytes are left. -/
def fread (n : ℕ) (source : Stream) : List UInt8 × Stream :=
  (source.rest.take n, ⟨source.rest.drop n, source.atEof || decide (source.rest.length < n)⟩)

/-- `write_file`: copy in portions of `BUFFER_SIZE` until the end of the source was noticed. -/
def writeFile (target : File) (source : Stream) : File :=
  if source.atEof then target
  else writeFile (target ++ (fread BUFFER_SIZE source).1) (fread BUFFER_SIZE source).2
termination_by if source.atEof then 0 else source.rest.length + 1
decreasing_by
  rename_i hnot
  simp only [fread, BUFFER_SIZE, List.length_drop, if_neg hnot]
  split_ifs with hend
  · omega
  · have hlong : ¬ source.rest.length < 128 := fun hlt => hend (by simp [hlt])
    omega

/-- `write_size`: the size of the file as a `uint32_t`. -/
def writeSize (target file : File) : File :=
  target ++ bytesLE 4 (file.length % 2 ^ 32)

/-- The files given to the packer. Their number is an `int`. -/
structure FileArray where
  array : List File
  length_lt : array.length < 2 ^ 31

/-- One round of the loop over the modules. -/
def writeModule (target file : File) : File :=
  writeFile (writeSize target file) (fopen file)

/-- `buildImage`: the bytes of the target file. Without a first file there is no kernel to write. -/
def buildImage (files : FileArray) : Option File :=
  match files.array with
  | [] => none
  | kernel :: modules =>
    let target := writeFile [] (fopen kernel)
    let extraBinaries := files.array.length - 1
    let target := target ++ bytesLE 4 extraBinaries
    some (modules.foldl writeModule target)

/-! ## The module loader -/

/-- `sizeof(uint32_t)` -/
def sizeofUint32 : ℕ := 4

/-- The loop of `memcpy` over words, after `n` rounds. -/
def copyWords (m : Mem) (destination source : ℕ) : ℕ → Mem
  | 0 => m
  | i + 1 =>
    let m := copyWords m destination source i
    storeLE m (destination + sizeofUint32 * i) sizeofUint32
      (loadLE m (source + sizeofUint32 * i) sizeofUint32)

/-- The loop of `memcpy` over bytes, after `n` rounds. -/
def copyBytes (m : Mem) (destination source : ℕ) : ℕ → Mem
  | 0 => m
  | i + 1 =>
    let m := copyBytes m destination source i
    Function.update m (destination + i) (m (source + i))

/-- `memcpy`: by words where both pointers and the length are aligned, else by bytes. -/
def memcpy (m : Mem) (destination source length : ℕ) : Mem :=
  if destination % sizeofUint32 = 0 ∧ source % sizeofUint32 = 0 ∧ length % sizeofUint32 = 0 then
    copyWords m destination source (length / sizeofUint32)
  else
    copyBytes m destination source length

/-- `readUint32`: the word under the cursor and the cursor behind it. -/
def readUint32 (m : Mem) (address : ℕ) : ℕ × ℕ :=
  (loadLE m address sizeofUint32, address + sizeofUint32)

/-- `loadModule`: the end of the loaded module, the cursor behind the module's bytes, and the
memory. -/
def loadModule (m : Mem) (module targetModuleAddress : ℕ) : ℕ × ℕ × Mem :=
  let (moduleSize, module) := readUint32 m module
  let m := memcpy m targetModuleAddress module moduleSize
  (targetModuleAddress + moduleSize, module + moduleSize, m)

/-- The loop of `loadModules` with `n` modules to go. It stops with `none` where the program would
read an address past the end of the array. -/
def loadRest (m : Mem) (currentModule : ℕ) (endOfModules : Option ℕ) :
    ℕ → List ℕ → Option (Option ℕ × Mem)
  | 0, _ => some (endOfModules, m)
  | _ + 1, [] => none
  | n + 1, targetModuleAddress :: rest =>
    let (endOfModules, currentModule, m) := loadModule m currentModule targetModuleAddress
    loadRest m currentModule (some endOfModules) n rest

/-- `loadModules`: the end of the last module (not set where there is no module) and the memory. -/
def loadModules (m : Mem) (payloadStart : ℕ) (targetModuleAddress : List ℕ) :
    Option (Option ℕ × Mem) :=
  let (moduleCount, currentModule) := readUint32 m payloadStart
  loadRest m currentModule none moduleCount targetModuleAddress

end TronKernel.Modules
