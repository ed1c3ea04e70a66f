import TronKernel.Lib.Memory
import TronKernel.Lib.LinkedList

/-!
# `Kernel/memoryManager.c`: the first-fit heap over raw memory

The allocator without `BUDDY`. Its state is the byte memory and the module's static variables; a
`BlockData` header is two 64-bit words, `size` at the block's address and `next` eight bytes above,
and the payload begins sixteen bytes above the block. Pointer and `size_t` arithmetic is reduced
modulo `2 ^ 64` wherever the code computes.

A list walk that has passed `2 ^ 64` cells has met some cell twice and never ends, so `none` means
that the call does not return.
-/

namespace TronKernel.FirstFit

open Mem LinkedList

/-- `sizeof(BlockData)`. -/
abbrev sizeofBlockData : ℕ := 16

/-- `sizeof(size_t)`. -/
abbrev sizeofSizeT : ℕ := 8

/-- `a - b` on `size_t` and on addresses. -/
def wsub (a b : ℕ) : ℕ := (a + (2 ^ 64 - b % 2 ^ 64)) % 2 ^ 64

/-- `a + b` on `size_t` and on addresses. -/
def wadd (a b : ℕ) : ℕ := (a + b) % 2 ^ 64

structure MemoryInfo where
  allocated : ℕ
  free : ℕ
  total : ℕ
deriving DecidableEq, Repr

/-- A call of the heap's interface with any argument. -/
inductive Call where
  | malloc (size : UInt64)
  | free (ptr : UInt64)
deriving DecidableEq, Repr

/-- The memory and the static variables of `memoryManager.c`. -/
structure Heap where
  mem : Mem
  freeList : ℕ
  allocList : ℕ
  memoryInfo : MemoryInfo

/-- `block->size`. -/
def blockSize (m : Mem) (block : ℕ) : ℕ := load64 m block

/-- `block->next`. -/
def blockNext (m : Mem) (block : ℕ) : ℕ := load64 m (wadd block 8)

/-- `block->size = v`. -/
def setSize (m : Mem) (block v : ℕ) : Mem := store64 m block v

/-- `block->next = v`. -/
def setNext (m : Mem) (block v : ℕ) : Mem := store64 m (wadd block 8) v

/-- The number of cells after which a list walk is known not to end. -/
abbrev walkBound : ℕ := 2 ^ 64

/-- The static variables before any call. -/
def boot (m : Mem) : Heap := ⟨m, 0, 0, ⟨0, 0, 0⟩⟩

/-- `initMemoryManager`: the state and the error code. -/
def initMemoryManager (h : Heap) (address size : ℕ) : Heap × ℕ :=
  if address % sizeofSizeT ≠ 0 then (h, 1)
  else if size % sizeofSizeT ≠ 0 then (h, 2)
  else if size < sizeofBlockData + sizeofSizeT then (h, 3)
  else
    ({ h with
        mem := setNext (setSize h.mem address (wsub size sizeofBlockData)) address 0
        freeList := address
        memoryInfo := ⟨sizeofBlockData, wsub size sizeofBlockData, size⟩ }, 0)

/-- `if (size % sizeof(size_t) > 0) size += sizeof(size_t) - size % sizeof(size_t);` -/
def alignSize (size : ℕ) : ℕ :=
  if size % sizeofSizeT > 0 then wadd size (sizeofSizeT - size % sizeofSizeT) else size

/-- The body of `if (block->size >= size + sizeof(BlockData) + sizeof(size_t))`: a new header for
the end of the block, which keeps its first `size` payload bytes. -/
def split (h : Heap) (block size : ℕ) : Heap :=
  let newBlock := wadd (wadd block sizeofBlockData) size
  let m := setSize h.mem newBlock (wsub (wsub (blockSize h.mem block) sizeofBlockData) size)
  let m := setNext m newBlock (blockNext m block)
  let m := setNext m block newBlock
  let m := setSize m block size
  { h with
    mem := m
    memoryInfo :=
      { h.memoryInfo with
        allocated := wadd h.memoryInfo.allocated sizeofBlockData
        free := wsub h.memoryInfo.free sizeofBlockData } }

/-- Make the cell before a place in the free list, or the list's head, point to `next`. -/
def linkFree (h : Heap) (previous next : ℕ) : Heap :=
  if previous ≠ 0 then { h with mem := setNext h.mem previous next }
  else { h with freeList := next }

/-- Make the cell before a place in the alloc list, or the list's head, point to `next`. -/
def linkAlloc (h : Heap) (previous next : ℕ) : Heap :=
  if previous ≠ 0 then { h with mem := setNext h.mem previous next }
  else { h with allocList := next }

/-- Take a block found in the free list out of it and put it on the alloc list. -/
def takeBlock (h : Heap) (previous block : ℕ) : Heap :=
  let h := linkFree h previous (blockNext h.mem block)
  let info := { h.memoryInfo with free := wsub h.memoryInfo.free (blockSize h.mem block) }
  let m := setNext h.mem block h.allocList
  { h with
    mem := m
    allocList := block
    memoryInfo := { info with allocated := wadd info.allocated (blockSize m block) } }

/-- `malloc`: the state and the returned pointer, `0` for `NULL`. -/
def malloc (h : Heap) (size : ℕ) : Option (Heap × ℕ) :=
  if size = 0 then some (h, 0)
  else
    let size := alignSize size
    match advance (blockNext h.mem) (fun b => blockSize h.mem b < size) walkBound 0 h.freeList with
    | none => none
    | some (previous, block) =>
      if block = 0 then some (h, 0)
      else
        let h :=
          if blockSize h.mem block ≥ wadd (wadd size sizeofBlockData) sizeofSizeT then
            split h block size
          else h
        some (takeBlock h previous block, wadd block sizeofBlockData)

/-- `isContiguous`. -/
def isContiguous (m : Mem) (leftBlock rightBlock : ℕ) : Bool :=
  wadd (wadd leftBlock sizeofBlockData) (blockSize m leftBlock) = rightBlock

/-- The statements of one merge: `right` is unlinked and its bytes go to `left`. -/
def merge (h : Heap) (left right : ℕ) : Heap :=
  let m := setNext h.mem left (blockNext h.mem right)
  let m := setSize m left (wadd (blockSize m left) (wadd sizeofBlockData (blockSize m right)))
  { h with
    mem := m
    memoryInfo :=
      { h.memoryInfo with
        allocated := wsub h.memoryInfo.allocated sizeofBlockData
        free := wadd h.memoryInfo.free sizeofBlockData } }

/-- The part of `free` after the block has left the alloc list: put it at its place in the free
list, between `previous` and `next`, and merge it with each that it touches. -/
def releaseBlock (h : Heap) (previous next block : ℕ) : Heap :=
  let h := { h with mem := setNext h.mem block (if previous = 0 then h.freeList else next) }
  let h := linkFree h previous block
  let h :=
    { h with
      memoryInfo :=
        { h.memoryInfo with free := wadd h.memoryInfo.free (blockSize h.mem block) } }
  let h := if next ≠ 0 ∧ isContiguous h.mem block next then merge h block next else h
  if previous ≠ 0 ∧ isContiguous h.mem previous block then merge h previous block else h

/-- `free`. -/
def free (h : Heap) (ptr : ℕ) : Option Heap :=
  let block := wsub ptr sizeofBlockData
  match advance (blockNext h.mem) (fun b => b ≠ block) walkBound 0 h.allocList with
  | none => none
  | some (previous, found) =>
    if found = 0 then some h
    else
      let h := linkAlloc h previous (blockNext h.mem found)
      let h :=
        { h with
          memoryInfo :=
            { h.memoryInfo with
              allocated := wsub h.memoryInfo.allocated (blockSize h.mem block) } }
      match advance (blockNext h.mem) (fun b => b < block) walkBound 0 h.freeList with
      | none => none
      | some (previous, next) => some (releaseBlock h previous next block)

end TronKernel.FirstFit
