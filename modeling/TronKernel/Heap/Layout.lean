import TronKernel.Heap.FirstFit
import TronKernel.Lib.Tiling

/-!
# The first-fit heap as two lists of blocks

What the pointers of `memoryManager.c` stand for: the blocks on the free list and on the alloc
list, in list order. `Layout.malloc` and `Layout.free` edit the two lists the way the code does, and
`Wf` is the shape they keep: the blocks tile the region, and each free block ends strictly below the
next one, which says at once that the free list is sorted, without overlap and without two free
blocks touching.
-/

namespace TronKernel.FirstFit

open Tiling

/-- A block of the heap: its header's address and the number of payload bytes. -/
structure Block where
  addr : ℕ
  size : ℕ
deriving DecidableEq, Repr

/-- The first address behind the block's payload. -/
def Block.stop (b : Block) : ℕ := b.addr + sizeofBlockData + b.size

theorem Block.addr_lt_stop (b : Block) : b.addr < b.stop := by
  simp only [Block.stop, sizeofBlockData]; omega

/-- The two blocks share no byte. -/
def Block.Apart (a b : Block) : Prop := a.stop ≤ b.addr ∨ b.stop ≤ a.addr

instance : Std.Symm Block.Apart := ⟨fun _ _ => Or.symm⟩

theorem Block.Apart.addr_ne {a b : Block} (h : a.Apart b) : a.addr ≠ b.addr := by
  have := a.addr_lt_stop
  have := b.addr_lt_stop
  rcases h with h | h <;> omega

/-- The blocks on both lists and the counters. -/
structure Layout where
  free : List Block
  alloc : List Block
  info : MemoryInfo
deriving DecidableEq

namespace Layout

/-- All blocks, free ones first. -/
def blocks (L : Layout) : List Block := L.free ++ L.alloc

/-- The heap right after `initMemoryManager`. -/
def init (address size : ℕ) : Layout where
  free := [⟨address, size - sizeofBlockData⟩]
  alloc := []
  info := ⟨sizeofBlockData, size - sizeofBlockData, size⟩

/-- `block->size >= size + sizeof(BlockData) + sizeof(size_t)`. -/
def splits (b : Block) (size : ℕ) : Prop :=
  wadd (wadd size sizeofBlockData) sizeofSizeT ≤ b.size

instance (b : Block) (size : ℕ) : Decidable (splits b size) :=
  inferInstanceAs (Decidable (_ ≤ _))

/-- What a split leaves on the free list. A remainder whose header would be at address `2 ^ 64` is
the null pointer, which ends the list. -/
def remainder (b : Block) (size : ℕ) : List Block :=
  if b.addr + sizeofBlockData + size < 2 ^ 64 then
    [⟨b.addr + sizeofBlockData + size, b.size - sizeofBlockData - size⟩]
  else []

/-- The counters after handing out a block of `taken` bytes, split off or whole. -/
def chargeBlock (info : MemoryInfo) (isSplit : Bool) (taken : ℕ) : MemoryInfo :=
  let info :=
    if isSplit then
      { info with
        allocated := wadd info.allocated sizeofBlockData
        free := wsub info.free sizeofBlockData }
    else info
  { info with allocated := wadd info.allocated taken, free := wsub info.free taken }

/-- `malloc` on the two lists. -/
def malloc (L : Layout) (size : ℕ) : Layout × ℕ :=
  if size = 0 then (L, 0)
  else
    let size := alignSize size
    let before := L.free.takeWhile fun b => b.size < size
    match L.free.dropWhile fun b => b.size < size with
    | [] => (L, 0)
    | b :: after =>
      let taken : Block := if splits b size then ⟨b.addr, size⟩ else b
      ({ free := before ++ (if splits b size then remainder b size else []) ++ after
         alloc := taken :: L.alloc
         info := chargeBlock L.info (splits b size) taken.size }, wadd b.addr sizeofBlockData)

/-- Put a block in front of the free blocks above it, merging it with the first if they touch. -/
def joinNext (b : Block) : List Block → List Block
  | [] => [b]
  | n :: ns =>
    if b.stop = n.addr then ⟨b.addr, b.size + (sizeofBlockData + n.size)⟩ :: ns else b :: n :: ns

/-- Put the free blocks below a list in front of it, merging the last one with its head if they
touch. -/
def joinPrev (before : List Block) : List Block → List Block
  | [] => before
  | b :: bs =>
    match before.getLast? with
    | none => b :: bs
    | some p =>
      if p.stop = b.addr then
        before.dropLast ++ ⟨p.addr, p.size + (sizeofBlockData + b.size)⟩ :: bs
      else before ++ b :: bs

/-- Put a block at its place in the free list and merge it with each neighbour that it touches. -/
def insertFree (b : Block) (free : List Block) : List Block :=
  joinPrev (free.takeWhile fun c => c.addr < b.addr)
    (joinNext b (free.dropWhile fun c => c.addr < b.addr))

/-- The counters after one merge: the absorbed header becomes free space. -/
def refundHeader (info : MemoryInfo) : MemoryInfo :=
  { info with
    allocated := wsub info.allocated sizeofBlockData
    free := wadd info.free sizeofBlockData }

/-- The counters after giving back a block of `size` bytes that was merged `merges` times. -/
def refundBlock (info : MemoryInfo) (size merges : ℕ) : MemoryInfo :=
  refundHeader^[merges]
    { info with allocated := wsub info.allocated size, free := wadd info.free size }

/-- `free` on the two lists. -/
def release (L : Layout) (ptr : ℕ) : Layout :=
  match L.alloc.find? fun b => b.addr = wsub ptr sizeofBlockData with
  | none => L
  | some b =>
    { free := insertFree b L.free
      alloc := L.alloc.erase b
      info := refundBlock L.info b.size (L.free.length + 1 - (insertFree b L.free).length) }

/-- The shape of a heap on `[lo, hi)`. -/
structure Wf (lo hi : ℕ) (L : Layout) : Prop where
  lo_pos : 0 < lo
  hi_le : hi ≤ 2 ^ 64
  addr_aligned : ∀ b ∈ L.blocks, 8 ∣ b.addr
  size_aligned : ∀ b ∈ L.blocks, 8 ∣ b.size
  tiles : Tiles Block.addr Block.stop lo hi L.blocks
  ordered : L.free.Pairwise fun a b => a.stop < b.addr

end Layout

end TronKernel.FirstFit
