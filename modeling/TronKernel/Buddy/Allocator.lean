import TronKernel.Heap.FirstFit

/-!
# `Kernel/memoryBuddy.c`: the buddy allocator

The allocator with `BUDDY`. A `BlockData *` is the index of a block in `blocks`, or `none` for the
null pointer. Each access to `blocks` or `bucket` goes through an accessor that checks the array's
bound, and `none` as the result of a call means that the code leaves an array or follows a null
pointer. Sizes are reduced modulo `2 ^ 64`; the `int` products `(1 << level) * BLOCK_UNIT` are exact
for all levels below `LEVEL_LIMIT`, and from there on the code leaves `bucket` next.
-/

namespace TronKernel.Buddy

open FirstFit (MemoryInfo wadd wsub sizeofSizeT)

abbrev LEVEL_LIMIT : ℕ := 13

abbrev BLOCK_LIMIT : ℕ := 2 ^ (LEVEL_LIMIT - 1)

abbrev BLOCK_UNIT : ℕ := 256

/-- `SIZE(level)`. -/
def SIZE (level : ℕ) : ℕ := 2 ^ level * BLOCK_UNIT

/-- `IS_POW2(x)`. -/
def IS_POW2 (x : ℕ) : Bool := x ≠ 0 ∧ x &&& (x - 1) = 0

structure BlockData where
  allocated : Bool
  level : ℕ
  next : Option ℕ
  prev : Option ℕ
deriving DecidableEq, Repr

/-- The static variables of `memoryBuddy.c`. -/
structure State where
  blocks : ℕ → BlockData
  bucket : ℕ → Option ℕ
  levelsCount : ℕ
  blocksCount : ℕ
  baseAddress : ℕ
  memoryInfo : MemoryInfo

/-- The static variables before any call. -/
def boot : State where
  blocks := fun _ => ⟨false, 0, none, none⟩
  bucket := fun _ => none
  levelsCount := 0
  blocksCount := 0
  baseAddress := 0
  memoryInfo := ⟨0, 0, 0⟩

/-- The loop of `log2n`, `while (n >>= 1) ++ret;`, which ends after at most 64 shifts. -/
def log2nLoop : ℕ → ℕ → ℕ → ℕ
  | 0, _, ret => ret
  | fuel + 1, n, ret => if n >>> 1 ≠ 0 then log2nLoop fuel (n >>> 1) (ret + 1) else ret

/-- `log2n`. -/
def log2n (n : ℕ) : ℕ := log2nLoop 64 n 0

/-- `initMemoryManager`: the state and the error code. -/
def initMemoryManager (s : State) (address size : ℕ) : State × ℕ :=
  if address % sizeofSizeT ≠ 0 then (s, 1)
  else if size % BLOCK_UNIT ≠ 0 ∨ ¬ IS_POW2 (size / BLOCK_UNIT) then (s, 2)
  else
    let level := log2n (size / BLOCK_UNIT)
    if level = 0 then (s, 3)
    else if level ≥ LEVEL_LIMIT then (s, 4)
    else
      ({ blocks := Function.update (fun _ => ⟨false, 0, none, none⟩) 0 ⟨false, level, none, none⟩
         bucket := Function.update (fun _ => none) level (some 0)
         levelsCount := level + 1
         blocksCount := 2 ^ level
         baseAddress := address
         memoryInfo := ⟨0, size, size⟩ }, 0)

/-! ## Array accesses -/

/-- `*block_ptr`. -/
def State.block (s : State) (block : ℕ) : Option BlockData :=
  if block < BLOCK_LIMIT then some (s.blocks block) else none

/-- Assignments to fields of `*block_ptr`. -/
def State.setBlock (s : State) (block : ℕ) (f : BlockData → BlockData) : Option State :=
  if block < BLOCK_LIMIT then
    some { s with blocks := Function.update s.blocks block (f (s.blocks block)) }
  else none

/-- `bucket[level]`. -/
def State.bucketAt (s : State) (level : ℕ) : Option (Option ℕ) :=
  if level < LEVEL_LIMIT then some (s.bucket level) else none

/-- `bucket[level] = p`. -/
def State.setBucket (s : State) (level : ℕ) (p : Option ℕ) : Option State :=
  if level < LEVEL_LIMIT then some { s with bucket := Function.update s.bucket level p } else none

/-! ## Blocks -/

/-- `getAddress`. -/
def getAddress (s : State) (block : ℕ) : ℕ := wadd s.baseAddress (block * BLOCK_UNIT)

/-- `getBuddy`. -/
def getBuddy (s : State) (block : ℕ) : Option ℕ := do
  let b ← s.block block
  some (if (block >>> b.level) % 2 ≠ 0 then block - 2 ^ b.level else block + 2 ^ b.level)

/-- `addBlock`. -/
def addBlock (s : State) (block : ℕ) : Option State := do
  let b ← s.block block
  let next ← s.bucketAt b.level
  let s ← s.setBlock block fun b => { b with next := next, prev := none }
  let s ← s.setBucket b.level (some block)
  let s ← match next with
    | some next => s.setBlock next fun n => { n with prev := some block }
    | none => some s
  let s ← s.setBlock block fun b => { b with allocated := false }
  some
    { s with
      memoryInfo :=
        { s.memoryInfo with
          allocated := wsub s.memoryInfo.allocated (SIZE b.level)
          free := wadd s.memoryInfo.free (SIZE b.level) } }

/-- `removeBlock`. -/
def removeBlock (s : State) (block : ℕ) : Option State := do
  let b ← s.block block
  let s ← match b.next with
    | some next => s.setBlock next fun n => { n with prev := b.prev }
    | none => some s
  let s ← match b.prev with
    | some prev => s.setBlock prev fun p => { p with next := b.next }
    | none => s.setBucket b.level b.next
  let s ← s.setBlock block fun b => { b with next := none, prev := none, allocated := true }
  some
    { s with
      memoryInfo :=
        { s.memoryInfo with
          allocated := wadd s.memoryInfo.allocated (SIZE b.level)
          free := wsub s.memoryInfo.free (SIZE b.level) } }

/-- `splitBlock`, whose result no caller reads. -/
def splitBlock (s : State) (level : ℕ) : Option State :=
  if level = 0 then some s
  else do
    match ← s.bucketAt level with
    | none => some s
    | some block =>
      let s ← removeBlock s block
      let s ← s.setBlock block fun b => { b with level := level - 1 }
      let buddy ← getBuddy s block
      let s ← s.setBlock buddy fun b => { b with level := level - 1 }
      let s ← addBlock s buddy
      addBlock s block

/-- `mergeBuddy`. Each recursive call is one level up, and above `LEVEL_LIMIT` there is no
`bucket`. -/
def mergeBuddy (s : State) (block : ℕ) : ℕ → Option State
  | 0 => none
  | fuel + 1 => do
    let b ← s.block block
    if b.level = s.levelsCount - 1 then some s
    else
      let buddy ← getBuddy s block
      let c ← s.block buddy
      if b.level ≠ c.level then some s
      else if b.allocated ∨ c.allocated then some s
      else
        let s ← removeBlock s block
        let s ← removeBlock s buddy
        let block := if block > buddy then buddy else block
        let s ← s.setBlock block fun b => { b with level := b.level + 1 }
        let s ← addBlock s block
        mergeBuddy s block fuel

/-- `while (min_above < levels_count && bucket[min_above] == NULL) min_above++;` -/
def minAbove (s : State) : ℕ → ℕ → Option ℕ
  | 0, level => some level
  | fuel + 1, level =>
    if level < s.levelsCount then do
      match ← s.bucketAt level with
      | none => minAbove s fuel (level + 1)
      | some _ => some level
    else some level

/-- `while (min_above > level) splitBlock(min_above--);` for a number of rounds. -/
def splitDown (s : State) (level : ℕ) : ℕ → Option State
  | 0 => some s
  | rounds + 1 => do
    let s ← splitBlock s (level + (rounds + 1))
    splitDown s level rounds

/-- The least level whose blocks hold `size` bytes, as `malloc` computes it. -/
def levelFor (size : ℕ) : ℕ :=
  let level := log2n (size / BLOCK_UNIT)
  if 2 ^ level * BLOCK_UNIT < size then level + 1 else level

/-- The end of `malloc`: the first block of the bucket and its address. -/
def takeBlock (s : State) (level : ℕ) : Option (State × Option ℕ) := do
  let block ← (← s.bucketAt level)
  let s ← removeBlock s block
  some (s, some (getAddress s block))

/-- `malloc`: the state and the returned address, `none` for `return NULL`. -/
def malloc (s : State) (size : ℕ) : Option (State × Option ℕ) := do
  let level := levelFor size
  match ← s.bucketAt level with
  | some _ => takeBlock s level
  | none =>
    let above ← minAbove s s.levelsCount (level + 1)
    if above = s.levelsCount then some (s, none)
    else
      let s ← splitDown s level (above - level)
      takeBlock s level

/-- `free`. -/
def free (s : State) (ptr : ℕ) : Option State :=
  let offset := wsub ptr s.baseAddress
  if offset % BLOCK_UNIT ≠ 0 then some s
  else
    let block := offset / BLOCK_UNIT
    if block ≥ s.blocksCount then some s
    else do
      let b ← s.block block
      if b.allocated = false then some s
      else
        let s ← addBlock s block
        mergeBuddy s block LEVEL_LIMIT

end TronKernel.Buddy
