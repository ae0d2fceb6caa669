import Mathlib.Algebra.Ring.Int.Defs
import Mathlib.Algebra.Group.Nat.Defs
import Mathlib.Data.Nat.Log
import Mathlib.Logic.Function.Basic

/-!
# The pool for real-time memory

`AllocPool` of `SC_AllocPool.cpp` cuts areas of memory into chunks. A chunk has its size and
whether it is in use at both of its ends, as `mSize` in its own header and as `mPrevSize` in
the next one, and a free chunk is linked into the bin of its size. The model is that of a
build for 64 bits: `mem` gives the word at each address that is used as one, and a `size_t` is
a number that is brought below 2 ^ 64 where the source can pass it. A bin is the list of its
chunks from `Next()` on. The links are stored in the chunks as well, where they can destroy
data, but they are not read there.
-/

namespace PoopWorms.Server

/-- `AllocArea`, with its address. -/
structure AllocArea where
  addr : ℕ
  mSize : ℕ
  mUnalignedPointerToThis : ℕ
deriving DecidableEq

/-- `mAreas` is the circular list of the areas, from the one that it points to. -/
structure AllocPool where
  /-- the address of the pool itself, which begins with the bins -/
  self : ℕ
  mem : ℕ → ℕ
  mBins : ℕ → List ℕ
  mBinBlocks : ℕ → BitVec 32
  mAreas : List AllocArea
  mAreaInitSize : ℕ
  mAreaMoreSize : ℕ

/-- The exceptions that the pool throws. -/
inductive AllocError
  | allocFailed
  | noNewArea
deriving DecidableEq

namespace AllocPool

/-! ## Constants -/

def sizeofAllocChunk : ℕ := 32
def sizeofAllocAreaHdr : ℕ := 32
def kNumSmallBins : ℕ := 64
def kMaxSmallBin : ℕ := kNumSmallBins - 1
def kAlign : ℕ := 16
def kMinAllocSize : ℕ := 2 * kAlign
def kAreaOverhead : ℕ := sizeofAllocAreaHdr + 2 * sizeofAllocChunk
def kChunkFree : ℕ := 0
def kChunkInUse : ℕ := 1

end AllocPool

/-- The first chunk of an area. -/
def AllocArea.chunk (area : AllocArea) : ℕ := area.addr + AllocPool.sizeofAllocAreaHdr

namespace AllocPool

/-! ## Sizes and bins -/

/-- The value that a `size_t` holds after an assignment. -/
def sizeT (x : ℤ) : ℕ := (x % 2 ^ 64).toNat

def requestToSize (inReqSize : ℕ) : ℕ :=
  let sizePlusOverhead := (inReqSize + sizeofAllocChunk) % 2 ^ 64
  if sizePlusOverhead ≤ kMinAllocSize then kMinAllocSize
  else (sizePlusOverhead + (kAlign - 1)) % 2 ^ 64 / kAlign * kAlign

/-- `CLZ`, for a number of 32 bits. -/
def clz (x : ℕ) : ℕ := if x = 0 then 32 else 31 - Nat.log2 x

/-- `CTZ` -/
def ctz (x : BitVec 32) : ℕ := 32 - clz (~~~x &&& (x - 1#32)).toNat

def binIndex (inSize : ℕ) : ℕ :=
  if inSize < 1024 then inSize >>> 4
  else if 262144 ≤ inSize then 127
  else
    let bits := 28 - clz inSize
    (bits <<< 3) + (inSize >>> bits)

/-- The difference that decides whether a chunk fits, an `int32`. -/
def remainderSize (candidate_size size : ℕ) : ℤ :=
  ((candidate_size : ℤ) - size).bmod (2 ^ 32)

variable (s : AllocPool)

/-! ## Bits of the bins -/

def markBinBlock (inIndex : ℕ) : AllocPool :=
  let word := inIndex / 32
  let bitValue := 1#32 <<< (inIndex % 32)
  { s with mBinBlocks := Function.update s.mBinBlocks word (s.mBinBlocks word ||| bitValue) }

def clearBinBlock (inIndex : ℕ) : AllocPool :=
  let word := inIndex / 32
  let bitValue := 1#32 <<< (inIndex % 32)
  { s with mBinBlocks := Function.update s.mBinBlocks word (s.mBinBlocks word &&& ~~~bitValue) }

def nextFullBin (inStartingBinIndex : ℕ) : Option ℕ :=
  if 128 ≤ inStartingBinIndex then none
  else
    let word := inStartingBinIndex / 32
    let bitValue := 1#32 <<< (inStartingBinIndex % 32)
    let binBits := s.mBinBlocks word
    if bitValue ≤ binBits then some (word * 32 + ctz (~~~(bitValue - 1#32) &&& binBits))
    else
      -- the next word that is not zero
      ((List.range 4).find? fun w => word < w ∧ s.mBinBlocks w ≠ 0).map fun w =>
        w * 32 + ctz (s.mBinBlocks w)

/-! ## Headers -/

def store (a v : ℕ) : AllocPool := { s with mem := Function.update s.mem a v }

/-- The word `mPrevSize` of a chunk. -/
def mPrevSize (chunk : ℕ) : ℕ := s.mem (chunk + 16)

/-- The word `mSize` of a chunk. -/
def mSize (chunk : ℕ) : ℕ := s.mem (chunk + 24)

def size (chunk : ℕ) : ℕ := s.mSize chunk / 2 * 2

def prevSize (chunk : ℕ) : ℕ := s.mPrevSize chunk / 2 * 2

def inUse (chunk : ℕ) : Prop := s.mSize chunk % 2 = 1

instance (chunk : ℕ) : Decidable (s.inUse chunk) := inferInstanceAs (Decidable (_ = _))

def prevInUse (chunk : ℕ) : Prop := s.mPrevSize chunk % 2 = 1

instance (chunk : ℕ) : Decidable (s.prevInUse chunk) := inferInstanceAs (Decidable (_ = _))

/-- Both ends of a chunk. -/
def setSize (chunk inSize word : ℕ) : AllocPool :=
  (s.store (chunk + inSize + 16) word).store (chunk + 24) word

def setSizeFree (chunk inSize : ℕ) : AllocPool := s.setSize chunk inSize inSize

def setSizeInUse (chunk inSize : ℕ) : AllocPool := s.setSize chunk inSize (inSize ||| kChunkInUse)

/-- The ends of an area look like chunks in use. -/
def setNeighborsInUse (chunk inOffset : ℕ) : AllocPool :=
  (s.store (chunk + inOffset + 24) kChunkInUse).store (chunk + 16) kChunkInUse

def isArea (chunk : ℕ) : Prop :=
  s.mPrevSize chunk = kChunkInUse ∧ s.mSize (chunk + s.size chunk) = kChunkInUse

instance (chunk : ℕ) : Decidable (s.isArea chunk) := inferInstanceAs (Decidable (_ ∧ _))

/-! ## Links -/

/-- A bin is a chunk in the pool. -/
def binAddr (index : ℕ) : ℕ := s.self + sizeofAllocChunk * index

/-- `InsertAfter` and `InsertBefore`: the link goes between two others. -/
def storeLinks (inLink prev next : ℕ) : AllocPool :=
  (((s.store (inLink + 8) prev).store inLink next).store (next + 8) inLink).store prev inLink

/-- `RemoveLeaveDangling`: the neighbours of a link. -/
def joinLinks (prev next : ℕ) : AllocPool := (s.store prev next).store (next + 8) prev

def setBin (index : ℕ) (bin : List ℕ) : AllocPool :=
  { s with mBins := Function.update s.mBins index bin }

/-- The link in front of the rest of a bin, which is the bin itself for the whole bin. -/
def lastOf (index : ℕ) (front : List ℕ) : ℕ := front.getLast?.getD (s.binAddr index)

/-- The first link of the rest of a bin, which is the bin itself at the end. -/
def headOf (index : ℕ) (back : List ℕ) : ℕ := back.head?.getD (s.binAddr index)

/-- `inChunk` gets its place behind `front`. -/
def linkAt (index inChunk : ℕ) (front back : List ℕ) : AllocPool :=
  (s.storeLinks inChunk (s.lastOf index front) (s.headOf index back)).setBin index
    (front ++ inChunk :: back)

def linkFree (inChunk : ℕ) : AllocPool :=
  let size := s.size inChunk
  let index := binIndex size
  let bin := s.mBins index
  if index < kNumSmallBins ∨ bin = [] then
    (s.linkAt index inChunk [] bin).markBinBlock index
  else
    -- bins of several sizes are sorted, with the largest chunk at Next()
    s.linkAt index inChunk (bin.takeWhile fun link => size < s.size link)
      (bin.dropWhile fun link => size < s.size link)

/-- A link between `front` and `back` is taken out. -/
def unlinkAt (index : ℕ) (front back : List ℕ) : AllocPool :=
  let s := (s.joinLinks (s.lastOf index front) (s.headOf index back)).setBin index (front ++ back)
  if front ++ back = [] then s.clearBinBlock index else s

def unlinkFree (inChunk : ℕ) : AllocPool :=
  let index := binIndex (s.size inChunk)
  s.unlinkAt index ((s.mBins index).takeWhile (· ≠ inChunk))
    ((s.mBins index).dropWhile (· ≠ inChunk)).tail

/-! ## Areas -/

/-- `NewArea`, with what the area allocator returns. -/
def newArea (ptr : Option ℕ) (inAreaSize : ℕ) : Except AllocError (AllocPool × ℕ) :=
  match ptr with
  | none => .error .noNewArea
  | some ptr =>
    let area : AllocArea := ⟨(ptr + (kAlign - 1)) / kAlign * kAlign, inAreaSize, ptr⟩
    let chunk := area.chunk
    let s := { s with mAreas := area :: s.mAreas }
    -- BeEmpty
    let s := (s.store chunk chunk).store (chunk + 8) chunk
    let s := s.setNeighborsInUse chunk inAreaSize
    .ok (s.setSizeFree chunk inAreaSize, chunk)

/-- `FreeArea`: the list of the areas begins behind the one that is returned. -/
def freeArea (chunk : ℕ) : AllocPool :=
  { s with
    mAreas := (s.mAreas.dropWhile fun area => area.chunk ≠ chunk).tail ++
      s.mAreas.takeWhile fun area => area.chunk ≠ chunk }

/-- The constructor. -/
def new (self : ℕ) (mem : ℕ → ℕ) (ptr : Option ℕ) (inAreaInitSize inAreaMoreSize : ℕ) :
    Except AllocError AllocPool :=
  let s : AllocPool := ⟨self, mem, fun _ => [], fun _ => 0#32, [], inAreaInitSize, inAreaMoreSize⟩
  if inAreaInitSize = 0 then .ok s
  else (s.newArea ptr inAreaInitSize).map fun r => r.1.linkFree r.2

/-! ## `Free` -/

/-- The chunk and its size, with the free chunk in front of it. -/
def consolidateBackward (chunk : ℕ) : AllocPool × ℕ × ℕ :=
  if s.prevInUse chunk then (s, chunk, s.size chunk)
  else
    let prevSize := s.prevSize chunk
    (s.unlinkFree (chunk - prevSize), chunk - prevSize, s.size chunk + prevSize)

/-- The size with the free chunk behind it. -/
def consolidateForward (chunk size : ℕ) : AllocPool × ℕ :=
  let next := chunk + size
  if s.inUse next then (s, size) else (s.unlinkFree next, size + s.size next)

def free (inPtr : ℕ) : AllocPool :=
  if inPtr = 0 then s
  else
    let (s, chunk, size) := s.consolidateBackward (inPtr - sizeofAllocChunk)
    let (s, size) := s.consolidateForward chunk size
    let s := s.setSizeFree chunk size
    if s.mAreaMoreSize ≠ 0 ∧ s.isArea chunk then s.freeArea chunk else s.linkFree chunk

/-! ## `Alloc` -/

/-- A chunk that is used as it is, or one that is split. -/
inductive Fit
  | exactFit (candidate : ℕ)
  | biggerFit (candidate : ℕ) (remainder_size : ℤ)
deriving DecidableEq

/-- The first chunk that fits, along `Prev()`. -/
def scanBin (size : ℕ) : List ℕ → Option Fit
  | [] => none
  | candidate :: rest =>
    let remainder_size := remainderSize (s.size candidate) size
    if (kMinAllocSize : ℤ) ≤ remainder_size then some (.biggerFit candidate remainder_size)
    else if 0 ≤ remainder_size then some (.exactFit candidate)
    else scanBin size rest

/-- The loop over the bins, which takes at most as many turns as there are bins. -/
def scanBins (size : ℕ) : ℕ → ℕ → Option Fit
  | 0, _ => none
  | fuel + 1, index =>
    match s.nextFullBin index with
    | none => none
    | some index =>
      match s.scanBin size (s.mBins index).reverse with
      | some fit => some fit
      | none => scanBins size fuel (index + 1)

/-- The search of `Alloc`. -/
def search (size : ℕ) : Option Fit :=
  let index := binIndex size
  if index < kMaxSmallBin then
    match (s.mBins index).getLast? with
    | some candidate => some (.exactFit candidate)
    | none =>
      -- the next one has a remainder below kMinAllocSize
      match (s.mBins (index + 1)).getLast? with
      | some candidate => some (.exactFit candidate)
      | none => s.scanBins size 128 (index + 2)
  else
    match s.scanBin size (s.mBins index).reverse with
    | some (.exactFit candidate) => some (.exactFit candidate)
    | some (.biggerFit _ _) => s.scanBins size 128 index
    | none => s.scanBins size 128 (index + 1)

/-- `return_chunk` -/
def returnChunk (candidate candidate_size : ℕ) : AllocPool × ℕ :=
  (s.setSizeInUse candidate candidate_size, candidate + sizeofAllocChunk)

/-- `found_bigger_fit` -/
def foundBiggerFit (candidate candidate_size size : ℕ) (remainder_size : ℤ) : AllocPool × ℕ :=
  let remainder := candidate + size
  let s := (s.setSizeFree remainder (sizeT remainder_size)).linkFree remainder
  s.returnChunk candidate (sizeT (candidate_size - remainder_size))

/-- `whole_new_area` -/
def wholeNewArea (ptr : Option ℕ) (areaSize : ℕ) : Except AllocError (AllocPool × ℕ) :=
  (s.newArea ptr areaSize).map fun r => r.1.returnChunk r.2 (r.1.size r.2)

/-- `split_new_area` -/
def splitNewArea (ptr : Option ℕ) (areaSize size : ℕ) : Except AllocError (AllocPool × ℕ) :=
  (s.newArea ptr areaSize).map fun r =>
    r.1.foundBiggerFit r.2 (r.1.size r.2) size (remainderSize areaSize size)

/-- `Alloc`, with what the area allocator returns if it is asked. -/
def alloc (ptr : Option ℕ) (inReqSize : ℕ) : Except AllocError (AllocPool × ℕ) :=
  let size := requestToSize inReqSize
  match s.search size with
  | some (.exactFit candidate) =>
    .ok ((s.unlinkFree candidate).returnChunk candidate (s.size candidate))
  | some (.biggerFit candidate remainder_size) =>
    .ok ((s.unlinkFree candidate).foundBiggerFit candidate (s.size candidate) size remainder_size)
  | none =>
    if s.mAreaMoreSize = 0 then
      if s.mAreas ≠ [] ∨ s.mAreaInitSize < size then .error .allocFailed
      else s.splitNewArea ptr s.mAreaInitSize size
    else if s.mAreaMoreSize < size then s.wholeNewArea ptr size
    else s.splitNewArea ptr s.mAreaMoreSize size

/-! ## `Realloc` -/

/-- `memcpy` and `memmove` -/
def copy (dst src n : ℕ) : AllocPool :=
  { s with mem := fun a => if dst ≤ a ∧ a < dst + n then s.mem (a - dst + src) else s.mem a }

/-- `split` -/
def splitChunk (newChunk newsize size : ℕ) : AllocPool :=
  if kMinAllocSize ≤ newsize - size then
    let remainder := newChunk + size
    let s := (s.setSizeInUse remainder (newsize - size)).setSizeInUse newChunk size
    s.free (remainder + sizeofAllocChunk)
  else s.setSizeInUse newChunk newsize

/-- `alloc_prev` -/
def allocPrev (prev inPtr oldsize newsize size : ℕ) : AllocPool × ℕ :=
  let s := (s.unlinkFree prev).splitChunk prev newsize size
  (s.copy (prev + sizeofAllocChunk) inPtr (oldsize - sizeofAllocChunk), prev + sizeofAllocChunk)

/-- The rest of `Realloc` where the block is moved. -/
def move (ptr : Option ℕ) (inPtr inReqSize oldsize : ℕ) : Except AllocError (AllocPool × ℕ) :=
  (s.alloc ptr inReqSize).map fun r =>
    ((r.1.copy r.2 inPtr (oldsize - sizeofAllocChunk)).free inPtr, r.2)

/-- `Realloc` -/
def realloc (ptr : Option ℕ) (inPtr inReqSize : ℕ) : Except AllocError (AllocPool × ℕ) :=
  if inPtr = 0 then s.alloc ptr inReqSize
  else
    let oldChunk := inPtr - sizeofAllocChunk
    let oldsize := s.size oldChunk
    let size := requestToSize inReqSize
    if oldsize < size then
      let next := oldChunk + oldsize
      let nextsize := if s.inUse next then 0 else s.size next
      let prev := oldChunk - s.prevSize oldChunk
      let prevsize := s.size prev
      -- try expanding forward
      if ¬ s.inUse next ∧ size ≤ nextsize + oldsize then
        .ok ((s.unlinkFree next).splitChunk oldChunk (oldsize + nextsize) size, inPtr)
      -- try forward and backward
      else if ¬ s.inUse prev ∧ ¬ s.inUse next ∧ size ≤ nextsize + prevsize + oldsize then
        .ok ((s.unlinkFree next).allocPrev prev inPtr oldsize (oldsize + nextsize + prevsize) size)
      -- backward only
      else if ¬ s.inUse prev ∧ size ≤ prevsize + oldsize then
        .ok (s.allocPrev prev inPtr oldsize (oldsize + prevsize) size)
      else s.move ptr inPtr inReqSize oldsize
    else .ok (s.splitChunk oldChunk oldsize size, inPtr)

end AllocPool

end PoopWorms.Server
