import PoopWorms.Lib.Octets
import PoopWorms.Lib.Readers
import PoopWorms.Server.GraphDef

/-!
# Reading a synth definition

`GraphDef_Read` of `SC_GraphDef.cpp`, with the readers of `ReadWriteMacros.h` for a pointer
into a buffer: they have no length, so a read past the end of the bytes that were given is
not noticed. Numbers are big-endian.
-/

namespace PoopWorms.Server

open Octets Readers

/-- The exceptions of `GraphDef_Read`. -/
inductive ReadError
  /-- `"name too long > 31 chars"` -/
  | nameTooLong
  /-- `"UGen '%s' not installed."` -/
  | notInstalled (name : List Byte)
  /-- `"buffer coloring error."` -/
  | bufferColoring
  /-- `"exceeded number of interconnect buffers."` -/
  | wireBufs
deriving DecidableEq

/-- Why reading stops in front of the end of the bytes. -/
inductive ReadStop
  | thrown (e : ReadError)
  /-- An access outside of the arrays of the definition or of the colouring. -/
  | outside
deriving DecidableEq

abbrev DefReader (α : Type) := Reader Byte ReadStop α

def kSCNameByteLen : ℕ := 32

def readInt8 : DefReader Byte := token

def readInt16_be : DefReader (BitVec 16) := do
  let c ← readInt8
  let d ← readInt8
  return c ++ d

def readFloat_be : DefReader Word := do
  let a ← readInt8
  let b ← readInt8
  let c ← readInt8
  let d ← readInt8
  return a ++ b ++ c ++ d

/-- A name is 32 bytes long, and zero behind what is copied into it. -/
def nameOf (data : List Byte) : List Byte :=
  data ++ List.replicate (kSCNameByteLen - data.length) 0#8

/-- `ReadName`. The length is a `char`, taken as a `uint32`. -/
def readName : DefReader (List Byte) := do
  let namelen ← readInt8
  if kSCNameByteLen ≤ (namelen.signExtend 32).toNat then stop (.thrown .nameTooLong)
  else do
    let data ← times (namelen.signExtend 32).toNat readInt8
    return nameOf data

structure ParamSpec where
  mName : List Byte
  mIndex : ℕ
deriving DecidableEq

/-- `ParamSpec_Read`. -/
def paramSpecRead : DefReader ParamSpec := do
  let mName ← readName
  let mIndex ← readInt16_be
  return ⟨mName, mIndex.toNat⟩

/-- `InputSpec_Read`. -/
def inputSpecRead : DefReader InputSpec := do
  let mFromUnitIndex ← readInt16_be
  let mFromOutputIndex ← readInt16_be
  return ⟨mFromUnitIndex.toInt, mFromOutputIndex.toInt⟩

/-- `OutputSpec_Read`: the rate of the output. -/
def outputSpecRead : DefReader ℤ := do
  let mCalcRate ← readInt8
  return mCalcRate.toInt

/-- `UnitDef`: what the reader uses of it is whether `kUnitDef_CantAliasInputsToOutputs` is
set, and the size of the struct of the unit generator. -/
structure UnitDef where
  cantAlias : Bool
  mAllocSize : ℕ
deriving DecidableEq

/-- `UnitSpec` as it is read: a rate may be any number. -/
structure RawUnitSpec where
  mUnitDef : UnitDef
  mCalcRate : ℤ
  mSpecialIndex : ℤ
  mInputSpec : List InputSpec
  mOutputSpec : List ℤ
deriving DecidableEq

/-- What `GraphDef_Read` uses of the world. -/
structure DefWorld where
  getUnitDef : List Byte → Option UnitDef
  mRunning : Bool
  mMaxWireBufs : ℕ
  mBufLength : ℕ

/-- The unit generator of a unit, which has to be installed. -/
def unitDefRead (inWorld : DefWorld) (name : List Byte) : DefReader UnitDef :=
  match inWorld.getUnitDef name with
  | none => stop (.thrown (.notInstalled name))
  | some mUnitDef => pure mUnitDef

/-- `UnitSpec_Read`. -/
def unitSpecRead (inWorld : DefWorld) : DefReader RawUnitSpec := do
  let name ← readName
  let mUnitDef ← unitDefRead inWorld name
  let mCalcRate ← readInt8
  let mNumInputs ← readInt16_be
  let mNumOutputs ← readInt16_be
  let mSpecialIndex ← readInt16_be
  let mInputSpec ← times mNumInputs.toNat inputSpecRead
  let mOutputSpec ← times mNumOutputs.toNat outputSpecRead
  return ⟨mUnitDef, mCalcRate.toInt, mSpecialIndex.toInt, mInputSpec, mOutputSpec⟩

/-- `GraphDef` as it is read, in front of the colouring. -/
structure RawGraphDef where
  mName : List Byte
  mConstants : List Word
  mInitialControlValues : List Word
  mParamSpecs : List ParamSpec
  mUnitSpecs : List RawUnitSpec
deriving DecidableEq

/-- A number of items, and the items. -/
def counted {α : Type} (rd : DefReader α) : DefReader (List α) := do
  let n ← readInt16_be
  times n.toNat rd

/-- The first half of `GraphDef_Read`. -/
def rawGraphDefRead (inWorld : DefWorld) : DefReader RawGraphDef := do
  let mName ← readName
  let mConstants ← counted readFloat_be
  let mInitialControlValues ← counted readFloat_be
  let mParamSpecs ← counted paramSpecRead
  let mUnitSpecs ← counted (unitSpecRead inWorld)
  return ⟨mName, mConstants, mInitialControlValues, mParamSpecs, mUnitSpecs⟩

/-! ## `DoBufferColoring` of a definition that may be anything -/

/-- The rate that the colouring takes a number for. -/
def CalcRate.ofInt (mCalcRate : ℤ) : CalcRate :=
  if mCalcRate = 1 then .bufRate
  else if mCalcRate = 2 then .fullRate
  else if mCalcRate = 3 then .demandRate
  else .scalarRate

def RawUnitSpec.toUnitSpec (u : RawUnitSpec) : UnitSpec where
  mCalcRate := .ofInt u.mCalcRate
  cantAlias := u.mUnitDef.cantAlias
  mInputSpec := u.mInputSpec
  mOutputSpec := u.mOutputSpec.map .ofInt

/-- What the colouring uses of a definition. -/
def RawGraphDef.toGraphDef (d : RawGraphDef) : GraphDef where
  mNumConstants := d.mConstants.length
  mUnitSpecs := d.mUnitSpecs.map RawUnitSpec.toUnitSpec

namespace GraphDef

variable (inGraphDef : GraphDef)

/-- The output of an input lies in the arrays of the definition. -/
def Refers (inputSpec : InputSpec) : Prop :=
  0 ≤ inputSpec.mFromOutputIndex ∧ inputSpec.fromOutput.1 < inGraphDef.numUnits ∧
    inputSpec.fromOutput.2 < (inGraphDef.unit inputSpec.fromOutput.1).mOutputSpec.length

instance (inputSpec : InputSpec) : Decidable (inGraphDef.Refers inputSpec) :=
  inferInstanceAs (Decidable (_ ∧ _))

/-- What the loop that counts the consumers follows lies in the arrays. -/
def RefersAll : Prop :=
  ∀ unit ∈ inGraphDef.mUnitSpecs, ∀ inputSpec ∈ unit.mInputSpec,
    inputSpec.mFromUnitIndex ≥ 0 → inGraphDef.Refers inputSpec

instance : Decidable inGraphDef.RefersAll :=
  inferInstanceAs (Decidable (∀ _ ∈ _, ∀ _ ∈ _, _ → _))

/-- Why a turn of `ReleaseInputBuffers` has no result: a buffer with a zero count, or a stack
that cannot grow. -/
def releaseStop (c : Coloring) (o : Output) : ReadStop :=
  if c.bufColor.refs (c.mBufferIndex o) = 0 then .thrown .bufferColoring else .outside

/-- One turn of `ReleaseInputBuffers`. An output that has no buffer yet has the index -1. -/
def releaseOrStop (unit : ℕ) (c : Coloring) (i : ℕ) : Except ReadStop Coloring :=
  match (inGraphDef.unit unit).mInputSpec[i]? with
  | none => .ok c
  | some inputSpec =>
    if inputSpec.mFromUnitIndex ≥ 0 ∧ inGraphDef.outputRate inputSpec.fromOutput = .fullRate ∧
        c.mBufferIndex inputSpec.fromOutput < 0 then .error .outside
    else (inGraphDef.releaseInputBuffer unit c i).elim
      (.error (releaseStop c inputSpec.fromOutput)) .ok

/-- One turn of `AllocOutputBuffers`. -/
def allocOrStop (unit : ℕ) (c : Coloring) (i : ℕ) : Except ReadStop Coloring :=
  (inGraphDef.allocOutputBuffer unit c i).elim (.error .outside) .ok

def releasesOrStop (unit : ℕ) (c : Coloring) : Except ReadStop Coloring :=
  (List.range (inGraphDef.unit unit).mInputSpec.length).reverse.foldlM
    (inGraphDef.releaseOrStop unit) c

def allocsOrStop (unit : ℕ) (c : Coloring) : Except ReadStop Coloring :=
  (List.range (inGraphDef.unit unit).mOutputSpec.length).foldlM (inGraphDef.allocOrStop unit) c

def colorUnitOrStop (c : Coloring) (unit : ℕ) : Except ReadStop Coloring :=
  if (inGraphDef.unit unit).cantAlias then
    (inGraphDef.allocsOrStop unit c).bind (inGraphDef.releasesOrStop unit)
  else (inGraphDef.releasesOrStop unit c).bind (inGraphDef.allocsOrStop unit)

/-- The new `mMaxWireBufs` of the world, which cannot be raised while it runs. -/
def checkWireBufs (inWorld : DefWorld) (mNumWireBufs : ℕ) : Except ReadStop ℕ :=
  if inWorld.mRunning then
    if mNumWireBufs > inWorld.mMaxWireBufs then .error (.thrown .wireBufs)
    else .ok inWorld.mMaxWireBufs
  else .ok (max inWorld.mMaxWireBufs mNumWireBufs)

/-- `DoBufferColoring`. -/
def doBufferColoringOrStop (inWorld : DefWorld) : Except ReadStop (Coloring × ℕ) :=
  if inGraphDef.RefersAll then do
    let c ← (List.range inGraphDef.numUnits).foldlM inGraphDef.colorUnitOrStop
      inGraphDef.uncolored
    let mMaxWireBufs ← checkWireBufs inWorld c.bufColor.nextIndex.toNat
    -- multiply buf indices by buf length for proper offset
    return ({ c with
      mBufferIndex := fun o =>
        if inGraphDef.outputRate o = .fullRate then int16 (c.mBufferIndex o * inWorld.mBufLength)
        else c.mBufferIndex o }, mMaxWireBufs)
  else .error .outside

end GraphDef

/-! ## `GraphDef_Read` -/

/-- What a variant has of its own. -/
structure Variant where
  mName : List Byte
  mInitialControlValues : List Word
deriving DecidableEq

/-- `GraphDef_ReadVariant`. -/
def graphDefReadVariant (inGraphDef : RawGraphDef) : DefReader Variant := do
  let mName ← readName
  let mInitialControlValues ← times inGraphDef.mInitialControlValues.length readFloat_be
  return ⟨mName, mInitialControlValues⟩

/-- The variants of a definition, from version 1 on. -/
def variantsRead (inVersion : ℤ) (inGraphDef : RawGraphDef) : DefReader (List Variant) :=
  if inVersion ≥ 1 then counted (graphDefReadVariant inGraphDef) else pure []

/-- A definition that is ready for use, with the `mMaxWireBufs` that it leaves in the world. -/
structure ReadGraphDef where
  raw : RawGraphDef
  coloring : Coloring
  mMaxWireBufs : ℕ
  mVariants : List Variant

/-- `GraphDef_Read`. -/
def graphDefRead (inWorld : DefWorld) (inVersion : ℤ) : DefReader ReadGraphDef := do
  let raw ← rawGraphDefRead inWorld
  let colored ← ofExcept (raw.toGraphDef.doBufferColoringOrStop inWorld)
  let mVariants ← variantsRead inVersion raw
  return ⟨raw, colored.1, colored.2, mVariants⟩

/-! ## Well-formed definitions -/

/-- One of the four rates. -/
def IsRate (mCalcRate : ℤ) : Prop := 0 ≤ mCalcRate ∧ mCalcRate < 4

instance (mCalcRate : ℤ) : Decidable (IsRate mCalcRate) := inferInstanceAs (Decidable (_ ∧ _))

namespace RawGraphDef

/-- An input of the unit at `u` is a constant or an output of a unit in front of it. -/
def InputOk (d : RawGraphDef) (u : ℕ) (inputSpec : InputSpec) : Prop :=
  0 ≤ inputSpec.mFromOutputIndex ∧
    (inputSpec.mFromUnitIndex < 0 ∧ inputSpec.mFromOutputIndex < d.mConstants.length ∨
      0 ≤ inputSpec.mFromUnitIndex ∧ inputSpec.mFromUnitIndex < u ∧
        ∃ unit, d.mUnitSpecs[inputSpec.mFromUnitIndex.toNat]? = some unit ∧
          inputSpec.mFromOutputIndex < unit.mOutputSpec.length)

/-- A definition that later passes may use without a check. The numbers of its items are
lengths of lists, so none of them is negative. -/
structure WellFormed (d : RawGraphDef) : Prop where
  rate : ∀ unit ∈ d.mUnitSpecs, IsRate unit.mCalcRate ∧ ∀ r ∈ unit.mOutputSpec, IsRate r
  input : ∀ u unit, d.mUnitSpecs[u]? = some unit → ∀ i ∈ unit.mInputSpec, d.InputOk u i
  param : ∀ p ∈ d.mParamSpecs, p.mIndex < d.mInitialControlValues.length

end RawGraphDef

/-- An exception, or a well-formed definition. A reader that runs past the end of the bytes or
out of its arrays gives neither. -/
def RejectsOrWellFormed : Except (Fault ReadStop) (ReadGraphDef × List Byte) → Prop
  | .ok (d, _) => d.raw.WellFormed
  | .error (.stop (.thrown _)) => True
  | .error (.stop .outside) => False
  | .error .pastEnd => False

end PoopWorms.Server
