import PoopWorms.Lib.Carving
import PoopWorms.Server.GraphDefRead
import Mathlib.Algebra.GroupWithZero.Nat

/-!
# The memory of a synth

`GraphDef_Read` sums up how many bytes a synth of the definition takes, and `Graph_Ctor` and
`Unit_New` carve one allocation of that many bytes with a cursor. Both multiply the same
counts by the same sizes, but each product and each sum is a `size_t`, which a build for 32
bits brings back below 2 ^ 32. The cursor is a pointer: it is given by the number of bytes
that it is away from the allocation.
-/

namespace PoopWorms.Server

/-- The sizes that a build gives the types. All pointers have one size. -/
structure DataModel where
  /-- the bits of a `size_t` -/
  sizeBits : ℕ
  sizeofPointer : ℕ
  sizeofInt : ℕ
  sizeofFloat : ℕ
  sizeofWire : ℕ
  sizeofGraph : ℕ
  int_le_pointer : sizeofInt ≤ sizeofPointer

namespace DataModel

/-- A build for 32 bits. -/
def ilp32 : DataModel where
  sizeBits := 32
  sizeofPointer := 4
  sizeofInt := 4
  sizeofFloat := 4
  sizeofWire := 16
  sizeofGraph := 108
  int_le_pointer := by decide

/-- A build for 64 bits. -/
def lp64 : DataModel where
  sizeBits := 64
  sizeofPointer := 8
  sizeofInt := 4
  sizeofFloat := 4
  sizeofWire := 32
  sizeofGraph := 200
  int_le_pointer := by decide

/-- The value that a `size_t` holds after an assignment. -/
def sizeT (m : DataModel) (x : ℕ) : ℕ := x % 2 ^ m.sizeBits

end DataModel

/-! ## The sizes -/

namespace RawUnitSpec

def mNumInputs (unitSpec : RawUnitSpec) : ℕ := unitSpec.mInputSpec.length

def mNumOutputs (unitSpec : RawUnitSpec) : ℕ := unitSpec.mOutputSpec.length

def numPorts (unitSpec : RawUnitSpec) : ℕ := unitSpec.mNumInputs + unitSpec.mNumOutputs

end RawUnitSpec

/-- What `GraphDef_Read` computes for `Graph_Ctor`. -/
structure AllocSizes where
  /-- `mNodeDef.mAllocSize` -/
  mAllocSize : ℕ
  mNumControls : ℕ
  mNumWires : ℕ
  mNumCalcUnits : ℕ
  mWiresAllocSize : ℕ
  mUnitsAllocSize : ℕ
  mCalcUnitsAllocSize : ℕ
  mControlAllocSize : ℕ
  mMapControlsAllocSize : ℕ
  mMapControlRatesAllocSize : ℕ

namespace DataModel

variable (m : DataModel)

/-- `UnitSpec::mAllocSize`, as `UnitSpec_Read` computes it. -/
def unitAllocSize (unitSpec : RawUnitSpec) : ℕ :=
  m.sizeT (unitSpec.mUnitDef.mAllocSize + unitSpec.numPorts * (m.sizeofPointer + m.sizeofPointer))

/-- The three sums of the loop over the units. -/
structure UnitSums where
  mAllocSize : ℕ
  mNumWires : ℕ
  mNumCalcUnits : ℕ

/-- One turn of the loop over the units in `GraphDef_Read`. -/
def addUnit (sums : UnitSums) (unitSpec : RawUnitSpec) : UnitSums where
  mAllocSize := m.sizeT (sums.mAllocSize + m.unitAllocSize unitSpec)
  -- a `uint32`
  mNumWires := (sums.mNumWires + unitSpec.mNumOutputs) % 2 ^ 32
  mNumCalcUnits :=
    -- `calc_BufRate` and `calc_FullRate`
    if unitSpec.mCalcRate = 1 then sums.mNumCalcUnits + 1
    else if unitSpec.mCalcRate = 2 then sums.mNumCalcUnits + 1
    else sums.mNumCalcUnits

def unitSums (d : RawGraphDef) : UnitSums :=
  d.mUnitSpecs.foldl m.addUnit ⟨m.sizeofGraph, d.mConstants.length, 0⟩

/-- The sizes that `GraphDef_Read` leaves in a definition. -/
def allocSizes (d : RawGraphDef) : AllocSizes :=
  let sums := m.unitSums d
  let mNumControls := d.mInitialControlValues.length
  let mWiresAllocSize := m.sizeT (sums.mNumWires * m.sizeofWire)
  let mUnitsAllocSize := m.sizeT (d.mUnitSpecs.length * m.sizeofPointer)
  let mCalcUnitsAllocSize := m.sizeT (sums.mNumCalcUnits * m.sizeofPointer)
  let mControlAllocSize := m.sizeT (mNumControls * m.sizeofFloat)
  let mMapControlsAllocSize := m.sizeT (mNumControls * m.sizeofPointer)
  -- the rates are `int`s, with the room of as many pointers
  let mMapControlRatesAllocSize := m.sizeT (mNumControls * m.sizeofPointer)
  let mAllocSize := m.sizeT (sums.mAllocSize + mWiresAllocSize)
  let mAllocSize := m.sizeT (mAllocSize + mUnitsAllocSize)
  let mAllocSize := m.sizeT (mAllocSize + mCalcUnitsAllocSize)
  let mAllocSize := m.sizeT (mAllocSize + mControlAllocSize)
  let mAllocSize := m.sizeT (mAllocSize + mMapControlsAllocSize)
  let mAllocSize := m.sizeT (mAllocSize + mMapControlRatesAllocSize)
  { mAllocSize := mAllocSize
    mNumControls := mNumControls
    mNumWires := sums.mNumWires
    mNumCalcUnits := sums.mNumCalcUnits
    mWiresAllocSize := mWiresAllocSize
    mUnitsAllocSize := mUnitsAllocSize
    mCalcUnitsAllocSize := mCalcUnitsAllocSize
    mControlAllocSize := mControlAllocSize
    mMapControlsAllocSize := mMapControlsAllocSize
    mMapControlRatesAllocSize := mMapControlRatesAllocSize }

end DataModel

/-- A definition or a variant, with its sizes. -/
structure SynthDef where
  raw : RawGraphDef
  sizes : AllocSizes

/-- `GraphDef_ReadVariant` copies the definition before it reads the name and the values. -/
def SynthDef.readVariant (inGraphDef : SynthDef) (v : Variant) : SynthDef where
  raw := { inGraphDef.raw with
    mName := v.mName
    mInitialControlValues := v.mInitialControlValues }
  sizes := inGraphDef.sizes

/-- What synths are made of: a definition, and its variants. -/
def DataModel.synthDefs (m : DataModel) (d : RawGraphDef) (mVariants : List Variant) :
    List SynthDef :=
  let inGraphDef : SynthDef := ⟨d, m.allocSizes d⟩
  inGraphDef :: mVariants.map inGraphDef.readVariant

/-! ## The cursor -/

/-- The variables of `Graph_Ctor` that run through the units. -/
structure Construction where
  memory : Carving
  wireCtr : ℕ
  calcCtr : ℕ

namespace DataModel

variable (m : DataModel)

/-- `Unit_New`: the struct, and two arrays with the inputs in front of the outputs. -/
def unitNew (inUnitSpec : RawUnitSpec) (memory : Carving) : Carving :=
  let def_ := inUnitSpec.mUnitDef
  let ports := inUnitSpec.mNumInputs * m.sizeofPointer + inUnitSpec.mNumOutputs * m.sizeofPointer
  let memory := memory.take def_.mAllocSize def_.mAllocSize
  -- mInput and mOutput
  let memory := memory.take (m.sizeT (inUnitSpec.numPorts * m.sizeofPointer)) ports
  -- mInBuf and mOutBuf
  memory.take (m.sizeT (inUnitSpec.numPorts * m.sizeofPointer)) ports

/-- One turn of the loop over the units in `Graph_Ctor`. -/
def constructUnit (g : Construction) (unitSpec : RawUnitSpec) : Construction where
  memory := m.unitNew unitSpec g.memory
  wireCtr := g.wireCtr + unitSpec.mNumOutputs
  calcCtr :=
    if unitSpec.mCalcRate = 2 then g.calcCtr + 1
    else if unitSpec.mCalcRate = 1 then g.calcCtr + 1
    else g.calcCtr

/-- The part of `Graph_Ctor` in front of the units. -/
def carveGraph (inGraphDef : SynthDef) : Carving :=
  let sizes := inGraphDef.sizes
  let memory := Carving.start.take m.sizeofGraph m.sizeofGraph
  let numUnits := inGraphDef.raw.mUnitSpecs.length
  let memory := memory.take sizes.mUnitsAllocSize (numUnits * m.sizeofPointer)
  let memory := memory.take sizes.mWiresAllocSize (sizes.mNumWires * m.sizeofWire)
  let memory := memory.take sizes.mCalcUnitsAllocSize (sizes.mNumCalcUnits * m.sizeofPointer)
  let memory := memory.take sizes.mControlAllocSize (sizes.mNumControls * m.sizeofFloat)
  let memory := memory.take sizes.mMapControlsAllocSize (sizes.mNumControls * m.sizeofPointer)
  memory.take sizes.mMapControlRatesAllocSize (sizes.mNumControls * m.sizeofInt)

/-- `Graph_Ctor`. -/
def graphCtor (inGraphDef : SynthDef) : Construction :=
  inGraphDef.raw.mUnitSpecs.foldl m.constructUnit
    ⟨m.carveGraph inGraphDef, inGraphDef.raw.mConstants.length, 0⟩

/-- A synth lies in its allocation: the carving is sound, and the loop over the units fills
the arrays of the wires and of the calculated units as far as they were counted. -/
structure LaidOut (inGraphDef : SynthDef) : Prop where
  sound : (m.graphCtor inGraphDef).memory.Sound inGraphDef.sizes.mAllocSize
  wires : (m.graphCtor inGraphDef).wireCtr = inGraphDef.sizes.mNumWires
  calcUnits : (m.graphCtor inGraphDef).calcCtr = inGraphDef.sizes.mNumCalcUnits

end DataModel

/-! ## The bytes of a synth -/

/-- The constants and the outputs of all units. -/
def RawGraphDef.numWires (d : RawGraphDef) : ℕ :=
  d.mConstants.length + (d.mUnitSpecs.map RawUnitSpec.mNumOutputs).sum

namespace DataModel

variable (m : DataModel)

/-- A unit that is calculated in every block. -/
def isCalc (unitSpec : RawUnitSpec) : Bool := unitSpec.mCalcRate = 1 ∨ unitSpec.mCalcRate = 2

/-- The bytes of one unit. -/
def unitSize (unitSpec : RawUnitSpec) : ℕ :=
  unitSpec.mUnitDef.mAllocSize +
    (unitSpec.numPorts * m.sizeofPointer + unitSpec.numPorts * m.sizeofPointer)

/-- How many bytes the parts of a synth have, as a number that does not wrap around. -/
def exactSize (d : RawGraphDef) : ℕ :=
  let controls := d.mInitialControlValues.length
  m.sizeofGraph + d.mUnitSpecs.length * m.sizeofPointer +
    d.numWires * m.sizeofWire + d.mUnitSpecs.countP isCalc * m.sizeofPointer +
    controls * m.sizeofFloat + controls * m.sizeofPointer + controls * m.sizeofPointer +
    (d.mUnitSpecs.map m.unitSize).sum

end DataModel

/-! ## Counts -/

/-- The counts of a definition are read as numbers of 16 bits. -/
structure RawGraphDef.Counted (d : RawGraphDef) : Prop where
  constants : d.mConstants.length < 2 ^ 16
  controls : d.mInitialControlValues.length < 2 ^ 16
  units : d.mUnitSpecs.length < 2 ^ 16
  inputs : ∀ unitSpec ∈ d.mUnitSpecs, unitSpec.mNumInputs < 2 ^ 16
  outputs : ∀ unitSpec ∈ d.mUnitSpecs, unitSpec.mNumOutputs < 2 ^ 16

end PoopWorms.Server
