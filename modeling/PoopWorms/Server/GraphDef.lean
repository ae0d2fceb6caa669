import PoopWorms.Lib.ColorStack
import Mathlib.Algebra.GroupWithZero.Nat
import Mathlib.Data.Int.Basic

/-!
# Wire buffers of a synth definition

`DoBufferColoring` of `SC_GraphDef.cpp` gives every audio-rate output of a definition a
place in the buffer space that all synths share, and `Graph_Ctor` connects the inputs of
the units to these places through the wires. Fields of type `int16` are integers that are
brought into their range by `int16` on every assignment.
-/

namespace PoopWorms.Server

/-- The value that an `int16` holds after an assignment. -/
def int16 (x : ℤ) : ℤ := x.bmod (2 ^ 16)

inductive CalcRate
  | scalarRate
  | bufRate
  | fullRate
  | demandRate
deriving DecidableEq

/-- The fields of `InputSpec` that are read from the file. -/
structure InputSpec where
  mFromUnitIndex : ℤ
  mFromOutputIndex : ℤ
deriving DecidableEq

/-- `UnitSpec`, with the flag `kUnitDef_CantAliasInputsToOutputs` of its unit, its inputs,
and the rates of its outputs. -/
structure UnitSpec where
  mCalcRate : CalcRate
  cantAlias : Bool
  mInputSpec : List InputSpec
  mOutputSpec : List CalcRate
deriving DecidableEq

structure GraphDef where
  mNumConstants : ℕ
  mUnitSpecs : List UnitSpec

/-- An output, by its unit and its place among the outputs of the unit. -/
abbrev Output := ℕ × ℕ

/-- The output that an input comes from, for an input that is not a constant. -/
def InputSpec.fromOutput (inputSpec : InputSpec) : Output :=
  (inputSpec.mFromUnitIndex.toNat, inputSpec.mFromOutputIndex.toNat)

namespace GraphDef

variable (inGraphDef : GraphDef)

def numUnits : ℕ := inGraphDef.mUnitSpecs.length

def unit (u : ℕ) : UnitSpec := inGraphDef.mUnitSpecs.getD u ⟨.scalarRate, false, [], []⟩

def outputRate (o : Output) : CalcRate := (inGraphDef.unit o.1).mOutputSpec.getD o.2 .scalarRate

end GraphDef

/-! ## `BufColorAllocator` -/

/-- `stack` holds the top of the stack first. -/
structure BufColorAllocator where
  refs : ℤ → ℤ
  stack : List ℤ
  nextIndex : ℤ
  refsMaxSize : ℤ
  stackMaxSize : ℤ

namespace BufColorAllocator

def new : BufColorAllocator where
  refs := fun _ => 0
  stack := []
  nextIndex := 0
  refsMaxSize := 32
  stackMaxSize := 32

/-- The array is made twice as long; asking for a negative size has no result. -/
def grow (maxSize : ℤ) : Option ℤ := if maxSize < 0 then none else some (int16 (maxSize * 2))

def alloc (a : BufColorAllocator) (count : ℤ) : Option (BufColorAllocator × ℤ) := do
  let (outIndex, a) :=
    match a.stack with
    | outIndex :: stack => (outIndex, { a with stack := stack })
    | [] => (a.nextIndex, { a with nextIndex := int16 (a.nextIndex + 1) })
  let refsMaxSize ← if outIndex ≥ a.refsMaxSize then grow a.refsMaxSize else some a.refsMaxSize
  return ({ a with
    refs := Function.update a.refs outIndex count
    refsMaxSize := refsMaxSize }, outIndex)

/-- There is no result either when the count is zero: the caller throws. -/
def release (a : BufColorAllocator) (inIndex : ℤ) : Option BufColorAllocator :=
  if a.refs inIndex = 0 then none
  else
    let count := int16 (a.refs inIndex - 1)
    let refs := Function.update a.refs inIndex count
    if count = 0 then do
      let stackMaxSize ←
        if a.stack.length ≥ a.stackMaxSize then grow a.stackMaxSize else some a.stackMaxSize
      return { a with refs := refs, stack := inIndex :: a.stack, stackMaxSize := stackMaxSize }
    else some { a with refs := refs }

end BufColorAllocator

/-! ## `DoBufferColoring` -/

/-- The computed fields of the specs, with the local variables of the colouring. -/
structure Coloring where
  bufColor : BufColorAllocator
  wireIndexCtr : ℤ
  /-- `InputSpec::mWireIndex` -/
  inputWireIndex : ℕ × ℕ → ℤ
  /-- `OutputSpec::mWireIndex` -/
  outputWireIndex : Output → ℤ
  /-- `OutputSpec::mBufferIndex` -/
  mBufferIndex : Output → ℤ

namespace GraphDef

variable (inGraphDef : GraphDef)

/-- `OutputSpec::mNumConsumers`, as the first loop counts it. -/
def mNumConsumers : Output → ℤ :=
  (List.range inGraphDef.numUnits).foldl (fun counts j =>
    (inGraphDef.unit j).mInputSpec.foldl (fun counts inputSpec =>
      if inputSpec.mFromUnitIndex ≥ 0 then
        Function.update counts inputSpec.fromOutput (int16 (counts inputSpec.fromOutput + 1))
      else counts) counts) fun _ => 0

/-- One turn of `ReleaseInputBuffers`. -/
def releaseInputBuffer (unit : ℕ) (c : Coloring) (i : ℕ) : Option Coloring :=
  match (inGraphDef.unit unit).mInputSpec[i]? with
  | none => some c
  | some inputSpec =>
    if inputSpec.mFromUnitIndex ≥ 0 then
      let o := inputSpec.fromOutput
      let c := { c with
        inputWireIndex := Function.update c.inputWireIndex (unit, i) (c.outputWireIndex o) }
      if inGraphDef.outputRate o = .fullRate then
        (c.bufColor.release (c.mBufferIndex o)).map fun bufColor => { c with bufColor := bufColor }
      else some c
    else some { c with
      inputWireIndex := Function.update c.inputWireIndex (unit, i) inputSpec.mFromOutputIndex }

/-- `ReleaseInputBuffers`, from the last input to the first. -/
def releaseInputBuffers (unit : ℕ) (c : Coloring) : Option Coloring :=
  (List.range (inGraphDef.unit unit).mInputSpec.length).reverse.foldlM
    (inGraphDef.releaseInputBuffer unit) c

/-- One turn of `AllocOutputBuffers`. -/
def allocOutputBuffer (unit : ℕ) (c : Coloring) (i : ℕ) : Option Coloring :=
  let o := (unit, i)
  let c := { c with
    outputWireIndex := Function.update c.outputWireIndex o (int16 c.wireIndexCtr)
    wireIndexCtr := c.wireIndexCtr + 1 }
  if inGraphDef.outputRate o = .fullRate then
    (c.bufColor.alloc (inGraphDef.mNumConsumers o)).map fun r => { c with
      bufColor := r.1
      mBufferIndex := Function.update c.mBufferIndex o (int16 r.2) }
  else some c

/-- `AllocOutputBuffers`. -/
def allocOutputBuffers (unit : ℕ) (c : Coloring) : Option Coloring :=
  (List.range (inGraphDef.unit unit).mOutputSpec.length).foldlM
    (inGraphDef.allocOutputBuffer unit) c

/-- The buffers of one unit. -/
def colorUnit (c : Coloring) (unit : ℕ) : Option Coloring :=
  if (inGraphDef.unit unit).cantAlias then
    (inGraphDef.allocOutputBuffers unit c).bind (inGraphDef.releaseInputBuffers unit)
  else (inGraphDef.releaseInputBuffers unit c).bind (inGraphDef.allocOutputBuffers unit)

/-- The specs as they are read, and a new allocator. -/
def uncolored : Coloring where
  bufColor := .new
  wireIndexCtr := inGraphDef.mNumConstants
  inputWireIndex := fun _ => -1
  outputWireIndex := fun _ => -1
  mBufferIndex := fun _ => -1

/-- `DoBufferColoring`. Whether the world has the buffers that it asks for is left out. -/
def doBufferColoring (bufLength : ℕ) : Option Coloring :=
  ((List.range inGraphDef.numUnits).foldlM inGraphDef.colorUnit inGraphDef.uncolored).map
    fun c => { c with
      -- multiply buf indices by buf length for proper offset
      mBufferIndex := fun o =>
        if inGraphDef.outputRate o = .fullRate then int16 (c.mBufferIndex o * bufLength)
        else c.mBufferIndex o }

/-! ## What the colouring is for -/

/-- The outputs of a unit that have a buffer, in order. -/
def audioOutputsOf (unit : ℕ) : List Output :=
  ((List.range (inGraphDef.unit unit).mOutputSpec.length).map (Prod.mk unit)).filter fun o =>
    inGraphDef.outputRate o = .fullRate

def audioOutputs : List Output :=
  (List.range inGraphDef.numUnits).flatMap inGraphDef.audioOutputsOf

/-- The outputs that a unit reads, in order. -/
def inputsOf (unit : ℕ) : List Output :=
  (inGraphDef.unit unit).mInputSpec.filterMap fun inputSpec =>
    if inputSpec.mFromUnitIndex ≥ 0 then some inputSpec.fromOutput else none

/-- A unit that `Graph_Calc` calls. -/
def Calculated (unit : ℕ) : Prop :=
  unit < inGraphDef.numUnits ∧
    ((inGraphDef.unit unit).mCalcRate = .fullRate ∨ (inGraphDef.unit unit).mCalcRate = .bufRate)

/-- The wire that `Graph_Ctor` connects an output to. -/
def wire (o : Output) : ℕ :=
  inGraphDef.mNumConstants +
    ((List.range o.1).map fun u => (inGraphDef.unit u).mOutputSpec.length).sum + o.2

/-- The place `a` of the buffer space is in the buffer at `mBufferIndex`. -/
def InBuffer (bufLength : ℕ) (mBufferIndex a : ℤ) : Prop :=
  mBufferIndex ≤ a ∧ a < mBufferIndex + bufLength

instance (bufLength : ℕ) (mBufferIndex a : ℤ) : Decidable (InBuffer bufLength mBufferIndex a) :=
  inferInstanceAs (Decidable (_ ∧ _))

/-- The output that was last written to a place of the buffer space, when in a cycle the
units before `unit` have been called. -/
def lastWriter (bufLength : ℕ) (mBufferIndex : Output → ℤ) : ℕ → ℤ → Option Output
  | 0, _ => none
  | unit + 1, a =>
    ((inGraphDef.audioOutputsOf unit).find? fun o => InBuffer bufLength (mBufferIndex o) a).or
      (lastWriter bufLength mBufferIndex unit a)

/-- An output has a reader that comes later than the outputs of `unit` are given buffers. -/
def NeededAfter (o : Output) (unit : ℕ) : Prop :=
  ∃ w < inGraphDef.numUnits, o ∈ inGraphDef.inputsOf w ∧
    (unit < w ∨ unit = w ∧ (inGraphDef.unit unit).cantAlias)

/-- No unit reads an output. Its buffer is never given to another output. -/
def Unused (o : Output) : Prop := ∀ w < inGraphDef.numUnits, o ∉ inGraphDef.inputsOf w

instance (o : Output) (unit : ℕ) : Decidable (inGraphDef.NeededAfter o unit) :=
  inferInstanceAs (Decidable (∃ _, _ ∧ _))

instance (o : Output) : Decidable (inGraphDef.Unused o) :=
  inferInstanceAs (Decidable (∀ _, _ → _))

/-- The audio output `o'` is live when the output `o` is written. -/
def LiveWith (o o' : Output) : Prop :=
  o'.1 = o.1 ∧ o'.2 ≤ o.2 ∨
    o'.1 < o.1 ∧ (inGraphDef.NeededAfter o' o.1 ∨ inGraphDef.Unused o')

instance (o o' : Output) : Decidable (inGraphDef.LiveWith o o') :=
  inferInstanceAs (Decidable (_ ∨ _))

/-- How many audio outputs are live when `o` is written. -/
def numLive (o : Output) : ℕ :=
  (inGraphDef.audioOutputs.filter fun o' => inGraphDef.LiveWith o o').length

/-- Every unit reads constants and outputs of earlier units, and the outputs of a unit have
its rate. -/
structure WellFormed : Prop where
  rate : ∀ u < inGraphDef.numUnits, ∀ r ∈ (inGraphDef.unit u).mOutputSpec,
    r = (inGraphDef.unit u).mCalcRate
  input : ∀ u < inGraphDef.numUnits, ∀ inputSpec ∈ (inGraphDef.unit u).mInputSpec,
    0 ≤ inputSpec.mFromOutputIndex ∧
      (inputSpec.mFromUnitIndex < 0 ∧ inputSpec.mFromOutputIndex < inGraphDef.mNumConstants ∨
        0 ≤ inputSpec.mFromUnitIndex ∧ inputSpec.fromOutput.1 < u ∧
          inputSpec.fromOutput.2 < (inGraphDef.unit inputSpec.fromOutput.1).mOutputSpec.length)

/-- How many inputs read an output. -/
def numReaders (o : Output) : ℕ :=
  ((List.range inGraphDef.numUnits).flatMap inGraphDef.inputsOf).count o

/-- What a colouring has to achieve. -/
structure Sound (bufLength : ℕ) (c : Coloring) : Prop where
  /-- An input of a calculated unit that reads an audio output is connected to its wire. -/
  connected : ∀ u, inGraphDef.Calculated u → ∀ i inputSpec,
    (inGraphDef.unit u).mInputSpec[i]? = some inputSpec → inputSpec.mFromUnitIndex ≥ 0 →
    inGraphDef.outputRate inputSpec.fromOutput = .fullRate →
    c.inputWireIndex (u, i) = inGraphDef.wire inputSpec.fromOutput
  /-- When the unit is called, the buffer behind the input holds what its producer wrote. -/
  held : ∀ u, inGraphDef.Calculated u → ∀ o ∈ inGraphDef.inputsOf u,
    inGraphDef.outputRate o = .fullRate → ∀ a, InBuffer bufLength (c.mBufferIndex o) a →
    inGraphDef.lastWriter bufLength c.mBufferIndex u a = some o
  /-- Outputs that are live at the same time share no memory. -/
  disjoint : ∀ o ∈ inGraphDef.audioOutputs, ∀ o' ∈ inGraphDef.audioOutputs, o' ≠ o →
    inGraphDef.LiveWith o o' → ∀ a, InBuffer bufLength (c.mBufferIndex o) a →
    ¬ InBuffer bufLength (c.mBufferIndex o') a
  /-- The outputs of a unit that cannot alias share no memory with its inputs. -/
  cantAlias : ∀ u < inGraphDef.numUnits, (inGraphDef.unit u).cantAlias →
    ∀ o ∈ inGraphDef.audioOutputsOf u, ∀ o' ∈ inGraphDef.inputsOf u,
    inGraphDef.outputRate o' = .fullRate → ∀ a, InBuffer bufLength (c.mBufferIndex o) a →
    ¬ InBuffer bufLength (c.mBufferIndex o') a
  /-- Every buffer is one of the `mNumWireBufs` buffers of the definition. -/
  bounded : ∀ o ∈ inGraphDef.audioOutputs, 0 ≤ c.mBufferIndex o ∧
    c.mBufferIndex o + bufLength ≤ c.bufColor.nextIndex * bufLength

end GraphDef

end PoopWorms.Server
