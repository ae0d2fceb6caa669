import PoopWorms.Server.Buses
import Mathlib.Algebra.Field.Basic

/-!
# Bus indices

Every access that the units of `IOUGens.cpp` make to the memory of the buses, for any sequence of
values at their index inputs. An index is a float; where its conversion to `uint32` is undefined
any result may come out.
-/

namespace PoopWorms.Server

/-- `(uint32)f`, which C defines for `-1 < f < 2 ^ 32`. -/
structure UInt32Conversion where
  convert : ℚ → BitVec 32
  convert_eq : ∀ f, -1 < f → f < 2 ^ 32 → (convert f).toNat = ⌊f⌋.toNat

/-- The options of the world. `World_New` allocates `mBufLength * mNumAudioBusChannels` samples for
the audio bus, which an `int` can hold. -/
structure BusOptions where
  mBufLength : ℕ
  mNumAudioBusChannels : ℕ
  mNumControlBusChannels : ℕ
  bufLength_pos : 0 < mBufLength
  audioBus_lt : mBufLength * mNumAudioBusChannels < 2 ^ 31
  controlBus_lt : mNumControlBusChannels < 2 ^ 32

namespace BusOptions

variable (options : BusOptions)

def numBusChannels : BusRate → ℕ
  | .fullRate => options.mNumAudioBusChannels
  | .bufRate => options.mNumControlBusChannels

/-- The samples of one channel of a bus. -/
def channelLength : BusRate → ℕ
  | .fullRate => options.mBufLength
  | .bufRate => 1

/-- All channels that an index names exist. -/
def Names (rate : BusRate) (numChannels : ℕ) (fbusChannel : ℚ) : Prop :=
  -1 < fbusChannel ∧ ⌊fbusChannel⌋.toNat + numChannels ≤ options.numBusChannels rate

end BusOptions

/-- An access to a sample of a bus, or to one of its stamps. -/
inductive BusAccess
  | readSample (place : ℕ)
  | writeSample (place : ℕ)
  | readStamp (channel : ℕ)
  | writeStamp (channel : ℕ)
  deriving DecidableEq

/-- The access is inside the arrays of a bus. -/
def BusAccess.Inside (options : BusOptions) (rate : BusRate) : BusAccess → Prop
  | readSample place | writeSample place =>
    place < options.numBusChannels rate * options.channelLength rate
  | readStamp channel | writeStamp channel => channel < options.numBusChannels rate

/-- The memory of a bus, or of a `LocalIn`. -/
structure BusArrays (Sample : Type) where
  samples : ℕ → Sample
  touched : ℕ → BitVec 32

inductive BusUnitKind
  | input
  | out
  | replaceOut
  | xOut
  | offsetOut
  deriving DecidableEq

/-- A unit with the fields of all kinds: `m_xfade` is that of `XOut`, and `m_saved`, `m_empty` and
`mSampleOffset` of the synth are those of `OffsetOut`. -/
structure BusUnit (Sample : Type) (bufLength : ℕ) where
  kind : BusUnitKind
  mCalcRate : BusRate
  numChannels : ℕ
  m_fbusChannel : ℚ
  m_bus : ℕ
  m_busTouched : ℕ
  m_xfade : Sample
  mSampleOffset : Fin bufLength
  m_saved : ℕ → Sample
  m_empty : Bool

/-! ## The accesses of the loops -/

section Loops

variable {Sample σ : Type}

/-- A loop over the channels, with the accesses of all turns. -/
def forBusChannels (body : ℕ → σ → σ × List BusAccess) (numChannels : ℕ) (s : σ) :
    σ × List BusAccess :=
  (List.range numChannels).foldl (fun r i => ((body i r.1).1, r.2 ++ (body i r.1).2)) (s, [])

/-- `Copy` to a bus, and `Clear`. -/
def copyAccesses (numSamples out : ℕ) : List BusAccess :=
  (List.range numSamples).map fun k => .writeSample (out + k)

/-- `Copy` from a bus. -/
def readAccesses (numSamples input : ℕ) : List BusAccess :=
  (List.range numSamples).map fun k => .readSample (input + k)

/-- `Accum`, and the loops of `XOut` that mix. -/
def mixAccesses (numSamples out : ℕ) : List BusAccess :=
  (List.range numSamples).flatMap fun k => [.readSample (out + k), .writeSample (out + k)]

end Loops

namespace BusArrays

variable {Sample : Type} (m : BusArrays Sample) (bufCounter : BitVec 32)
  (numSamples out channel : ℕ)

def stamp : BusArrays Sample :=
  { m with touched := Function.update m.touched channel bufCounter }

/-- The loop body of `ReplaceOut`. -/
def replaceChannel (input : ℕ → Sample) : BusArrays Sample × List BusAccess :=
  ({ m with samples := copy numSamples out input m.samples }.stamp bufCounter channel,
    copyAccesses numSamples out ++ [.writeStamp channel])

/-- The loop body of `Out`, and of `LocalOut`. -/
def mixChannel [Add Sample] (input : ℕ → Sample) : BusArrays Sample × List BusAccess :=
  if m.touched channel = bufCounter then
    ({ m with samples := accum numSamples out input m.samples },
      .readStamp channel :: mixAccesses numSamples out)
  else
    ({ m with samples := copy numSamples out input m.samples }.stamp bufCounter channel,
      .readStamp channel :: (copyAccesses numSamples out ++ [.writeStamp channel]))

/-- The loop bodies of `XOut` with a fade: `xfade k` is the fade at sample `k`. -/
def fadeChannel [Ring Sample] (xfade input : ℕ → Sample) : BusArrays Sample × List BusAccess :=
  if m.touched channel = bufCounter then
    let samples := fun place =>
      if out ≤ place ∧ place < out + numSamples then
        m.samples place + xfade (place - out) * (input (place - out) - m.samples place)
      else m.samples place
    ({ m with samples }, .readStamp channel :: mixAccesses numSamples out)
  else
    let samples := copy numSamples out (fun k => xfade k * input k) m.samples
    ({ m with samples }.stamp bufCounter channel,
      .readStamp channel :: (copyAccesses numSamples out ++ [.writeStamp channel]))

/-- The loop body of `OffsetOut_next_a`. -/
def offsetChannel [AddMonoid Sample] (offset : ℕ) (empty : Bool) (input saved : ℕ → Sample) :
    BusArrays Sample × List BusAccess :=
  let remain := numSamples - offset
  if m.touched channel = bufCounter then
    let front := if empty then (m.samples, []) else
      (accum offset out saved m.samples, mixAccesses offset out)
    ({ m with samples := accum remain (out + offset) input front.1 },
      .readStamp channel :: (front.2 ++ mixAccesses remain (out + offset)))
  else
    let front := copy offset out (if empty then fun _ => 0 else saved) m.samples
    ({ m with samples := copy remain (out + offset) input front }.stamp bufCounter channel,
      .readStamp channel :: (copyAccesses offset out ++ copyAccesses remain (out + offset) ++
        [.writeStamp channel]))

/-- The loop body of `OffsetOut_Dtor`. -/
def offsetTail [AddMonoid Sample] (offset : ℕ) (empty : Bool) (saved : ℕ → Sample) :
    BusArrays Sample × List BusAccess :=
  let remain := numSamples - offset
  if empty then (m, [])
  else if m.touched channel = bufCounter then
    ({ m with samples := accum offset out saved m.samples },
      .readStamp channel :: mixAccesses offset out)
  else
    let front := copy offset out saved m.samples
    ({ m with samples := copy remain (out + offset) (fun _ => 0) front }.stamp bufCounter channel,
      .readStamp channel :: (copyAccesses offset out ++ copyAccesses remain (out + offset) ++
        [.writeStamp channel]))

/-- The loop body of `In_next_a`. -/
def readChannel : BusArrays Sample × List BusAccess :=
  (m, .readStamp channel ::
    if m.touched channel = bufCounter then readAccesses numSamples out else [])

end BusArrays

/-! ## The calc functions -/

namespace BusUnit

variable {Sample : Type} {bufLength : ℕ}

/-- The constructors, before their own call of the calc function. `memory` is what `RTAlloc` gives
to `OffsetOut`, which is of full rate. -/
def ctor (kind : BusUnitKind) (mCalcRate : BusRate) (numChannels : ℕ) (xfade : Sample)
    (mSampleOffset : Fin bufLength) (memory : ℕ → Sample) : BusUnit Sample bufLength where
  kind := kind
  mCalcRate := if kind = .offsetOut then .fullRate else mCalcRate
  numChannels := numChannels
  m_fbusChannel := -1
  m_bus := 0
  m_busTouched := 0
  m_xfade := xfade
  mSampleOffset := mSampleOffset
  m_saved := memory
  m_empty := true

/-- The head of every calc function. -/
def seek (conversion : UInt32Conversion) (options : BusOptions) (unit : BusUnit Sample bufLength)
    (fbusChannel : ℚ) : BusUnit Sample bufLength :=
  if fbusChannel ≠ unit.m_fbusChannel then
    let busChannel := conversion.convert fbusChannel
    let lastChannel := busChannel + BitVec.ofNat 32 unit.numChannels
    if ¬ options.numBusChannels unit.mCalcRate < lastChannel.toNat then
      { unit with
        m_fbusChannel := fbusChannel
        m_bus := busChannel.toNat * options.channelLength unit.mCalcRate % 2 ^ 32
        m_busTouched := busChannel.toNat }
    else { unit with m_fbusChannel := fbusChannel }
  else unit

/-- The loop over the channels of the unit, of which `len` samples each are on the bus. -/
def forChannels (unit : BusUnit Sample bufLength) (len : ℕ)
    (body : BusArrays Sample → ℕ → ℕ → ℕ → BusArrays Sample × List BusAccess)
    (m : BusArrays Sample) : BusArrays Sample × List BusAccess :=
  forBusChannels (fun i m => body m (unit.m_bus + i * len) (unit.m_busTouched + i) i)
    unit.numChannels m

/-- What the world hands to a calc function: the block counter, `CALCSLOPE`'s factor, and the
inputs, of which `input i` are the samples for channel `i`. -/
structure Call (Sample : Type) where
  bufCounter : BitVec 32
  mSlopeFactor : Sample
  inNumSamples : ℕ
  nextXfade : Sample
  input : ℕ → ℕ → Sample

variable [Field Sample] [DecidableEq Sample] (unit : BusUnit Sample bufLength)
  (c : Call Sample) (m : BusArrays Sample)

/-- `In_next_a`, after the lookup; `In_next_k` does not look at the stamps. -/
def inNextA : BusArrays Sample × List BusAccess :=
  unit.forChannels bufLength (fun m out channel _ =>
    m.readChannel c.bufCounter c.inNumSamples out channel) m

def inNextK : BusArrays Sample × List BusAccess :=
  unit.forChannels 1 (fun m out _ _ => (m, [.readSample out])) m

/-- `Out_next_a` and `Out_next_k`. -/
def outNext (len : ℕ) : BusArrays Sample × List BusAccess :=
  unit.forChannels len (fun m out channel i =>
    m.mixChannel c.bufCounter len out channel (c.input i)) m

/-- `ReplaceOut_next_a` and `ReplaceOut_next_k`. -/
def replaceOutNext (len : ℕ) : BusArrays Sample × List BusAccess :=
  unit.forChannels len (fun m out channel i =>
    m.replaceChannel c.bufCounter len out channel (c.input i)) m

def xOutNextA : BusUnit Sample bufLength × BusArrays Sample × List BusAccess :=
  let xfade0 := unit.m_xfade
  let result :=
    if xfade0 ≠ c.nextXfade then
      let slope := (c.nextXfade - xfade0) * c.mSlopeFactor
      unit.forChannels bufLength (fun m out channel i =>
        m.fadeChannel c.bufCounter bufLength out channel (fun k => xfade0 + k * slope)
          (c.input i)) m
    else if xfade0 = 1 then unit.replaceOutNext c m bufLength
    -- do nothing.
    else if xfade0 = 0 then (m, [])
    else unit.forChannels bufLength (fun m out channel i =>
      m.fadeChannel c.bufCounter bufLength out channel (fun _ => xfade0) (c.input i)) m
  ({ unit with m_xfade := c.nextXfade }, result)

def xOutNextK : BusArrays Sample × List BusAccess :=
  unit.forChannels 1 (fun m out channel i =>
    m.fadeChannel c.bufCounter 1 out channel (fun _ => c.nextXfade) (c.input i)) m

def offsetOutNextA : BusUnit Sample bufLength × BusArrays Sample × List BusAccess :=
  let offset := unit.mSampleOffset
  let remain := bufLength - offset
  let result := forBusChannels (fun i (s : (ℕ → Sample) × BusArrays Sample) =>
    let saved := i * offset
    let r := s.2.offsetChannel c.bufCounter bufLength (unit.m_bus + i * bufLength)
      (unit.m_busTouched + i) offset unit.m_empty (c.input i) fun j => s.1 (saved + j)
    ((copy offset saved (fun j => c.input i (remain + j)) s.1, r.1), r.2))
    unit.numChannels (unit.m_saved, m)
  ({ unit with m_saved := result.1.1, m_empty := false }, result.1.2, result.2)

def offsetOutDtor (bufCounter : BitVec 32) : BusArrays Sample × List BusAccess :=
  let offset := unit.mSampleOffset
  unit.forChannels bufLength (fun m out channel i =>
    m.offsetTail bufCounter bufLength out channel offset unit.m_empty
      fun j => unit.m_saved (i * offset + j)) m

/-- The calc function that the constructor chose. -/
def calcFunc : BusUnit Sample bufLength × BusArrays Sample × List BusAccess :=
  match unit.kind, unit.mCalcRate with
  | .input, .fullRate => (unit, unit.inNextA c m)
  | .input, .bufRate => (unit, unit.inNextK m)
  | .out, .fullRate => (unit, unit.outNext c m bufLength)
  | .out, .bufRate => (unit, unit.outNext c m 1)
  | .replaceOut, .fullRate => (unit, unit.replaceOutNext c m bufLength)
  | .replaceOut, .bufRate => (unit, unit.replaceOutNext c m 1)
  | .xOut, .fullRate => unit.xOutNextA c m
  | .xOut, .bufRate => (unit, unit.xOutNextK c m)
  | .offsetOut, _ => unit.offsetOutNextA c m

end BusUnit

/-- A `LocalIn`, with the memory of its channels. -/
structure LocalIn (Sample : Type) where
  mNumOutputs : ℕ
  memory : BusArrays Sample

/-- `LocalOut_next_a` and `LocalOut_next_k`; there is no result if it reads from a null pointer.
That the numbers of channels differ only clears the outputs of the unit, of which it has none. -/
def localOutNext {Sample : Type} [Add Sample] (bufCounter : BitVec 32) (len : ℕ)
    (localIn : Option (LocalIn Sample)) (numChannels : ℕ) (input : ℕ → ℕ → Sample) :
    Option (LocalIn Sample × List BusAccess) :=
  localIn.map fun localIn =>
    let r := forBusChannels (fun i m => m.mixChannel bufCounter len (i * len) i (input i))
      numChannels localIn.memory
    ({ localIn with memory := r.1 }, r.2)

/-! ## Runs -/

/-- The buses, the units and the `LocalIn`s of the synths. -/
structure BusIndexWorld (Sample : Type) (options : BusOptions) where
  mBufCounter : BitVec 32
  bus : BusRate → BusArrays Sample
  units : ℕ → Option (BusUnit Sample options.mBufLength)
  localIns : ℕ → BusRate → Option (LocalIn Sample)

/-- What happens to the units. A new unit has an index at its input, because the constructor of
`In` makes a first call, of one sample. -/
inductive BusEvent (Sample : Type) (bufLength : ℕ)
  | create (n : ℕ) (kind : BusUnitKind) (mCalcRate : BusRate) (numChannels : ℕ) (xfade : Sample)
    (mSampleOffset : Fin bufLength) (memory : ℕ → Sample) (fbusChannel : ℚ)
  | calcUnit (n : ℕ) (fbusChannel : ℚ) (nextXfade : Sample) (input : ℕ → ℕ → Sample)
  | delete (n : ℕ)
  | createLocalIn (graph : ℕ) (rate : BusRate) (localIn : LocalIn Sample)
  | calcLocalOut (graph : ℕ) (rate : BusRate) (numChannels : ℕ) (input : ℕ → ℕ → Sample)
  | nextBlock

namespace BusIndexWorld

variable {Sample : Type} [Field Sample] [DecidableEq Sample] {options : BusOptions}
  (conversion : UInt32Conversion) (mSlopeFactor : Sample) (w : BusIndexWorld Sample options)

/-- One call of a calc function, with the accesses to the unit's bus. -/
def callUnit (n : ℕ) (unit : BusUnit Sample options.mBufLength) (fbusChannel : ℚ)
    (inNumSamples : ℕ) (nextXfade : Sample) (input : ℕ → ℕ → Sample) :
    BusIndexWorld Sample options × List BusAccess :=
  let unit := unit.seek conversion options fbusChannel
  let r := unit.calcFunc ⟨w.mBufCounter, mSlopeFactor, inNumSamples, nextXfade, input⟩
    (w.bus unit.mCalcRate)
  ({ w with
    bus := Function.update w.bus unit.mCalcRate r.2.1
    units := Function.update w.units n (some r.1) }, r.2.2)

/-- A constructor. That of `In` calls the calc function, for one sample. -/
def createUnit (n : ℕ) (unit : BusUnit Sample options.mBufLength) (fbusChannel : ℚ) :
    BusIndexWorld Sample options × List BusAccess :=
  if unit.kind = .input then
    w.callUnit conversion mSlopeFactor n unit fbusChannel 1 0 fun _ _ => 0
  else ({ w with units := Function.update w.units n (some unit) }, [])

/-- A unit is calculated, if it exists. -/
def calcUnit (n : ℕ) (fbusChannel : ℚ) (nextXfade : Sample) (input : ℕ → ℕ → Sample) :
    BusIndexWorld Sample options × List BusAccess :=
  match w.units n with
  | some unit =>
    w.callUnit conversion mSlopeFactor n unit fbusChannel options.mBufLength nextXfade input
  | none => (w, [])

omit [DecidableEq Sample] in
/-- A unit is deleted; only `OffsetOut` has a destructor that uses the bus. -/
def deleteUnit (n : ℕ) : BusIndexWorld Sample options × List BusAccess :=
  let units := Function.update w.units n none
  match w.units n with
  | some unit =>
    if unit.kind = .offsetOut then
      let r := unit.offsetOutDtor (w.bus .fullRate) w.mBufCounter
      ({ w with bus := Function.update w.bus .fullRate r.1, units }, r.2)
    else ({ w with units }, [])
  | none => (w, [])

/-- The first `LocalIn` of a synth is the one that counts. -/
def createLocalIn (graph : ℕ) (rate : BusRate) (localIn : LocalIn Sample) :
    BusIndexWorld Sample options :=
  let localIns := Function.update (w.localIns graph) rate
    ((w.localIns graph rate).or (some localIn))
  { w with localIns := Function.update w.localIns graph localIns }

/-- A `LocalOut` is calculated. -/
def calcLocalOut (graph : ℕ) (rate : BusRate) (numChannels : ℕ) (input : ℕ → ℕ → Sample) :
    Option (BusIndexWorld Sample options × List BusAccess) :=
  (localOutNext w.mBufCounter (options.channelLength rate) (w.localIns graph rate) numChannels
    input).map fun r =>
      let localIns := Function.update (w.localIns graph) rate (some r.1)
      ({ w with localIns := Function.update w.localIns graph localIns }, r.2)

/-- What an event does, with the accesses to the bus of its unit, or to the memory of the
`LocalIn`. -/
def perform : BusEvent Sample options.mBufLength →
    Option (BusIndexWorld Sample options × List BusAccess)
  | .create n kind mCalcRate numChannels xfade mSampleOffset memory fbusChannel =>
    w.createUnit conversion mSlopeFactor n
      (.ctor kind mCalcRate numChannels xfade mSampleOffset memory) fbusChannel
  | .calcUnit n fbusChannel nextXfade input =>
    w.calcUnit conversion mSlopeFactor n fbusChannel nextXfade input
  | .delete n => w.deleteUnit n
  | .createLocalIn graph rate localIn => some (w.createLocalIn graph rate localIn, [])
  | .calcLocalOut graph rate numChannels input => w.calcLocalOut graph rate numChannels input
  | .nextBlock => some ({ w with mBufCounter := w.mBufCounter + 1 }, [])

/-- The world after an event; nothing happens after a null pointer has been read from. -/
def step (e : BusEvent Sample options.mBufLength) : BusIndexWorld Sample options :=
  ((w.perform conversion mSlopeFactor e).map Prod.fst).getD w

end BusIndexWorld

/-- `World_New` and `World_Start`, before any unit exists. -/
def BusIndexWorld.new (Sample : Type) [Zero Sample] (options : BusOptions) :
    BusIndexWorld Sample options where
  mBufCounter := 0
  bus := fun _ => ⟨fun _ => 0, fun _ => -1⟩
  units := fun _ => none
  localIns := fun _ _ => none

end PoopWorms.Server
