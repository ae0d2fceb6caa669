import PoopWorms.Lib.Stamped
import Mathlib.Data.Rat.Floor

/-!
# The units that write to and read from the buses

`IOUGens.cpp`. A bus is one block of samples with a stamp for every channel: a channel whose
stamp is the block counter has been written in the present block. Samples are exact, of any
type that can be added.
-/

namespace PoopWorms.Server

/-- The audio bus or the control bus, with `mAudioBusTouched` or `mControlBusTouched`. -/
structure Bus (Sample : Type) where
  samples : ℕ → Sample
  touched : ℕ → BitVec 32
  numBusChannels : ℕ

inductive BusRate
  | fullRate
  | bufRate
  deriving DecidableEq

inductive IOKind
  | out
  | replaceOut
  | input
  deriving DecidableEq

/-- `numChannels` is `mNumInputs - 1`, or `mNumOutputs` of an `In`. The pointers `m_bus` and
`m_busTouched` are places in the arrays of the unit's bus. -/
structure IOUnit where
  kind : IOKind
  mCalcRate : BusRate
  numChannels : ℕ
  m_fbusChannel : ℚ
  m_bus : ℕ
  m_busTouched : ℕ

/-- The part of the world that these units use, with the units themselves. -/
structure BusWorld (Sample : Type) where
  mBufLength : ℕ
  mBufCounter : BitVec 32
  mAudioBus : Bus Sample
  mControlBus : Bus Sample
  units : ℕ → IOUnit

/-- `(uint32)f`, which C defines for `-1 < f < 2 ^ 32`. -/
def uint32 (f : ℚ) : ℕ := ⌊f⌋.toNat % 2 ^ 32

namespace IOUnit

/-- `Out_Ctor`, `ReplaceOut_Ctor` and `In_Ctor`, before the first call of the calc function. -/
def ctor (kind : IOKind) (mCalcRate : BusRate) (numChannels : ℕ) : IOUnit :=
  ⟨kind, mCalcRate, numChannels, -1, 0, 0⟩

/-- The head of every calc function: look up the channel if the input has changed. A control
bus has one sample for each channel. -/
def seek (unit : IOUnit) (numBusChannels bufLength : ℕ) (fbusChannel : ℚ) : IOUnit :=
  if fbusChannel ≠ unit.m_fbusChannel then
    let busChannel := uint32 fbusChannel
    let lastChannel := (busChannel + unit.numChannels) % 2 ^ 32
    if ¬ numBusChannels < lastChannel then
      { unit with
        m_fbusChannel := fbusChannel
        m_bus := busChannel * bufLength % 2 ^ 32
        m_busTouched := busChannel }
    else { unit with m_fbusChannel := fbusChannel }
  else unit

end IOUnit

section Samples

variable {Sample : Type}

/-- `Copy`, from `input` to the samples from `out` on. -/
def copy (numSamples out : ℕ) (input : ℕ → Sample) (samples : ℕ → Sample) : ℕ → Sample :=
  fun k => if out ≤ k ∧ k < out + numSamples then input (k - out) else samples k

/-- `Accum`, from `input` onto the samples from `out` on. -/
def accum [Add Sample] (numSamples out : ℕ) (input : ℕ → Sample) (samples : ℕ → Sample) :
    ℕ → Sample :=
  fun k => if out ≤ k ∧ k < out + numSamples then samples k + input (k - out) else samples k

end Samples

namespace Bus

variable {Sample : Type}

/-- The loop body of `ReplaceOut`. -/
def replaceChannel (bufCounter : BitVec 32) (numSamples out touched : ℕ) (input : ℕ → Sample)
    (bus : Bus Sample) : Bus Sample :=
  { bus with
    samples := copy numSamples out input bus.samples
    touched := Function.update bus.touched touched bufCounter }

/-- The loop body of `Out`. -/
def mixChannel [Add Sample] (bufCounter : BitVec 32) (numSamples out touched : ℕ)
    (input : ℕ → Sample) (bus : Bus Sample) : Bus Sample :=
  if bus.touched touched = bufCounter then
    { bus with samples := accum numSamples out input bus.samples }
  else bus.replaceChannel bufCounter numSamples out touched input

/-- The loop over the channels of a unit: `out` moves on by the samples of a channel. -/
def forChannels (body : ℕ → ℕ → (ℕ → Sample) → Bus Sample → Bus Sample) (bufLength : ℕ)
    (unit : IOUnit) (input : ℕ → ℕ → Sample) (bus : Bus Sample) : Bus Sample :=
  (List.range unit.numChannels).foldl (fun bus i =>
    body (unit.m_bus + i * bufLength) (unit.m_busTouched + i) (input i) bus) bus

end Bus

namespace BusWorld

variable {Sample : Type}

def bus (w : BusWorld Sample) : BusRate → Bus Sample
  | .fullRate => w.mAudioBus
  | .bufRate => w.mControlBus

/-- The samples of one channel of a bus. -/
def channelLength (w : BusWorld Sample) : BusRate → ℕ
  | .fullRate => w.mBufLength
  | .bufRate => 1

/-- The samples that `World_New` allocates for a bus. -/
def numsamples (w : BusWorld Sample) : BusRate → ℕ
  | .fullRate => w.mBufLength * w.mAudioBus.numBusChannels % 2 ^ 32
  | .bufRate => w.mControlBus.numBusChannels

/-- `ReplaceOut_next_a`, called with `inNumSamples = mBufLength`, after the channel has been
looked up. `input i` are the samples at `IN(i + 1)`. -/
def replaceOutNextA (w : BusWorld Sample) (unit : IOUnit) (input : ℕ → ℕ → Sample) :
    BusWorld Sample :=
  { w with
    mAudioBus := w.mAudioBus.forChannels (Bus.replaceChannel w.mBufCounter w.mBufLength)
      w.mBufLength unit input }

def replaceOutNextK (w : BusWorld Sample) (unit : IOUnit) (input : ℕ → ℕ → Sample) :
    BusWorld Sample :=
  { w with
    mControlBus := w.mControlBus.forChannels (Bus.replaceChannel w.mBufCounter 1) 1
      unit input }

def outNextA [Add Sample] (w : BusWorld Sample) (unit : IOUnit) (input : ℕ → ℕ → Sample) :
    BusWorld Sample :=
  { w with
    mAudioBus := w.mAudioBus.forChannels (Bus.mixChannel w.mBufCounter w.mBufLength)
      w.mBufLength unit input }

def outNextK [Add Sample] (w : BusWorld Sample) (unit : IOUnit) (input : ℕ → ℕ → Sample) :
    BusWorld Sample :=
  { w with
    mControlBus := w.mControlBus.forChannels (Bus.mixChannel w.mBufCounter 1) 1 unit input }

/-- The samples that `In_next_a` leaves at `OUT(i)`. -/
def inNextA [Zero Sample] (w : BusWorld Sample) (unit : IOUnit) (i j : ℕ) : Sample :=
  if w.mAudioBus.touched (unit.m_busTouched + i) = w.mBufCounter then
    w.mAudioBus.samples (unit.m_bus + i * w.mBufLength + j)
  else 0

/-- `In_next_k` does not look at the stamps. -/
def inNextK (w : BusWorld Sample) (unit : IOUnit) (i : ℕ) : Sample :=
  w.mControlBus.samples (unit.m_bus + i)

end BusWorld

/-- One call of a unit's calc function, with what the unit finds at its inputs. -/
structure IOCall (Sample : Type) where
  unit : ℕ
  fbusChannel : ℚ
  input : ℕ → ℕ → Sample

namespace BusWorld

variable {Sample : Type}

/-- The unit after it has looked up its channel. -/
def sought (w : BusWorld Sample) (c : IOCall Sample) : IOUnit :=
  let unit := w.units c.unit
  unit.seek (w.bus unit.mCalcRate).numBusChannels (w.channelLength unit.mCalcRate) c.fbusChannel

/-- What a call of an `In` leaves at its outputs. -/
def read [Zero Sample] (w : BusWorld Sample) (c : IOCall Sample) (i j : ℕ) : Sample :=
  match (w.units c.unit).mCalcRate with
  | .fullRate => w.inNextA (w.sought c) i j
  | .bufRate => w.inNextK (w.sought c) i

variable [Add Sample]

/-- The calc function that the constructor chose. -/
def call (w : BusWorld Sample) (c : IOCall Sample) : BusWorld Sample :=
  let unit := w.sought c
  let w := { w with units := Function.update w.units c.unit unit }
  match unit.kind, unit.mCalcRate with
  | .out, .fullRate => w.outNextA unit c.input
  | .out, .bufRate => w.outNextK unit c.input
  | .replaceOut, .fullRate => w.replaceOutNextA unit c.input
  | .replaceOut, .bufRate => w.replaceOutNextK unit c.input
  | .input, _ => w

def calls (w : BusWorld Sample) (cs : List (IOCall Sample)) : BusWorld Sample :=
  cs.foldl call w

/-- The driver's loop: the calls of one block after another, and the counter. -/
def blocks (w : BusWorld Sample) (bs : List (List (IOCall Sample))) : BusWorld Sample :=
  bs.foldl (fun w cs => { w.calls cs with mBufCounter := w.mBufCounter + 1 }) w

/-- `World_Start`. -/
def start (w : BusWorld Sample) : BusWorld Sample :=
  { w with
    mBufCounter := 0
    mAudioBus.touched := fun _ => -1
    mControlBus.touched := fun _ => -1 }

end BusWorld

end PoopWorms.Server
