import PoopWorms.Server.BusesTheorems

/-!
# Output with a sample offset

`OffsetOut` starts in the middle of a block. What of its input does not fit into a block it keeps
until the next one, and the last of it is written by its destructor. Between its own calls,
anything may be done to the bus.
-/

namespace PoopWorms.Server

/-- `OffsetOut`, with `mSampleOffset` of its synth. `m_saved` is the memory that the constructor
was given, of `mSampleOffset` samples for each channel. -/
structure OffsetOut (Sample : Type) extends IOUnit where
  mSampleOffset : ℕ
  m_saved : ℕ → Sample
  m_empty : Bool

namespace Bus

variable {Sample : Type} [AddCommGroup Sample]

/-- The loop body of `OffsetOut_next_a` for one channel: what becomes of the bus. -/
def offsetChannel (bufCounter : BitVec 32) (bufLength offset : ℕ) (empty : Bool)
    (out touched : ℕ) (input saved : ℕ → Sample) (bus : Bus Sample) : Bus Sample :=
  let remain := bufLength - offset
  if bus.touched touched = bufCounter then
    let samples := if empty then bus.samples else accum offset out saved bus.samples
    { bus with samples := accum remain (out + offset) input samples }
  else
    let samples :=
      if empty then copy offset out (fun _ => 0) bus.samples
      else copy offset out saved bus.samples
    { bus with
      samples := copy remain (out + offset) input samples
      touched := Function.update bus.touched touched bufCounter }

/-- The loop body of `OffsetOut_Dtor` for one channel. -/
def offsetTail (bufCounter : BitVec 32) (bufLength offset : ℕ) (empty : Bool)
    (out touched : ℕ) (saved : ℕ → Sample) (bus : Bus Sample) : Bus Sample :=
  let remain := bufLength - offset
  if empty then bus
  else if bus.touched touched = bufCounter then
    { bus with samples := accum offset out saved bus.samples }
  else
    { bus with
      samples := copy remain (out + offset) (fun _ => 0) (copy offset out saved bus.samples)
      touched := Function.update bus.touched touched bufCounter }

end Bus

namespace OffsetOut

variable {Sample : Type} [AddCommGroup Sample]

/-- `OffsetOut_Ctor`; `memory` is what `RTAlloc` returns. -/
def ctor (numChannels mSampleOffset : ℕ) (memory : ℕ → Sample) : OffsetOut Sample where
  toIOUnit := .ctor .out .fullRate numChannels
  mSampleOffset := mSampleOffset
  m_saved := memory
  m_empty := true

/-- The loop body of `OffsetOut_next_a`, on `m_saved` and the bus. -/
def nextChannel (bufCounter : BitVec 32) (bufLength : ℕ) (unit : OffsetOut Sample)
    (input : ℕ → ℕ → Sample) (s : (ℕ → Sample) × Bus Sample) (i : ℕ) :
    (ℕ → Sample) × Bus Sample :=
  let offset := unit.mSampleOffset
  let remain := bufLength - offset
  let saved := i * offset
  (copy offset saved (fun j => input i (remain + j)) s.1,
    s.2.offsetChannel bufCounter bufLength offset unit.m_empty (unit.m_bus + i * bufLength)
      (unit.m_busTouched + i) (input i) fun j => s.1 (saved + j))

/-- The unit after it has looked up its channel. -/
def sought (bufLength : ℕ) (unit : OffsetOut Sample) (fbusChannel : ℚ) (bus : Bus Sample) :
    OffsetOut Sample :=
  { unit with toIOUnit := unit.toIOUnit.seek bus.numBusChannels bufLength fbusChannel }

/-- `OffsetOut_next_a`, of a unit whose blocks are those of the world. -/
def nextA (bufCounter : BitVec 32) (bufLength : ℕ) (unit : OffsetOut Sample) (fbusChannel : ℚ)
    (input : ℕ → ℕ → Sample) (bus : Bus Sample) : OffsetOut Sample × Bus Sample :=
  let unit := unit.sought bufLength fbusChannel bus
  let s := (List.range unit.numChannels).foldl (unit.nextChannel bufCounter bufLength input)
    (unit.m_saved, bus)
  ({ unit with m_saved := s.1, m_empty := false }, s.2)

/-- `OffsetOut_Dtor`. -/
def dtor (bufCounter : BitVec 32) (bufLength : ℕ) (unit : OffsetOut Sample)
    (bus : Bus Sample) : Bus Sample :=
  let offset := unit.mSampleOffset
  (List.range unit.numChannels).foldl (fun bus i =>
    bus.offsetTail bufCounter bufLength offset unit.m_empty (unit.m_bus + i * bufLength)
      (unit.m_busTouched + i) fun j => unit.m_saved (i * offset + j)) bus

end OffsetOut

/-! ## The blocks of its life -/

/-- What other units do to the bus. The number of its channels stays. -/
structure OtherWriters (Sample : Type) where
  write : Bus Sample → Bus Sample
  numBusChannels_write : ∀ bus, (write bus).numBusChannels = bus.numBusChannels

/-- What the others write in a block before the unit and after it. -/
structure OffsetBlock (Sample : Type) where
  before : OtherWriters Sample
  after : OtherWriters Sample

/-- The audio bus in a block: at its start, as the unit finds it, as the unit leaves it, and at the
end. -/
structure BlockRecord (Sample : Type) where
  block : OffsetBlock Sample
  bufCounter : BitVec 32
  start : Bus Sample
  found : Bus Sample
  left : Bus Sample
  finish : Bus Sample

structure OffsetRun (Sample : Type) where
  mBufLength : ℕ
  mBufCounter : BitVec 32
  mAudioBus : Bus Sample
  unit : OffsetOut Sample
  log : List (BlockRecord Sample)

namespace OffsetRun

variable {Sample : Type} [AddCommGroup Sample]

/-- What the unit does in a block, with its input or as it is deleted. -/
def act (s : OffsetRun Sample) (fbusChannel : ℚ) (bus : Bus Sample) :
    Option (ℕ → ℕ → Sample) → OffsetOut Sample × Bus Sample
  | some input => s.unit.nextA s.mBufCounter s.mBufLength fbusChannel input bus
  | none => (s.unit, s.unit.dtor s.mBufCounter s.mBufLength bus)

/-- One block, with the input of the unit; without one the unit is deleted. -/
def step (fbusChannel : ℚ) (s : OffsetRun Sample)
    (e : OffsetBlock Sample × Option (ℕ → ℕ → Sample)) : OffsetRun Sample :=
  let found := e.1.before.write s.mAudioBus
  let (unit, left) := s.act fbusChannel found e.2
  let finish := e.1.after.write left
  { s with
    mBufCounter := s.mBufCounter + 1
    mAudioBus := finish
    unit := unit
    log := s.log ++ [⟨e.1, s.mBufCounter, s.mAudioBus, found, left, finish⟩] }

/-- The blocks in which the unit is calculated, and the one in which it is deleted. -/
def events (calcs : List (OffsetBlock Sample × (ℕ → ℕ → Sample))) (last : OffsetBlock Sample) :
    List (OffsetBlock Sample × Option (ℕ → ℕ → Sample)) :=
  calcs.map (fun c => (c.1, some c.2)) ++ [(last, none)]

end OffsetRun

/-! ## What is on the bus -/

namespace Bus

variable {Sample : Type} [AddCommGroup Sample]

/-- Sample `j` of a channel; a channel that nobody has written in the block is silent. -/
def content (bus : Bus Sample) (bufLength : ℕ) (bufCounter : BitVec 32) (channel j : ℕ) : Sample :=
  ((bus.stampedAt bufLength j bufCounter).look channel).getD 0

end Bus

namespace BlockRecord

variable {Sample : Type} [AddCommGroup Sample]

/-- What the unit adds to sample `j` of a channel. -/
def contribution (e : BlockRecord Sample) (bufLength channel j : ℕ) : Sample :=
  e.left.content bufLength e.bufCounter channel j - e.found.content bufLength e.bufCounter channel j

/-- What it adds to a channel in the whole block. -/
def contributions (e : BlockRecord Sample) (bufLength channel : ℕ) : List Sample :=
  (List.range bufLength).map (e.contribution bufLength channel)

end BlockRecord

/-- Others who add to the bus, as `Out` does: `d` to each sample. -/
def OtherWriters.Adds {Sample : Type} [AddCommGroup Sample] (others : OtherWriters Sample)
    (bufLength : ℕ) (bufCounter : BitVec 32) (d : ℕ → ℕ → Sample) : Prop :=
  ∀ bus channel j, j < bufLength →
    (others.write bus).content bufLength bufCounter channel j =
      bus.content bufLength bufCounter channel j + d channel j

end PoopWorms.Server
