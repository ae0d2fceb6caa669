import Mathlib.Data.List.Dedup
import Mathlib.Data.Rat.Defs
import Mathlib.Algebra.Order.Ring.Rat

/-!
# Sequences of events

`EWSequence`, a cyclic timeline of sets of events with a position that moves through it.
Reading the timeline outside its bounds raises an exception and a remainder by zero traps;
an operation that does either has no result. Positions and lengths are integers; the `int` of
the class wraps only on a timeline of `2 ^ 31` ticks, more sets than the memory holds.
-/

namespace PoopWorms.App

/-- `NSMutableSet`: distinct elements, in the order in which they are enumerated. -/
structure NSSet (α : Type) where
  elems : List α
  nodup : elems.Nodup
deriving DecidableEq

namespace NSSet

variable {α : Type} [DecidableEq α]

def empty : NSSet α := ⟨[], List.nodup_nil⟩

def addObject (s : NSSet α) (e : α) : NSSet α := ⟨s.elems.insert e, s.nodup.insert⟩

def removeObject (s : NSSet α) (e : α) : NSSet α := ⟨s.elems.erase e, s.nodup.erase e⟩

/-- `anyObject`, where `pick` stands for the choice. -/
def anyObject (s : NSSet α) (pick : ℕ) : Option α := s.elems[pick % s.elems.length]?

/-- Keep the elements that a test lets through. -/
def filter (s : NSSet α) (p : α → Bool) : NSSet α := ⟨s.elems.filter p, s.nodup.filter p⟩

end NSSet

/-- `EWSequence`, over any type of events. -/
structure EWSequence (α : Type) where
  timeline : List (NSSet α)
  pos : ℤ
  recording : Bool
deriving DecidableEq

namespace EWSequence

variable {α : Type} [DecidableEq α]

def init : EWSequence α where
  timeline := [NSSet.empty]
  pos := 0
  recording := false

/-- `objectAtIndex:`. -/
def objectAtIndex (timeline : List (NSSet α)) (i : ℤ) : Option (NSSet α) :=
  if 0 ≤ i then timeline[i.toNat]? else none

/-- `a % n` on unsigned integers. -/
def remainder (a : ℤ) (n : ℕ) : Option ℤ := if n = 0 then none else some (a % n)

def setLength (s : EWSequence α) (newLength : ℤ) : EWSequence α :=
  if 0 < newLength then
    if newLength < s.timeline.length then
      { s with
        timeline := s.timeline.take newLength.toNat
        pos := if newLength ≤ s.pos then 0 else s.pos }
    else
      { s with timeline := s.timeline
          ++ List.replicate (newLength.toNat - s.timeline.length) NSSet.empty }
  else s

def length (s : EWSequence α) : ℕ := s.timeline.length

def allEvents (s : EWSequence α) : NSSet α :=
  ⟨(s.timeline.flatMap NSSet.elems).dedup, List.nodup_dedup _⟩

def eventsAtTick (s : EWSequence α) (tick : ℤ) : Option (NSSet α) :=
  if 0 ≤ tick ∧ tick < s.timeline.length then objectAtIndex s.timeline tick else none

def addEvent (s : EWSequence α) (event : α) : Option (EWSequence α) := do
  let events ← objectAtIndex s.timeline s.pos
  return { s with timeline := s.timeline.set s.pos.toNat (events.addObject event) }

def addEventAtTick (s : EWSequence α) (event : α) (tick : ℤ) : Option (EWSequence α) :=
  if 0 ≤ tick ∧ tick < s.timeline.length then do
    let events ← objectAtIndex s.timeline tick
    return { s with timeline := s.timeline.set tick.toNat (events.addObject event) }
  else some s

/-- Remove an event from every point in the timeline. -/
def poopEvent (s : EWSequence α) (event : α) : EWSequence α :=
  { s with timeline := s.timeline.map fun events => events.removeObject event }

/-- `(arc4random() % 1000) / 1000.0 < amount`. -/
def drawn (draw : Fin 1000) (amount : ℚ) : Bool := (draw.val : ℚ) / 1000 < amount

/-- One event of tick `i` drifts, or stays. -/
def driftEvent (amount : ℚ) (draw : ℕ → α → Fin 1000) (i : ℕ) (timeline : List (NSSet α))
    (event : α) : Option (List (NSSet α)) :=
  if drawn (draw i event) amount then do
    let events ← objectAtIndex timeline i
    let timeline := timeline.set i (events.removeObject event)
    let j ← remainder (i + 1) timeline.length
    let otherEvents ← objectAtIndex timeline j
    return timeline.set j.toNat (otherEvents.addObject event)
  else some timeline

/-- The events of tick `i` drift; the loop runs over a copy of their set. -/
def driftTick (amount : ℚ) (draw : ℕ → α → Fin 1000) (timeline : List (NSSet α)) (i : ℕ) :
    Option (List (NSSet α)) := do
  let events ← objectAtIndex timeline i
  events.elems.foldlM (driftEvent amount draw i) timeline

/-- `drift:`, where `draw i event` is the random number for an event met at tick `i`. -/
def drift (s : EWSequence α) (amount : ℚ) (draw : ℕ → α → Fin 1000) :
    Option (EWSequence α) := do
  let timeline ← (List.range s.timeline.length).foldlM (driftTick amount draw) s.timeline
  return { s with timeline }

def decay (s : EWSequence α) (amount : ℚ) (draw : ℕ → α → Fin 1000) : EWSequence α :=
  { s with
    timeline := s.timeline.mapIdx
      (fun i events => events.filter fun event => !drawn (draw i event) amount) }

def record (s : EWSequence α) : EWSequence α := { s with recording := true }

def play (s : EWSequence α) : EWSequence α := { s with recording := false }

def stop (s : EWSequence α) : EWSequence α := { s with recording := false }

def reset (s : EWSequence α) : EWSequence α := { s with pos := 0 }

/-- A tick, with the events that it fires. -/
def tick (s : EWSequence α) : Option (EWSequence α × List α) :=
  if s.recording then
    -- grow by one
    some ({ s with timeline := s.timeline ++ [NSSet.empty], pos := s.pos + 1 }, [])
  else do
    let pos ← remainder (s.pos + 1) s.timeline.length
    let events ← objectAtIndex s.timeline pos
    return ({ s with pos }, events.elems)

/-! ## Runs -/

/-- An operation of a sequence, with its arguments and random numbers. -/
inductive Op (α : Type)
  | setLength (newLength : ℤ)
  | addEvent (event : α)
  | addEventAtTick (event : α) (tick : ℤ)
  | poopEvent (event : α)
  | drift (amount : ℚ) (draw : ℕ → α → Fin 1000)
  | decay (amount : ℚ) (draw : ℕ → α → Fin 1000)
  | record
  | play
  | stop
  | reset
  | tick

/-- One operation, with the events that it fires. -/
def step (s : EWSequence α) : Op α → Option (EWSequence α × List α)
  | .setLength newLength => some (s.setLength newLength, [])
  | .addEvent event => (s.addEvent event).map (·, [])
  | .addEventAtTick event tick => (s.addEventAtTick event tick).map (·, [])
  | .poopEvent event => some (s.poopEvent event, [])
  | .drift amount draw => (s.drift amount draw).map (·, [])
  | .decay amount draw => some (s.decay amount draw, [])
  | .record => some (s.record, [])
  | .play => some (s.play, [])
  | .stop => some (s.stop, [])
  | .reset => some (s.reset, [])
  | .tick => s.tick

/-- A list of operations, first to last. -/
def runOps (s : EWSequence α) (ops : List (Op α)) : Option (EWSequence α) :=
  ops.foldlM (fun s op => (s.step op).map Prod.fst) s

end EWSequence

end PoopWorms.App
