import PoopWorms.App.Audio
import PoopWorms.App.SequenceTheorems
import PoopWorms.Lib.Runs

/-!
# The application

`PWViewController` with its worms, their sequences and its stop timer. A worm is the number
under which it was allocated; `worm` is the memory behind these numbers. The post of a tick
is a delivery to each observer, in an order that the notification center does not specify:
here every delivery is an event of its own. Positions are not modelled, so an event brings
what the code reads off them, and what only the drawing needs is left out.
-/

namespace PoopWorms.App

open Octets Server

/-! ## Worms -/

/-- The functions of the C library and the floating point unit that the worms call, each with
the formula around it. -/
structure Platform where
  fpu : FloatUnit
  /-- `1 - exp(-0.000001 * age)` -/
  decayAmount : ℕ → ℚ
  /-- `exp(-0.001 * age)` -/
  volume : ℕ → Word
  /-- `mtof((int)ftom((1 - pitch) * 1000 + 100))`, as an `int` -/
  roundedFreq : Word → Word

/-- `EWPitchEvent`: an object, so it has an identity, with the bits of a `float`. Its worm is
the one whose sequence it is in. -/
structure EWPitchEvent where
  ident : ℕ
  pitch : Word
deriving DecidableEq

structure PWSplotchWorm where
  moveTime : Bool
deriving DecidableEq

/-- `PWWorm`, without its voice. `observing` and `sequenceObserving` say whether the worm
and its sequence are registered for ticks, and `retains` counts what its bodies retain:
`PWSplotchWorm` retains its worm and does not release it when it is deallocated. -/
structure PWWorm where
  sequence : Sequence EWPitchEvent
  sequenceObserving : Bool
  observing : Bool
  creating : Bool
  splotchWorm : Option PWSplotchWorm
  retains : ℕ
  age : ℕ
  mating : Bool
  lastDate : Option ℚ

namespace PWWorm

/-- Memory that no worm has been allocated in. -/
def unallocated : PWWorm where
  sequence := Sequence.init
  sequenceObserving := false
  observing := false
  creating := false
  splotchWorm := none
  retains := 0
  age := 0
  mating := false
  lastDate := none

def dead (p : PWWorm) : Bool := p.sequence.seq.allEvents.elems.length = 0

/-- `dealloc`, with the release of the sequence, whose own `dealloc` stops it. -/
def dealloc (p : PWWorm) : PWWorm :=
  { p with
    observing := false
    splotchWorm := none
    sequence := p.sequence.apply .stop
    sequenceObserving := false }

/-- `-[lastDate timeIntervalSinceNow]`, which is zero on `nil`. -/
def sinceLastDate (p : PWWorm) (now : ℚ) : ℚ :=
  match p.lastDate with
  | some lastDate => now - lastDate
  | none => 0

end PWWorm

/-- What the claims about runs are about, in the order in which it happens. -/
inductive Act
  | born (now : ℚ) (mother father : ℕ)
  | fired (w : ℕ)
  | cleared (w : ℕ)
  | moved (w : ℕ)
  | ate (w : ℕ)
  | left (w : ℕ)
deriving DecidableEq

structure PWViewController where
  worm : ℕ → PWWorm
  next : ℕ
  nextEvent : ℕ
  creatingWorm : Bool
  currentWorm : Option ℕ
  worms : List ℕ
  stopTimer : Bool
  audio : Audio
  log : List Act

/-- What lies in a worm's way. -/
inductive Splotch
  | food (itemId : Fin 7)
  | effect (itemId : Fin 4)

/-- What the tick of a worm reads: random numbers, and where its body and its head are. -/
structure WormInput where
  draw : ℕ → EWPitchEvent → Fin 1000
  offScreen : Bool
  hit : Option Splotch

/-- The choices made on one beat of an offspring. -/
structure BeatDraws where
  motherEvent : ℕ
  fatherEvent : ℕ
  motherDraw : Fin 2
  fatherDraw : Fin 3

/-- The choices made in `offspringOf:and:`. -/
structure OffspringDraws where
  coin : Fin 2
  extra : ℕ
  beat : ℕ → BeatDraws
  effectCoin : Fin 2

/-- An offspring that gets the notes of its mother, where she has any. -/
def OffspringDraws.plain : OffspringDraws := ⟨1, 0, fun _ => ⟨0, 0, 0, 0⟩, 0⟩

/-- What one turn of the mating loop reads: whether the boxes of the two worms intersect,
the time, and the choices made for an offspring. -/
structure Pairing where
  intersects : Bool
  now : ℚ
  draws : OffspringDraws

namespace PWViewController

variable (env : Platform)

def init : PWViewController where
  worm := fun _ => PWWorm.unallocated
  next := 0
  nextEvent := 0
  creatingWorm := false
  currentWorm := none
  worms := []
  stopTimer := false
  audio := Audio.init
  log := []

/-- Write to the memory of one worm. -/
def modify (s : PWViewController) (w : ℕ) (f : PWWorm → PWWorm) : PWViewController :=
  { s with worm := Function.update s.worm w (f (s.worm w)) }

def note (s : PWViewController) (act : Act) : PWViewController := { s with log := s.log ++ [act] }

/-! ## The methods of a worm -/

/-- `initWithView:andAngle:` of a new worm, which gets the number `s.next`. -/
def initWithView (s : PWViewController) : PWViewController :=
  let p : PWWorm :=
    { PWWorm.unallocated with
      sequence := Sequence.init.apply .record
      sequenceObserving := true
      creating := true
      splotchWorm := some ⟨false⟩
      retains := 1
      observing := true }
  { s.modify s.next (fun _ => p) with
    next := s.next + 1
    audio := s.audio.mantleSynths env.fpu }

def addNoteWithPitch (s : PWViewController) (w : ℕ) (pitch : Word) : PWViewController :=
  let event : EWPitchEvent := ⟨s.nextEvent, pitch⟩
  { s.modify w fun p => { p with sequence := p.sequence.apply (.addEvent event) } with
    nextEvent := s.nextEvent + 1 }

def stopCreating (s : PWViewController) (w : ℕ) : PWViewController :=
  s.modify w fun p => { p with
    sequence := p.sequence.apply .play
    sequenceObserving := true
    creating := false
    splotchWorm := p.splotchWorm.map fun _ => ⟨true⟩ }

def clearWorm (s : PWViewController) (w : ℕ) : PWViewController :=
  let s := s.modify w fun p => { p with observing := false }
  let s := { s with audio := s.audio.dismantleSynths env.fpu w }
  (s.modify w fun p => { p with splotchWorm := none }).note (.cleared w)

/-- `handleWormPoint:withWorm:`, given the splotch that the head hits. -/
def handleWormPoint (s : PWViewController) (w : ℕ) : Option Splotch → PWViewController
  | none => s
  | some (.food itemId) => { s with audio := s.audio.eatFood w itemId }.note (.ate w)
  | some (.effect itemId) => { s with audio := s.audio.eatEffect env.fpu w itemId }.note (.ate w)

/-- `moveWorm` of the body. -/
def moveWorm (s : PWViewController) (w : ℕ) (hit : Option Splotch) : PWViewController :=
  match (s.worm w).splotchWorm with
  | some ⟨true⟩ => (s.note (.moved w)).handleWormPoint env w hit
  | _ => s

/-- `tick` of a worm. -/
def wormTick (s : PWViewController) (w : ℕ) (input : WormInput) : PWViewController :=
  if (s.worm w).creating then s.moveWorm env w input.hit
  else
    let age := (s.worm w).age
    let s := s.modify w fun p =>
      { p with sequence := p.sequence.apply (.decay (env.decayAmount age) input.draw) }
    let s := { s with audio := s.audio.setVolume w (env.volume age) }
    let offScreen := (s.worm w).splotchWorm.isNone || input.offScreen
    let dead := (s.worm w).dead
    let s := s.modify w fun p => { p with age := if offScreen || dead then age + 40 else age + 1 }
    if offScreen && dead then s.clearWorm env w else s.moveWorm env w input.hit

/-- `fire`. -/
def fire (w : ℕ) (s : PWViewController) (event : EWPitchEvent) : PWViewController :=
  { s with audio := s.audio.fire env.fpu w (env.roundedFreq event.pitch) }.note (.fired w)

/-- `tick` of the sequence of a worm; a set is enumerated in any order. -/
def sequenceTick (s : PWViewController) (w : ℕ) (order : List EWPitchEvent) : PWViewController :=
  let (sequence, events) := (s.worm w).sequence.step .tick
  let s := s.modify w fun p => { p with sequence }
  (if order.Perm events then order else events).foldl (fire env w) s

/-! ## The controller -/

def startCreatingWorm (s : PWViewController) : PWViewController :=
  let s := { s with creatingWorm := true }
  let w := s.next
  let s := { s.initWithView env with currentWorm := some w }
  { s with worms := s.worms ++ [w] }

def stopCreatingWorm (s : PWViewController) : PWViewController :=
  let s := { s with creatingWorm := false }
  match s.currentWorm with
  | some w => { s.stopCreating w with currentWorm := none }
  | none => s

def addNoteWithYPercent (s : PWViewController) (yPercent : Word) : PWViewController :=
  if s.creatingWorm then
    match s.currentWorm with
    | some w => s.addNoteWithPitch w yPercent
    | none => s
  else s

def clearStuff (s : PWViewController) : PWViewController :=
  let s := s.worms.foldl (fun s w => s.clearWorm env w) s
  { s with worms := [], log := s.log ++ s.worms.map .left }

/-- `-1`, as a `float`. -/
def noPitch : Word := 0xbf800000#32

/-- One beat of an offspring. Both events are events of the mother. -/
def offspringBeat (mother worm : ℕ) (draws : OffspringDraws) (s : PWViewController) (i : ℕ) :
    PWViewController :=
  let draw := draws.beat i
  let s := s.sequenceTick env worm []
  let s := s.wormTick env worm ⟨fun _ _ => 0, false, none⟩
  let eventsAtTick := (s.worm mother).sequence.seq.eventsAtTick i
  let motherEvent := eventsAtTick.bind fun events => events.anyObject draw.motherEvent
  let fatherEvent := eventsAtTick.bind fun events => events.anyObject draw.fatherEvent
  let pitch := noPitch
  let pitch :=
    match motherEvent with
    | some event => if draw.motherDraw = 0 then event.pitch else pitch
    | none => pitch
  let pitch :=
    match fatherEvent with
    | some event => if draw.fatherDraw = 0 then event.pitch else pitch
    | none => pitch
  if pitch ≠ noPitch then s.addNoteWithPitch worm pitch else s

/-- `offspringOf:and:`. A parent with an effect in its belly has the name of the effect. -/
def offspringOf (s : PWViewController) (mother father : ℕ) (draws : OffspringDraws) :
    PWViewController × Option ℕ :=
  if draws.coin = 0 then (s, none)
  else
    let motherLength := (s.worm mother).sequence.seq.length
    let fatherLength := (s.worm father).sequence.seq.length
    let lengthDiff := max motherLength fatherLength - min motherLength fatherLength
    let minLength := min motherLength fatherLength
    let newLength := minLength + if 0 < lengthDiff then draws.extra % lengthDiff else 0
    let worm := s.next
    let s := s.initWithView env
    let s := (List.range newLength).foldl (offspringBeat env mother worm draws) s
    let s := s.stopCreating worm
    let motherEffect := (s.audio.voice mother).effectInBelly
    let fatherEffect := (s.audio.voice father).effectInBelly
    if draws.effectCoin = 0 ∧ motherEffect.val ≠ 0 then
      ({ s with audio := s.audio.eatEffect env.fpu worm motherEffect }, some worm)
    else if fatherEffect.val ≠ 0 then
      ({ s with audio := s.audio.eatEffect env.fpu worm fatherEffect }, some worm)
    else (s, some worm)

/-- `worm.dead && !worm.creating`. -/
def Removable (s : PWViewController) (w : ℕ) : Prop :=
  (s.worm w).dead ∧ ¬ (s.worm w).creating

instance (s : PWViewController) (w : ℕ) : Decidable (s.Removable w) :=
  inferInstanceAs (Decidable (_ ∧ _))

def removeIfDead (s : PWViewController) (w : ℕ) : PWViewController :=
  if s.Removable w then { s with worms := s.worms.filter (· ≠ w) }.note (.left w) else s

/-- Remove the dead worms, in a loop over a copy of the array. -/
def removeDead (s : PWViewController) : PWViewController := s.worms.foldl removeIfDead s

/-- The test in front of a birth. -/
def MayMate (s : PWViewController) (worm1 worm2 : ℕ) (now : ℚ) : Prop :=
  ¬ (s.worm worm1).mating ∨ ¬ (s.worm worm2).mating ∧
    3 < (s.worm worm1).sinceLastDate now ∧ 3 < (s.worm worm2).sinceLastDate now

instance (s : PWViewController) (worm1 worm2 : ℕ) (now : ℚ) :
    Decidable (s.MayMate worm1 worm2 now) := inferInstanceAs (Decidable (_ ∨ _))

/-- Both worms had their last date just now. -/
def date (s : PWViewController) (worm1 worm2 : ℕ) (now : ℚ) : PWViewController :=
  (s.modify worm1 fun p => { p with lastDate := some now }).modify worm2
    fun p => { p with lastDate := some now }

/-- Both worms are mating. -/
def couple (s : PWViewController) (worm1 worm2 : ℕ) : PWViewController :=
  (s.modify worm1 fun p => { p with mating := true }).modify worm2
    fun p => { p with mating := true }

/-- A birth, unless the coin is against it. -/
def mate (s : PWViewController) (worm1 worm2 : ℕ) (pairing : Pairing) : PWViewController :=
  match s.offspringOf env worm1 worm2 pairing.draws with
  | (s, some baby) =>
    let s := { s with worms := s.worms ++ [baby] }
    (s.date worm1 worm2 pairing.now).note (.born pairing.now worm1 worm2)
  | (s, none) => s

/-- Two worms whose boxes intersect. -/
def meet (s : PWViewController) (worm1 worm2 : ℕ) (pairing : Pairing) : PWViewController :=
  let s := if s.MayMate worm1 worm2 pairing.now then s.mate env worm1 worm2 pairing else s
  s.couple worm1 worm2

end PWViewController

/-- The two loops over the pairs of worms, on their way. -/
structure MatingLoop where
  app : PWViewController
  i : ℕ
  j : ℕ
  foundMate : Bool

/-- One turn of the inner loop, or the end of a turn of the outer one. The loops run over an
array that grows under them. -/
def MatingLoop.turn (env : Platform) (m : MatingLoop) (pairing : Pairing) : MatingLoop :=
  match m.app.worms[m.i]?, m.app.worms[m.j]? with
  | none, _ => m
  | some worm1, some worm2 =>
    if pairing.intersects then
      { app := m.app.meet env worm1 worm2 pairing, i := m.i, j := m.j + 1, foundMate := true }
    else { m with j := m.j + 1 }
  | some worm1, none =>
    let app :=
      if m.foundMate then m.app else m.app.modify worm1 fun p => { p with mating := false }
    { app, i := m.i + 1, j := m.i + 2, foundMate := false }

namespace PWViewController

variable (env : Platform)

/-- The loops after the dead worms are gone. -/
def matingLoop (s : PWViewController) : MatingLoop := ⟨s.removeDead, 0, 1, false⟩

/-- `tick` of the controller, up to as many turns of its loops as there are pairings. -/
def tick (s : PWViewController) (pairings : List Pairing) : PWViewController :=
  (Runs.run (MatingLoop.turn env) s.matingLoop pairings).app

/-! ## Runs -/

inductive Event
  | touchesBegan (inBorder : Bool) (yPercent : Word)
  | stopTimer
  | wormTick (w : ℕ) (input : WormInput)
  | sequenceTick (w : ℕ) (order : List EWPitchEvent)
  | tick (pairings : List Pairing)
  | clearStuff
  | synthEnds (n : NodeID)

/-- What the application does on an event. -/
def handle (s : PWViewController) : Event → PWViewController
  | .touchesBegan inBorder yPercent =>
    if ¬ s.creatingWorm then
      if inBorder then { s.startCreatingWorm env with stopTimer := true } else s
    else { s.addNoteWithYPercent yPercent with stopTimer := true }
  | .stopTimer => if s.stopTimer then { s.stopCreatingWorm with stopTimer := false } else s
  | .wormTick w input => if (s.worm w).observing then s.wormTick env w input else s
  | .sequenceTick w order =>
    if (s.worm w).sequenceObserving then s.sequenceTick env w order else s
  | .tick pairings => s.tick env pairings
  | .clearStuff => s.clearStuff env
  | .synthEnds n => { s with audio := s.audio.synthEnds n }

/-- The retain count of a worm, once the autorelease pool is drained. -/
def retainCount (s : PWViewController) (w : ℕ) : ℕ :=
  s.worms.count w + (if s.currentWorm = some w then 1 else 0) + (s.worm w).retains

/-- The end of an event deallocates the worms that nothing retains. -/
def drain (s : PWViewController) : PWViewController :=
  { s with
    worm := fun w =>
      if w < s.next ∧ s.retainCount w = 0 then (s.worm w).dealloc else s.worm w }

def step (s : PWViewController) (e : Event) : PWViewController := (s.handle env e).drain

def run (es : List Event) : PWViewController := Runs.run (step env) init es

end PWViewController

end PoopWorms.App
