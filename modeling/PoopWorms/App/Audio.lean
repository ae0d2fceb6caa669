import PoopWorms.Client.AKSCSynth
import PoopWorms.Lib.Runs
import PoopWorms.Server.Commands

/-!
# Worms and the server

The synthesis half of `PWWorm`, and what the methods of a worm do through the shared
`AKSCSynth`. The server performs every message before anything else happens to it; worms are
numbered in the order in which their synths are mantled.
-/

namespace PoopWorms.App

open Octets Osc Server Client

/-! ## Sound food -/

namespace SoundFood

/-- `synthNameForFoodId:`, on the IDs that do not raise an exception. -/
def synthNameForFoodId : Fin 7 → CString
  | 0 => .ofString "EmptyBelly"
  | 1 => .ofString "BasicSine"
  | 2 => .ofString "BasicPulse"
  | 3 => .ofString "BasicSaw"
  | 4 => .ofString "ResonNoise"
  | 5 => .ofString "WavyPulse"
  | 6 => .ofString "SineKick"

/-- `effectNameForEffectId:`, on the IDs that do not raise an exception. -/
def effectNameForEffectId : Fin 4 → CString
  | 0 => .ofString "Tanh"
  | 1 => .ofString "PitchShift"
  | 2 => .ofString "Flanger"
  | 3 => .ofString "CombNDelay"

end SoundFood

/-- The synth that plays the bus of a worm. -/
def outConnector : CString := .ofString "OutConnector"

/-- The definitions in `synthdefs`, which the server loads when it starts. -/
def synthdefs : List CString :=
  ["BasicPulse", "BasicSaw", "BasicSine", "CombNDelay", "EmptyBelly", "Flanger", "FlowbeePerc",
    "Impulse", "OutConnector", "PitchShift", "PitchSine", "ResonNoise", "SineKick", "SinesTest",
    "Tanh", "TestSynth", "WavyPulse", "thing"].map .ofString

/-! ## Nodes -/

/-- What a node is to the worms. -/
inductive NodeKind
  | group
  | pitch
  | effect
  | output
  | other
deriving DecidableEq

/-- What the synths of a definition are. -/
def kindOfDef (mDef : List Byte) : NodeKind :=
  if ∃ foodId, mDef = (SoundFood.synthNameForFoodId foodId).bytes then .pitch
  else if ∃ effectId, mDef = (SoundFood.effectNameForEffectId effectId).bytes then .effect
  else if mDef = outConnector.bytes then .output
  else .other

/-- What a node in the table is. -/
def kind (w : World) (n : NodeID) : Option NodeKind :=
  if n ∈ w.mNodeLib then
    some (if (w.mNode n).mIsGroup then .group else kindOfDef (w.mNode n).mDef)
  else none

/-! ## Voices -/

/-- The synthesis half of `PWWorm`; `volume` is the bit pattern of a `CGFloat`. A worm whose
belly holds an effect knows the name of the effect. -/
structure Voice where
  groupID : Word
  busID : Word
  outputNodeID : Word
  volume : Word
  foodInBelly : Fin 7
  effectInBelly : Fin 4
  activeEffectID : Option Word
  activeEffectName : Option CString
  named : effectInBelly ≠ 0 →
    activeEffectName = some (SoundFood.effectNameForEffectId effectInBelly)

/-- The place of a new effect: that of the active one, or in front of the output. -/
def Voice.effectPlace (v : Voice) : AKAddAction × Word :=
  match v.activeEffectID with
  | some activeEffectID => (.replaceAction, activeEffectID)
  | none => (.addBeforeAction, v.outputNodeID)

/-- A voice with a new effect. -/
def Voice.withEffect (v : Voice) (effectId : Fin 4) (activeEffectID : Word) : Voice :=
  { v with
    effectInBelly := effectId
    activeEffectID := some activeEffectID
    activeEffectName := some (SoundFood.effectNameForEffectId effectId)
    named := fun _ => rfl }

/-- The client, the server with its replies to the messages so far, the voices, and which of
them have been dismantled. -/
structure Audio where
  synth : AKSCSynth
  world : World
  replies : List SCErr
  voice : ℕ → Voice
  voices : ℕ
  dismantled : List ℕ

namespace Audio

/-- A worm before its synths are mantled. -/
def unmantled : Voice := ⟨0#32, 0#32, 0#32, 0#32, 0, 0, none, none, fun h => absurd rfl h⟩

def init : Audio where
  synth := AKSCSynth.init
  world := World.new AKSCSynth.init.options (synthdefs.map CString.bytes)
  replies := []
  voice := fun _ => unmantled
  voices := 0
  dismantled := []

variable (fpu : FloatUnit)

/-- The server performs a message. The worms send no message that it has no result for. -/
def receive (a : Audio) (message : OSCMessage) : Audio :=
  let (world, reply) := (perform fpu a.world message).getD (a.world, .failed)
  { a with world, replies := a.replies ++ [reply] }

/-- The client after a call, and the server after the messages that the call sent. -/
def deliver (a : Audio) (synth : AKSCSynth) : Audio :=
  (synth.oscPort.drop a.synth.oscPort.length).foldl (receive fpu) { a with synth }

def setVoice (a : Audio) (i : ℕ) (v : Voice) : Audio :=
  { a with voice := Function.update a.voice i v }

/-- `mantleSynths`, of a new worm. -/
def mantleSynths (a : Audio) : Audio :=
  let (groupID, synth) := a.synth.group
  let (busID, synth) := synth.bus
  let outArgs : List OSCValue := [.string (.ofString "inBus"), .int busID]
  let (outputNodeID, synth) := synth.synthWithName outConnector outArgs .addToTailAction groupID
  let v : Voice :=
    { unmantled with
      groupID, busID, outputNodeID
      volume := 0x3f800000#32
      foodInBelly := 0
      activeEffectID := none }
  { (a.deliver fpu synth).setVoice a.voices v with voices := a.voices + 1 }

/-- `eatEffect:` of worm `i`, with the assignment of `effectInBelly` in front of it. -/
def eatEffect (a : Audio) (i : ℕ) (effectId : Fin 4) : Audio :=
  let v := a.voice i
  let effectName := SoundFood.effectNameForEffectId effectId
  let args : List OSCValue := [.string (.ofString "inBus"), .int v.busID]
  let (addAction, targetID) := v.effectPlace
  let (activeEffectID, synth) := a.synth.synthWithName effectName args addAction targetID
  (a.deliver fpu synth).setVoice i (v.withEffect effectId activeEffectID)

/-- `fire` of an event of worm `i`, from its rounded frequency on. -/
def fire (a : Audio) (i : ℕ) (roundedFreq : Word) : Audio :=
  let v := a.voice i
  let args : List OSCValue :=
    [.string (.ofString "pitch"), .int roundedFreq, .string (.ofString "volume"), .float v.volume,
      .string (.ofString "outBus"), .int v.busID]
  let name := SoundFood.synthNameForFoodId v.foodInBelly
  a.deliver fpu (a.synth.synthWithName name args .addToHeadAction v.groupID).2

def dismantleSynths (a : Audio) (i : ℕ) : Audio :=
  { a.deliver fpu (a.synth.freeAllInGroup (a.voice i).groupID) with
    dismantled := a.dismantled ++ [i] }

/-- `worm.foodInBelly = foodId`. -/
def eatFood (a : Audio) (i : ℕ) (foodId : Fin 7) : Audio :=
  a.setVoice i { a.voice i with foodInBelly := foodId }

/-- `self.volume = volume`. -/
def setVolume (a : Audio) (i : ℕ) (volume : Word) : Audio :=
  a.setVoice i { a.voice i with volume }

/-- A pitch synth reaches the end of its envelope, which frees it. -/
def synthEnds (a : Audio) (n : NodeID) : Audio :=
  if kind a.world n = some .pitch then { a with world := a.world.nodeDelete n } else a

/-! ## Runs -/

/-- What a worm does with its voice. -/
inductive WormOp
  | eatEffect (effectId : Fin 4)
  | fire (roundedFreq : Word)
  | dismantleSynths
  | eatFood (foodId : Fin 7)
  | setVolume (volume : Word)

inductive Op
  | mantleSynths
  | worm (i : ℕ) (op : WormOp)
  | synthEnds (n : NodeID)

def wormStep (a : Audio) (i : ℕ) : WormOp → Audio
  | .eatEffect effectId => a.eatEffect fpu i effectId
  | .fire roundedFreq => a.fire fpu i roundedFreq
  | .dismantleSynths => a.dismantleSynths fpu i
  | .eatFood foodId => a.eatFood i foodId
  | .setVolume volume => a.setVolume i volume

/-- One operation; there is no worm to do anything beyond the last one. -/
def step (a : Audio) : Op → Audio
  | .mantleSynths => a.mantleSynths fpu
  | .worm i op => if i < a.voices then a.wormStep fpu i op else a
  | .synthEnds n => a.synthEnds n

def run (ops : List Op) : Audio := Runs.run (step fpu) init ops

end Audio

end PoopWorms.App
