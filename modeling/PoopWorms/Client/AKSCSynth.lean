import PoopWorms.Osc.Message
import PoopWorms.Server.World

/-!
# The synth client

`AKSCSynth`: the counters that node, group and bus IDs are taken from, and the messages that
the calls send. `NSInteger` is a 32-bit integer. What goes out over `OSCPort` is kept in
order; every message is sent in a bundle of its own, a tenth of a second ahead.
-/

namespace PoopWorms.Client

open Octets Osc Server

inductive AKAddAction
  | addToHeadAction
  | addToTailAction
  | addBeforeAction
  | addAfterAction
  | replaceAction
deriving DecidableEq

def AKAddAction.toInt : AKAddAction → Word
  | addToHeadAction => 0#32
  | addToTailAction => 1#32
  | addBeforeAction => 2#32
  | addAfterAction => 3#32
  | replaceAction => 4#32

structure AKSCSynth where
  options : WorldOptions
  lastNodeID : Word
  lastGroupID : Word
  lastBusID : Word
  oscPort : List OSCMessage

namespace AKSCSynth

def init : AKSCSynth where
  options := { kDefaultWorldOptions with mBufLength := 1024 }
  lastNodeID := 1000#32
  lastGroupID := 500#32
  lastBusID := 16#32 -- first are 8 in buses, 8 out buses
  oscPort := []

def sendMessageInBundle (synth : AKSCSynth) (message : OSCMessage) : AKSCSynth :=
  { synth with oscPort := synth.oscPort ++ [message] }

def sNewMessageWithSynth (synth : AKSCSynth) (synthName : CString) (arguments : List OSCValue)
    (addAction : AKAddAction) (targetNodeID : Word) : OSCMessage × Word × AKSCSynth :=
  let nodeID := synth.lastNodeID + 1#32
  let message := OSCMessage.createWithAddress (.ofString "/s_new")
  let message := message.addString (some synthName)
  let message := message.addInt nodeID
  let message := message.addInt addAction.toInt
  let message := message.addInt targetNodeID
  let message := arguments.foldl OSCMessage.addValue message
  (message, nodeID, { synth with lastNodeID := nodeID })

def gNewMessageWithNodeID (synth : AKSCSynth) : OSCMessage × Word × AKSCSynth :=
  let groupID := synth.lastGroupID + 1#32
  let message := OSCMessage.createWithAddress (.ofString "/g_new")
  let message := message.addInt groupID
  let message := message.addInt 1#32 -- addToTail
  let message := message.addInt 0#32 -- add to default group
  (message, groupID, { synth with lastGroupID := groupID })

/-- `synthWithName:andArguments:addAction:targetID:`: the node ID of the new synth. -/
def synthWithName (synth : AKSCSynth) (synthName : CString) (arguments : List OSCValue)
    (addAction : AKAddAction) (targetID : Word) : Word × AKSCSynth :=
  let (sNew, nodeID, synth) := synth.sNewMessageWithSynth synthName arguments addAction targetID
  (nodeID, synth.sendMessageInBundle sNew)

def group (synth : AKSCSynth) : Word × AKSCSynth :=
  let (gNew, groupID, synth) := synth.gNewMessageWithNodeID
  (groupID, synth.sendMessageInBundle gNew)

def freeAllInGroup (synth : AKSCSynth) (groupNodeID : Word) : AKSCSynth :=
  let allMessage := (OSCMessage.createWithAddress (.ofString "/g_freeAll")).addInt groupNodeID
  let synth := synth.sendMessageInBundle allMessage
  let freeMessage := (OSCMessage.createWithAddress (.ofString "/n_free")).addInt groupNodeID
  synth.sendMessageInBundle freeMessage

def bus (synth : AKSCSynth) : Word × AKSCSynth :=
  let busID := synth.lastBusID + 2#32 -- 2 channels!
  (busID, { synth with lastBusID := busID })

/-! ## Sessions -/

/-- A call of the client. -/
inductive Call
  | synthWithName (synthName : CString) (arguments : List OSCValue) (addAction : AKAddAction)
      (targetID : Word)
  | group
  | freeAllInGroup (groupNodeID : Word)
  | bus

/-- The client after a call. -/
def call (synth : AKSCSynth) : Call → AKSCSynth
  | .synthWithName name arguments addAction target =>
    (synth.synthWithName name arguments addAction target).2
  | .group => synth.group.2
  | .freeAllInGroup groupID => synth.freeAllInGroup groupID
  | .bus => synth.bus.2

/-- The bus that a call hands out. -/
def busOf (synth : AKSCSynth) : Call → Option Word
  | .bus => some synth.bus.1
  | _ => none

end AKSCSynth

/-- The node ID that a message asks the server to create: behind the name in `/s_new`, in
front in `/g_new`. -/
def issuedNodeID (m : OSCMessage) : Option Word :=
  if m.address = .ofString "/s_new" then
    match m.values with
    | _ :: .int nodeID :: _ => some nodeID
    | _ => none
  else if m.address = .ofString "/g_new" then
    match m.values with
    | .int groupID :: _ => some groupID
    | _ => none
  else none

/-- The node IDs that the sent messages ask the server to create. -/
def issuedNodeIDs (synth : AKSCSynth) : List Word := synth.oscPort.filterMap issuedNodeID

end PoopWorms.Client
