import PoopWorms.Server.Commands

/-!
# The commands that move nodes

`/n_before`, `/n_after`, `/n_order`, `/g_head`, `/g_tail` and `/g_deepFree` of
`SC_MiscCmds.cpp`, beside the commands of `Commands.lean`. Notifications of clients are left
out.
-/

namespace PoopWorms.Server

open Octets Osc

namespace World

def moveBefore (w : World) (node target : NodeID) : World :=
  (w.nodeRemove node).nodeAddBefore node target

def moveAfter (w : World) (node target : NodeID) : World :=
  (w.nodeRemove node).nodeAddAfter node target

def moveToHead (w : World) (group node : NodeID) : World :=
  (w.nodeRemove node).groupAddHead group node

def moveToTail (w : World) (group node : NodeID) : World :=
  (w.nodeRemove node).groupAddTail group node

end World

variable (fpu : FloatUnit)

/-- The loop that `/n_before` and `/n_after` share. A pair is moved when the next one that
succeeds is read, unless both have the same node; the last pair is left to the caller. -/
def pairsFrom (move : World → NodeID → NodeID → World) :
    ℕ → World → Option (NodeID × NodeID) → MsgIter → Option (World × Option (NodeID × NodeID))
  | 0, _, _, _ => none
  | fuel + 1, w, prev, msg =>
    if msg.remain = 0 then some (w, prev)
    else do
      let (node, msg) ← msgGetNode fpu w msg
      let (target, msg) ← msgGetNode fpu w msg
      match node, target with
      | some node, some target =>
        match prev with
        | some (prevNode, prevTarget) =>
          if prevNode ≠ node then
            pairsFrom move fuel (move w prevNode prevTarget) (some (node, target)) msg
          else pairsFrom move fuel w (some (node, target)) msg
        | none => pairsFrom move fuel w (some (node, target)) msg
      -- tolerate failure
      | _, _ => pairsFrom move fuel w prev msg

def methNBefore (w : World) (msg : MsgIter) : Option (World × SCErr) := do
  let (w, prev) ← pairsFrom fpu World.moveBefore (msg.size + 1) w none msg
  match prev with
  | some (prevNode, prevTarget) =>
    if prevNode ≠ prevTarget then return (w.moveBefore prevNode prevTarget, .none)
    else return (w, .none)
  | none => return (w, .none)

def methNAfter (w : World) (msg : MsgIter) : Option (World × SCErr) := do
  let (w, prev) ← pairsFrom fpu World.moveAfter (msg.size + 1) w none msg
  match prev with
  | some (prevNode, prevTarget) => return (w.moveAfter prevNode prevTarget, .none)
  | none => return (w, .none)

/-- `while (!node && msg.remain()) node = Msg_GetNode(inWorld, msg);` -/
def firstNode (w : World) : ℕ → MsgIter → Option (Option NodeID × MsgIter)
  | 0, _ => none
  | fuel + 1, msg =>
    if msg.remain = 0 then some (none, msg)
    else do
      let (node, msg) ← msgGetNode fpu w msg
      match node with
      | some node => return (some node, msg)
      | none => firstNode w fuel msg

/-- The second loop of `/n_order`. -/
def orderFrom : ℕ → World → NodeID → MsgIter → Option World
  | 0, _, _, _ => none
  | fuel + 1, w, prevNode, msg =>
    if msg.remain = 0 then some w
    else do
      let (node, msg) ← msgGetNode fpu w msg
      match node with
      | some node => orderFrom fuel (w.moveAfter node prevNode) node msg
      | none => orderFrom fuel w prevNode msg

/-- What the cases of `/n_order` share: the target, the first node that is found, its place,
and the other nodes in order after it. -/
def nOrderAt (w : World) (target : Option NodeID) (notFound : SCErr)
    (place : World → NodeID → NodeID → World) (msg : MsgIter) : Option (World × SCErr) :=
  match target with
  | none => some (w, notFound)
  | some target => do
    let (node, msg) ← firstNode fpu w (msg.size + 1) msg
    match node with
    | none => return (w, .nodeNotFound)
    | some node =>
      let w ← orderFrom fpu (msg.size + 1) (place w target node) node msg
      return (w, .none)

def methNOrder (w : World) (msg : MsgIter) : Option (World × SCErr) := do
  let (addAction, msg) ← msg.geti fpu 0#32
  if addAction = 0#32 then
    let (group, msg) ← msgGetGroup fpu w msg
    nOrderAt fpu w group .groupNotFound World.moveToHead msg
  else if addAction = 1#32 then
    let (group, msg) ← msgGetGroup fpu w msg
    nOrderAt fpu w group .groupNotFound World.moveToTail msg
  else if addAction = 2#32 then
    let (beforeNode, msg) ← msgGetNode fpu w msg
    nOrderAt fpu w beforeNode .targetNodeNotFound (fun w target node => w.moveBefore node target) msg
  else if addAction = 3#32 then
    let (afterNode, msg) ← msgGetNode fpu w msg
    nOrderAt fpu w afterNode .targetNodeNotFound (fun w target node => w.moveAfter node target) msg
  else return (w, .failed)

/-- What one turn of `/g_head` and of `/g_tail` share. -/
def gMoveOne (place : World → NodeID → NodeID → World) (w : World) (msg : MsgIter) :
    Option ((World × SCErr) × MsgIter) := do
  let (group, msg) ← msgGetGroup fpu w msg
  match group with
  | none => return ((w, .groupNotFound), msg)
  | some group =>
    let (node, msg) ← msgGetNode fpu w msg
    match node with
    | none => return ((w, .nodeNotFound), msg)
    | some node => return ((place w group node, .none), msg)

def gHeadOne : World → MsgIter → Option ((World × SCErr) × MsgIter) := gMoveOne fpu World.moveToHead

def gTailOne : World → MsgIter → Option ((World × SCErr) × MsgIter) := gMoveOne fpu World.moveToTail

/-- One group of `/g_deepFree`. -/
def gDeepFreeOne (w : World) (msg : MsgIter) : Option ((World × SCErr) × MsgIter) := do
  let (group, msg) ← msgGetGroup fpu w msg
  match group with
  | none => return ((w, .groupNotFound), msg)
  | some group => return ((w.groupDeepFreeGraphs group, .none), msg)

def methGHead (w : World) (msg : MsgIter) : Option (World × SCErr) :=
  whileRemain (gHeadOne fpu) (msg.size + 1) w msg

def methGTail (w : World) (msg : MsgIter) : Option (World × SCErr) :=
  whileRemain (gTailOne fpu) (msg.size + 1) w msg

def methGDeepFree (w : World) (msg : MsgIter) : Option (World × SCErr) :=
  whileRemain (gDeepFreeOne fpu) (msg.size + 1) w msg

/-- The commands that change the node tree. -/
inductive NodeMethod
  | sNew
  | gNew
  | nFree
  | nBefore
  | nAfter
  | nOrder
  | gHead
  | gTail
  | gFreeAll
  | gDeepFree
deriving DecidableEq

namespace NodeMethod

def name : NodeMethod → CString
  | sNew => .ofString "/s_new"
  | gNew => .ofString "/g_new"
  | nFree => .ofString "/n_free"
  | nBefore => .ofString "/n_before"
  | nAfter => .ofString "/n_after"
  | nOrder => .ofString "/n_order"
  | gHead => .ofString "/g_head"
  | gTail => .ofString "/g_tail"
  | gFreeAll => .ofString "/g_freeAll"
  | gDeepFree => .ofString "/g_deepFree"

def all : List NodeMethod :=
  [sNew, gNew, nFree, nBefore, nAfter, nOrder, gHead, gTail, gFreeAll, gDeepFree]

def meth : NodeMethod → World → MsgIter → Option (World × SCErr)
  | sNew => methSNew fpu
  | gNew => methGNew fpu
  | nFree => methNFree fpu
  | nBefore => methNBefore fpu
  | nAfter => methNAfter fpu
  | nOrder => methNOrder fpu
  | gHead => methGHead fpu
  | gTail => methGTail fpu
  | gFreeAll => methGFreeAll fpu
  | gDeepFree => methGDeepFree fpu

/-- The command that a packet asks for. -/
def ofPacket (inData : List Byte) : Option NodeMethod :=
  all.find? fun m => m.name.bytes = inData.takeWhile (· ≠ 0#8)

end NodeMethod

/-- `PerformOSCMessage`, for the commands that change the node tree. -/
def performNodeMessage (w : World) (inData : List Byte) : Option (World × SCErr) := do
  let msg ← openMessage inData
  let method ← NodeMethod.ofPacket inData
  method.meth fpu w msg

/-- Packets one after the other, as long as each has a result. -/
def performPackets : World → List (List Byte) → Option World
  | w, [] => some w
  | w, inData :: packets => do
    let (w, _) ← performNodeMessage fpu w inData
    performPackets w packets

end PoopWorms.Server
