import PoopWorms.Server.MsgIter
import PoopWorms.Server.World

/-!
# The commands that make and free nodes

`/s_new`, `/g_new`, `/n_free` and `/g_freeAll` of `SC_MiscCmds.cpp`, performed on the bytes
of a message. A command returns the world with its error code; there is no result when it
reads outside the packet or through a null pointer. Notifications of clients and the
controls that `/s_new` sets are left out.
-/

namespace PoopWorms.Server

open Octets Osc

variable (fpu : FloatUnit)

/-- One step of a path such as `"htu"`, which starts at a node. -/
def nodeStep (w : World) (node : NodeID) (loc : Byte) : Option NodeID :=
  if loc = chr 'h' then if (w.mNode node).mIsGroup then (w.mNode node).mHead else none
  else if loc = chr 't' then if (w.mNode node).mIsGroup then (w.mNode node).mTail else none
  else if loc = chr 'u' then (w.mNode node).mParent
  else if loc = chr 'p' then (w.mNode node).mPrev
  else if loc = chr 'n' then (w.mNode node).mNext
  else some node

/-- `Msg_GetNode`: a node ID, or a path followed by the ID of the node it starts at. -/
def msgGetNode (w : World) (msg : MsgIter) : Option (Option NodeID × MsgIter) := do
  let tag ← msg.nextTag
  if msg.tags.isSome ∧ tag = chr 's' then
    let (loc, msg) ← msg.gets none
    let loc ← loc
    let (nodeID, msg) ← msg.geti fpu 0#32
    return (loc.foldl (fun node c => node.bind fun n => nodeStep w n c) (w.getNode nodeID), msg)
  else
    let (nodeID, msg) ← msg.geti fpu 0#32
    return (w.getNode nodeID, msg)

/-- `Msg_GetGroup`. -/
def msgGetGroup (w : World) (msg : MsgIter) : Option (Option NodeID × MsgIter) := do
  let (node, msg) ← msgGetNode fpu w msg
  return (node.filter fun n => (w.mNode n).mIsGroup, msg)

/-- What the cases of `/s_new` share: the target, the new synth, and its place. -/
def sNewAt (w : World) (defname : List Byte) (nodeID : NodeID) (target : Option NodeID)
    (notFound : SCErr) (place : World → NodeID → NodeID → World) : World × SCErr :=
  match target with
  | none => (w, notFound)
  | some target =>
    match w.graphNew defname nodeID with
    | .error (err, w) => (w, err)
    | .ok (w, graph) => (place w target graph, .none)

/-- `/s_new` on the values of the message. -/
def sNew (w : World) (defname : List Byte) (nodeID addAction target : Word) : World × SCErr :=
  if defname ∉ w.mGraphDefLib then (w, .synthDefNotFound)
  else if addAction = 0#32 then
    sNewAt w defname nodeID (w.getGroup target) .groupNotFound World.groupAddHead
  else if addAction = 1#32 then
    sNewAt w defname nodeID (w.getGroup target) .groupNotFound World.groupAddTail
  else if addAction = 2#32 then
    sNewAt w defname nodeID (w.getNode target) .nodeNotFound fun w t s => w.nodeAddBefore s t
  else if addAction = 3#32 then
    sNewAt w defname nodeID (w.getNode target) .nodeNotFound fun w t s => w.nodeAddAfter s t
  else if addAction = 4#32 then
    sNewAt w defname nodeID (w.getNode target) .nodeNotFound fun w t s => w.nodeReplace s t
  else (w, .failed)

def methSNew (w : World) (msg : MsgIter) : Option (World × SCErr) := do
  let (defname, msg) ← msg.gets4 none
  match defname with
  | none => return (w, .wrongArgType)
  | some defname =>
    let (nodeID, msg) ← msg.geti fpu 0#32
    let (addAction, msg) ← msg.geti fpu 0#32
    if defname ∉ w.mGraphDefLib then return (w, .synthDefNotFound)
    else if addAction = 0#32 then
      let (group, _) ← msgGetGroup fpu w msg
      return sNewAt w defname nodeID group .groupNotFound World.groupAddHead
    else if addAction = 1#32 then
      let (group, _) ← msgGetGroup fpu w msg
      return sNewAt w defname nodeID group .groupNotFound World.groupAddTail
    else if addAction = 2#32 then
      let (beforeThisNode, _) ← msgGetNode fpu w msg
      return sNewAt w defname nodeID beforeThisNode .nodeNotFound
        fun w target s => w.nodeAddBefore s target
    else if addAction = 3#32 then
      let (afterThisNode, _) ← msgGetNode fpu w msg
      return sNewAt w defname nodeID afterThisNode .nodeNotFound
        fun w target s => w.nodeAddAfter s target
    else if addAction = 4#32 then
      let (replaceThisNode, _) ← msgGetNode fpu w msg
      return sNewAt w defname nodeID replaceThisNode .nodeNotFound
        fun w target s => w.nodeReplace s target
    else return (w, .failed)

/-- What the cases 0 to 3 of `/g_new` share. A group that exists already is accepted where
`sameParent` says that it stands under the right parent. -/
def gNewAt (w : World) (newGroupID : NodeID) (target : Option NodeID) (notFound : SCErr)
    (sameParent : NodeID → NodeID → Option Bool) (place : World → NodeID → NodeID → World) :
    Option (World × SCErr) :=
  match target with
  | none => some (w, notFound)
  | some target =>
    match w.groupNew newGroupID with
    | .ok (w, newGroup) => some (place w target newGroup, .none)
    | .error (.duplicateNodeID, w) =>
      match w.getGroup newGroupID with
      | none => some (w, .duplicateNodeID)
      | some newGroup =>
        match (w.mNode newGroup).mParent with
        | none => some (w, .duplicateNodeID)
        | some parent => do
          let same ← sameParent parent target
          return (w, if same then .none else .duplicateNodeID)
    | .error (err, w) => some (w, err)

/-- One group of `/g_new`. -/
def gNewOne (w : World) (msg : MsgIter) : Option ((World × SCErr) × MsgIter) := do
  let (newGroupID, msg) ← msg.geti fpu 0#32
  let (addAction, msg) ← msg.geti fpu 0#32
  -- the parent of a target that has none is a null pointer
  let ofTarget := fun (parent target : NodeID) =>
    (w.mNode target).mParent.map fun p => decide (parent = p)
  if addAction = 0#32 then
    let (group, msg) ← msgGetGroup fpu w msg
    let r ← gNewAt w newGroupID group .groupNotFound
      (fun parent group => some (decide (parent = group))) World.groupAddHead
    return (r, msg)
  else if addAction = 1#32 then
    let (group, msg) ← msgGetGroup fpu w msg
    let r ← gNewAt w newGroupID group .groupNotFound
      (fun parent group => some (decide (parent = group))) World.groupAddTail
    return (r, msg)
  else if addAction = 2#32 then
    let (beforeThisNode, msg) ← msgGetNode fpu w msg
    let r ← gNewAt w newGroupID beforeThisNode .targetNodeNotFound ofTarget
      fun w target s => w.nodeAddBefore s target
    return (r, msg)
  else if addAction = 3#32 then
    let (afterThisNode, msg) ← msgGetNode fpu w msg
    let r ← gNewAt w newGroupID afterThisNode .targetNodeNotFound ofTarget
      fun w target s => w.nodeAddAfter s target
    return (r, msg)
  else if addAction = 4#32 then
    let (replaceThisNode, msg) ← msgGetNode fpu w msg
    match replaceThisNode with
    | none => return ((w, .targetNodeNotFound), msg)
    | some replaceThisNode =>
      match w.groupNew newGroupID with
      | .error (err, w) => return ((w, err), msg)
      | .ok (w, newGroup) => return ((w.nodeReplace newGroup replaceThisNode, .none), msg)
  else return ((w, .failed), msg)

/-- One node of `/n_free`. -/
def nFreeOne (w : World) (msg : MsgIter) : Option ((World × SCErr) × MsgIter) := do
  let (node, msg) ← msgGetNode fpu w msg
  match node with
  | none => return ((w, .nodeNotFound), msg)
  | some node => return ((w.nodeDelete node, .none), msg)

/-- One group of `/g_freeAll`. -/
def gFreeAllOne (w : World) (msg : MsgIter) : Option ((World × SCErr) × MsgIter) := do
  let (group, msg) ← msgGetGroup fpu w msg
  match group with
  | none => return ((w, .groupNotFound), msg)
  | some group => return ((w.groupDeleteAll group, .none), msg)

/-- `while (msg.remain())` around one of the commands above, up to the first error. A loop
that is still going after `fuel` turns gives no result. -/
def whileRemain (one : World → MsgIter → Option ((World × SCErr) × MsgIter)) :
    ℕ → World → MsgIter → Option (World × SCErr)
  | 0, _, _ => none
  | fuel + 1, w, msg =>
    if msg.remain = 0 then some (w, .none)
    else do
      let ((w, err), msg) ← one w msg
      if err = .none then whileRemain one fuel w msg else return (w, err)

def methGNew (w : World) (msg : MsgIter) : Option (World × SCErr) :=
  whileRemain (gNewOne fpu) (msg.size + 1) w msg

def methNFree (w : World) (msg : MsgIter) : Option (World × SCErr) :=
  whileRemain (nFreeOne fpu) (msg.size + 1) w msg

def methGFreeAll (w : World) (msg : MsgIter) : Option (World × SCErr) :=
  whileRemain (gFreeAllOne fpu) (msg.size + 1) w msg

/-- `PerformOSCMessage`, for the commands of this module. -/
def performOSCMessage (w : World) (inData : List Byte) : Option (World × SCErr) := do
  let msg ← openMessage inData
  let name := inData.takeWhile (· ≠ 0#8)
  if name = (CString.ofString "/s_new").bytes then methSNew fpu w msg
  else if name = (CString.ofString "/g_new").bytes then methGNew fpu w msg
  else if name = (CString.ofString "/n_free").bytes then methNFree fpu w msg
  else if name = (CString.ofString "/g_freeAll").bytes then methGFreeAll fpu w msg
  else none

/-- A message that the client sends, performed by the server. -/
def perform (w : World) (m : OSCMessage) : Option (World × SCErr) := do
  let packet ← m.payload
  performOSCMessage fpu w packet

end PoopWorms.Server
