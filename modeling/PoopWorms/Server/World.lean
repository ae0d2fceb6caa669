import PoopWorms.Lib.Octets
import Mathlib.Data.Finset.Card
import Mathlib.Logic.Function.Basic

/-!
# The server's nodes

The node table of a `World` and the list surgery of `SC_Node.cpp` and `SC_Group.cpp`. A
pointer to a node is the ID under which the node is registered; `mNode` is the memory
behind the pointers. The pool that nodes are allocated from is taken to be large enough.
-/

namespace PoopWorms.Server

open Octets

abbrev NodeID := Word

/-- The errors of `SC_Errors.h` that the node commands return; `none` is `kSCErr_None`. -/
inductive SCErr
  | none
  | failed
  | nodeNotFound
  | targetNodeNotFound
  | groupNotFound
  | synthDefNotFound
  | noSuchCommand
  | wrongArgType
  | indexOutOfRange
  | tooManyNodes
  | duplicateNodeID
  | reservedNodeID
deriving DecidableEq

/-- The options of a `World` that are read here. -/
structure WorldOptions where
  mMaxNodes : ℕ
  mNumAudioBusChannels : ℕ
  mNumInputBusChannels : ℕ
  mNumOutputBusChannels : ℕ
  mBufLength : ℕ

def kDefaultWorldOptions : WorldOptions where
  mMaxNodes := 1024
  mNumAudioBusChannels := 128
  mNumInputBusChannels := 8
  mNumOutputBusChannels := 8
  mBufLength := 64

/-- `Node`, with the two pointers that a `Group` adds. -/
@[ext]
structure Node where
  mDef : List Byte
  mIsGroup : Bool
  mParent : Option NodeID
  mPrev : Option NodeID
  mNext : Option NodeID
  mHead : Option NodeID
  mTail : Option NodeID
deriving DecidableEq

@[ext]
structure World where
  mNode : NodeID → Node
  mNodeLib : Finset NodeID
  mMaxNodes : ℕ
  mHiddenID : NodeID
  mRecentID : NodeID
  mGraphDefLib : List (List Byte)

namespace World

/-- Write to the memory of one node. -/
def modify (w : World) (n : NodeID) (f : Node → Node) : World :=
  { w with mNode := Function.update w.mNode n (f (w.mNode n)) }

/-- `World_GetNode`; `-1` stands for the node that was created last. -/
def getNode (w : World) (inID : NodeID) : Option NodeID :=
  let inID := if inID = -1#32 then w.mRecentID else inID
  if inID ∈ w.mNodeLib then some inID else none

/-- `World_GetGroup`. -/
def getGroup (w : World) (inID : NodeID) : Option NodeID :=
  match w.getNode inID with
  | some node => if (w.mNode node).mIsGroup then some node else none
  | none => none

/-- `World_AddNode`: the table cannot grow. -/
def addNode (w : World) (inNode : NodeID) : Option World :=
  if w.mMaxNodes ≤ w.mNodeLib.card then none
  else some { w with mNodeLib := insert inNode w.mNodeLib }

/-- `if (prev) prev->mNext = x; else if (group) group->mHead = x;` -/
def linkNext (w : World) (prev group x : Option NodeID) : World :=
  match prev, group with
  | some prev, _ => w.modify prev fun n => { n with mNext := x }
  | none, some group => w.modify group fun g => { g with mHead := x }
  | none, none => w

/-- `if (next) next->mPrev = x; else if (group) group->mTail = x;` -/
def linkPrev (w : World) (next group x : Option NodeID) : World :=
  match next, group with
  | some next, _ => w.modify next fun n => { n with mPrev := x }
  | none, some group => w.modify group fun g => { g with mTail := x }
  | none, none => w

/-- Clear the links of a node. -/
def unlink (w : World) (n : NodeID) : World :=
  w.modify n fun n => { n with mPrev := none, mNext := none, mParent := none }

/-! ## Nodes -/

/-- `Node_New`: the node with its ID, or the error. An error can still have used up a
hidden ID. -/
def nodeNew (w : World) (mDef : List Byte) (inID : NodeID) : Except (SCErr × World) (World × NodeID) :=
  if inID.toInt < 0 ∧ inID ≠ -1#32 then .error (.reservedNodeID, w)
  else
    -- -1 means generate an id for the event
    let hidden := (w.mHiddenID - 8#32) ||| 0x80000000#32
    let w := if inID = -1#32 then { w with mHiddenID := hidden } else w
    let inID := if inID = -1#32 then hidden else inID
    match w.getNode inID with
    | some _ => .error (.duplicateNodeID, w)
    | none =>
      let node : Node := ⟨mDef, false, none, none, none, none, none⟩
      match (w.modify inID fun _ => node).addNode inID with
      | none => .error (.tooManyNodes, w)
      | some w => .ok ({ w with mRecentID := inID }, inID)

def nodeRemove (w : World) (s : NodeID) : World :=
  let group := (w.mNode s).mParent
  let w := w.linkNext (w.mNode s).mPrev group (w.mNode s).mNext
  let w := w.linkPrev (w.mNode s).mNext group (w.mNode s).mPrev
  w.unlink s

def nodeDtor (w : World) (inNode : NodeID) : World :=
  let w := w.nodeRemove inNode
  { w with mNodeLib := w.mNodeLib.erase inNode }

/-- The loop of `Group_DeleteAll` from `child` on. Each turn deletes the child, and with it
everything below it, through the same loop; `fuel` bounds the nodes that are visited. -/
def deleteFrom : ℕ → World → Option NodeID → World
  | 0, w, _ => w
  | _ + 1, w, none => w
  | fuel + 1, w, some child =>
    let next := (w.mNode child).mNext
    let w := w.unlink child
    let w :=
      if child = 0#32 then w
      else if (w.mNode child).mIsGroup then
        let w := deleteFrom fuel w (w.mNode child).mHead
        (w.modify child fun g => { g with mHead := none, mTail := none }).nodeDtor child
      else w.nodeDtor child
    deleteFrom fuel w next

/-- `Group_DeleteAll`. No node is visited twice, so the table bounds the loop. -/
def groupDeleteAll (w : World) (inGroup : NodeID) : World :=
  let w := deleteFrom (2 * w.mNodeLib.card + 1) w (w.mNode inGroup).mHead
  w.modify inGroup fun g => { g with mHead := none, mTail := none }

def groupDtor (w : World) (inGroup : NodeID) : World :=
  (w.groupDeleteAll inGroup).nodeDtor inGroup

def nodeDelete (w : World) (inNode : NodeID) : World :=
  if inNode = 0#32 then w
  else if (w.mNode inNode).mIsGroup then w.groupDtor inNode
  else w.nodeDtor inNode

/-- The loop of `Group_DeepFreeGraphs` from `child` on; `fuel` bounds the nodes that are
visited. -/
def deepFreeFrom : ℕ → World → Option NodeID → World
  | 0, w, _ => w
  | _ + 1, w, none => w
  | fuel + 1, w, some child =>
    let next := (w.mNode child).mNext
    let w :=
      if (w.mNode child).mIsGroup then deepFreeFrom fuel w (w.mNode child).mHead
      else (w.nodeRemove child).nodeDelete child
    deepFreeFrom fuel w next

/-- `Group_DeepFreeGraphs`. -/
def groupDeepFreeGraphs (w : World) (inGroup : NodeID) : World :=
  deepFreeFrom (2 * w.mNodeLib.card + 1) w (w.mNode inGroup).mHead

def nodeAddAfter (w : World) (s afterThisOne : NodeID) : World :=
  match (w.mNode afterThisOne).mParent with
  | none => w
  | some parent =>
    if s = 0#32 then w
    else
      let w := w.modify s fun n => { n with
        mParent := some parent, mPrev := some afterThisOne,
        mNext := (w.mNode afterThisOne).mNext }
      let w := w.linkPrev (w.mNode afterThisOne).mNext (w.mNode s).mParent (some s)
      w.modify afterThisOne fun n => { n with mNext := some s }

def nodeAddBefore (w : World) (s beforeThisOne : NodeID) : World :=
  match (w.mNode beforeThisOne).mParent with
  | none => w
  | some parent =>
    if s = 0#32 then w
    else
      let w := w.modify s fun n => { n with
        mParent := some parent, mPrev := (w.mNode beforeThisOne).mPrev,
        mNext := some beforeThisOne }
      let w := w.linkNext (w.mNode beforeThisOne).mPrev (w.mNode s).mParent (some s)
      w.modify beforeThisOne fun n => { n with mPrev := some s }

def nodeReplace (w : World) (s replaceThisOne : NodeID) : World :=
  match (w.mNode replaceThisOne).mParent with
  | none => w
  | some group =>
    if s = 0#32 then w
    else
      let w := w.modify s fun n => { n with
        mParent := some group, mPrev := (w.mNode replaceThisOne).mPrev,
        mNext := (w.mNode replaceThisOne).mNext }
      let w := w.linkNext (w.mNode s).mPrev group (some s)
      let w := w.linkPrev (w.mNode s).mNext group (some s)
      (w.unlink replaceThisOne).nodeDelete replaceThisOne

/-! ## Groups -/

def groupAddHead (w : World) (s child : NodeID) : World :=
  if child = 0#32 then w
  else
    let w := w.modify child fun c => { c with mPrev := none, mNext := (w.mNode s).mHead }
    let w :=
      match (w.mNode s).mHead with
      | some head =>
        (w.modify head fun c => { c with mPrev := some child }).modify s
          fun g => { g with mHead := some child }
      | none => w.modify s fun g => { g with mHead := some child, mTail := some child }
    w.modify child fun c => { c with mParent := some s }

def groupAddTail (w : World) (s child : NodeID) : World :=
  if child = 0#32 then w
  else
    let w := w.modify child fun c => { c with mPrev := (w.mNode s).mTail, mNext := none }
    let w :=
      match (w.mNode s).mTail with
      | some tail =>
        (w.modify tail fun c => { c with mNext := some child }).modify s
          fun g => { g with mTail := some child }
      | none => w.modify s fun g => { g with mHead := some child, mTail := some child }
    w.modify child fun c => { c with mParent := some s }

/-- The name of the definition that all groups share. -/
def groupDefName : List Byte := "group".toList.map fun c => BitVec.ofNat 8 c.toNat

/-- `Group_New`. -/
def groupNew (w : World) (inID : NodeID) : Except (SCErr × World) (World × NodeID) :=
  match w.nodeNew groupDefName inID with
  | .error e => .error e
  | .ok (w, group) =>
    .ok (w.modify group fun g => { g with mIsGroup := true, mHead := none, mTail := none }, group)

/-- `Graph_New`; the controls that it reads from the message are left out. -/
def graphNew (w : World) (inGraphDef : List Byte) (inID : NodeID) :
    Except (SCErr × World) (World × NodeID) :=
  w.nodeNew inGraphDef inID

/-- `World_New`: the root group, and the synth definitions that were loaded. -/
def new (inOptions : WorldOptions) (graphDefs : List (List Byte)) : World where
  mNode := fun _ => ⟨groupDefName, true, none, none, none, none, none⟩
  mNodeLib := {0#32}
  mMaxNodes := inOptions.mMaxNodes
  mHiddenID := -8#32
  mRecentID := 0#32
  mGraphDefLib := graphDefs

/-- The children of a group as a cycle of `Group_Calc` meets them: from the head, along
`mNext`. -/
def siblingsFrom (w : World) : ℕ → Option NodeID → List NodeID
  | 0, _ => []
  | _ + 1, none => []
  | fuel + 1, some child => child :: siblingsFrom w fuel (w.mNode child).mNext

def children (w : World) (group : NodeID) : List NodeID :=
  w.siblingsFrom w.mNodeLib.card (w.mNode group).mHead

end World

end PoopWorms.Server
