import PoopWorms.Server.Graph
import PoopWorms.Server.World

/-!
# One cycle of the server

`Group_Calc` and the other functions that `mCalcFunc` can point to, as small steps over the
stack of the loops that are in progress. A unit can fire done actions while it is called.
Every access to the memory of a node looks first whether the node is still there; there is
no result when it is not.
-/

namespace PoopWorms.Server

open Octets

/-- What happens to nodes. -/
inductive NodeEvent
  /-- `(*child->mCalcFunc)(child)` -/
  | called (node : NodeID)
  /-- the function that was called goes over the units or the children of the node -/
  | computed (node : NodeID)
  /-- `Node_End` -/
  | ended (node : NodeID)
  /-- `Node_SetRun` with a zero -/
  | paused (node : NodeID)
  /-- `Node_Dtor` -/
  | freed (node : NodeID)
deriving DecidableEq

/-- A loop in progress: over the children of a group, from `child` on, or over calls of the
units of a synth, which are still to be made. -/
inductive Frame
  | group (f : NodeCalcFunc) (inGroup : NodeID) (child : Option NodeID)
  | graph (f : NodeCalcFunc) (inGraph : NodeID) (calls : List UnitCall)
deriving DecidableEq

/-- The nodes with their calc functions and units, the loops in progress, innermost first, and
what has happened so far. -/
@[ext]
structure Engine where
  world : World
  graph : NodeID → Graph
  stack : List Frame
  log : List NodeEvent

namespace NodeCalcFunc

/-- The function goes over units to compute them, or over children. -/
def computes : NodeCalcFunc → Bool
  | nodeNullCalc => false
  | nodeDelete => false
  | graphNullFirstCalc => false
  | _ => true

/-- What the loop `f` of a group does to the calc function of a child group before it calls it. -/
def beforeChild (f childFunc : NodeCalcFunc) : NodeCalcFunc :=
  match f with
  | groupCalcDumpTree => childFunc.groupDumpTree
  | groupCalcDumpTreeAndControls => childFunc.groupDumpTreeAndControls
  | _ => childFunc

/-- The calc function that is installed when a loop is done. -/
def atEnd : NodeCalcFunc → Option NodeCalcFunc
  | graphFirstCalc => some graphCalc
  | graphNullFirstCalc => some nodeNullCalc
  | graphCalcTrace => some graphCalc
  | groupCalcTrace => some groupCalc
  | groupCalcDumpTree => some groupCalc
  | groupCalcDumpTreeAndControls => some groupCalc
  | _ => none

end NodeCalcFunc

/-- The calls of `Graph_FirstCalc` and `Graph_NullFirstCalc`. -/
def Graph.ctorCalls (g : Graph) : List UnitCall := (List.range g.mNumUnits).map .unitCtor

/-- The calls of `Graph_Calc` and `Graph_CalcTrace`. -/
def Graph.calcCalls (g : Graph) : List UnitCall := g.mCalcUnits.map .unitCalc

namespace Engine

/-- The memory of a node. -/
def touch (e : Engine) (n : NodeID) : Option Node :=
  if n ∈ e.world.mNodeLib then some (e.world.mNode n) else none

/-- `if (node) node->…` -/
def touchSome (e : Engine) (node : Option NodeID) : Option Unit :=
  match node with
  | some n => (e.touch n).map fun _ => ()
  | none => some ()

def record (e : Engine) (event : NodeEvent) : Engine := { e with log := e.log ++ [event] }

def modifyGraph (e : Engine) (n : NodeID) (f : Graph → Graph) : Engine :=
  { e with graph := Function.update e.graph n (f (e.graph n)) }

def setCalcFunc (e : Engine) (n : NodeID) (f : NodeCalcFunc) : Engine :=
  e.modifyGraph n fun g => { g with mCalcFunc := f }

def push (e : Engine) (frame : Frame) : Engine := { e with stack := frame :: e.stack }

/-- What `Node_StateMsg` reads. There is no notification for negative IDs. -/
def nodeStateMsg (e : Engine) (inNode : NodeID) : Option Unit := do
  let node ← e.touch inNode
  if inNode.toInt < 0 then return ()
  else do
    e.touchSome node.mParent
    e.touchSome node.mPrev
    e.touchSome node.mNext
    if node.mIsGroup then do
      e.touchSome node.mHead
      e.touchSome node.mTail
    else return ()

/-! ## Freeing -/

/-- A neighbour that is not there is replaced by the group. -/
def nodeRemove (e : Engine) (s : NodeID) : Option Engine := do
  let node ← e.touch s
  e.touchSome (node.mPrev.or node.mParent)
  e.touchSome (node.mNext.or node.mParent)
  return { e with world := e.world.nodeRemove s }

def nodeDtor (e : Engine) (inNode : NodeID) : Option Engine := do
  e.nodeStateMsg inNode
  let e ← e.nodeRemove inNode
  return { e with world := { e.world with mNodeLib := e.world.mNodeLib.erase inNode } }.record
    (.freed inNode)

def graphDtor (e : Engine) (inGraph : NodeID) : Option Engine :=
  (e.modifyGraph inGraph Graph.graphDtor).nodeDtor inGraph

/-- The loop of `Group_DeleteAll` from `child` on; see `World.deleteFrom`. -/
def deleteFrom : ℕ → Engine → Option NodeID → Option Engine
  | 0, _, _ => none
  | _ + 1, e, none => some e
  | fuel + 1, e, some child => do
    let node ← e.touch child
    let e := { e with world := e.world.unlink child }
    let e ← (
      if child = 0#32 then some e
      else if node.mIsGroup then do
        let e ← deleteFrom fuel e node.mHead
        { e with
          world := e.world.modify child fun g => { g with mHead := none, mTail := none } }.nodeDtor
            child
      else e.graphDtor child : Option Engine)
    deleteFrom fuel e node.mNext

def groupDeleteAll (e : Engine) (inGroup : NodeID) : Option Engine := do
  let group ← e.touch inGroup
  let e ← deleteFrom (2 * e.world.mNodeLib.card + 1) e group.mHead
  let _ ← e.touch inGroup
  return { e with
    world := e.world.modify inGroup fun g => { g with mHead := none, mTail := none } }

def nodeDelete (e : Engine) (inNode : NodeID) : Option Engine := do
  let node ← e.touch inNode
  if inNode = 0#32 then return e
  else if node.mIsGroup then
    let e ← e.groupDeleteAll inNode
    e.nodeDtor inNode
  else e.graphDtor inNode

/-- The loop of `Group_DeepFreeGraphs` from `child` on. -/
def deepFreeFrom : ℕ → Engine → Option NodeID → Option Engine
  | 0, _, _ => none
  | _ + 1, e, none => some e
  | fuel + 1, e, some child => do
    let node ← e.touch child
    let e ← (
      if node.mIsGroup then deepFreeFrom fuel e node.mHead
      else do
        let e ← e.nodeRemove child
        e.nodeDelete child : Option Engine)
    deepFreeFrom fuel e node.mNext

def groupDeepFreeGraphs (e : Engine) (inGroup : NodeID) : Option Engine := do
  let group ← e.touch inGroup
  deepFreeFrom (2 * e.world.mNodeLib.card + 1) e group.mHead

/-! ## Done actions -/

def nodeSetRun (e : Engine) (inNode : NodeID) (inRun : Word) : Option Engine := do
  let node ← e.touch inNode
  let f := (e.graph inNode).mCalcFunc.setRun node.mIsGroup inRun
  (if f ≠ (e.graph inNode).mCalcFunc then e.nodeStateMsg inNode else some () : Option Unit)
  let e := e.setCalcFunc inNode f
  return if inRun = 0 then e.record (.paused inNode) else e

def nodeEnd (e : Engine) (inNode : NodeID) : Option Engine := do
  let _ ← e.touch inNode
  return (e.setCalcFunc inNode .nodeDelete).record (.ended inNode)

/-- `Node_End` of a node and of all that follow it along `dir`; `fuel` bounds the nodes. -/
def endFrom (dir : Node → Option NodeID) : ℕ → Engine → Option NodeID → Option Engine
  | 0, _, _ => none
  | _ + 1, e, none => some e
  | fuel + 1, e, some n => do
    let node ← e.touch n
    let e ← e.nodeEnd n
    endFrom dir fuel e (dir node)

/-- `if (side) f(side);` -/
def forSome (e : Engine) (side : Option NodeID) (f : Engine → NodeID → Option Engine) :
    Option Engine :=
  match side with
  | some n => f e n
  | none => some e

/-- What happens to a neighbour: to the nodes below it, when it is a group, or to itself. -/
def groupOrEnd (onGroup : Engine → NodeID → Option Engine) (e : Engine) (n : NodeID) :
    Option Engine := do
  let node ← e.touch n
  if node.mIsGroup then onGroup e n else e.nodeEnd n

/-- `Unit_DoneAction`, for a unit of the synth `s`. -/
def unitDoneAction (e : Engine) (s : NodeID) (doneAction : ℕ) : Option Engine := do
  let node ← e.touch s
  match doneAction with
  | 1 => e.nodeSetRun s 0
  | 2 => e.nodeEnd s
  | 3 => do
    let e ← e.nodeEnd s
    e.forSome node.mPrev nodeEnd
  | 4 => do
    let e ← e.nodeEnd s
    e.forSome node.mNext nodeEnd
  | 5 => do
    let e ← e.nodeEnd s
    e.forSome node.mPrev (groupOrEnd groupDeleteAll)
  | 6 => do
    let e ← e.nodeEnd s
    e.forSome node.mNext (groupOrEnd groupDeleteAll)
  | 7 => e.endFrom Node.mPrev (e.world.mNodeLib.card + 1) (some s)
  | 8 => e.endFrom Node.mNext (e.world.mNodeLib.card + 1) (some s)
  | 9 => do
    let e ← e.nodeEnd s
    e.forSome node.mPrev fun e n => e.nodeSetRun n 0
  | 10 => do
    let e ← e.nodeEnd s
    e.forSome node.mNext fun e n => e.nodeSetRun n 0
  | 11 => do
    let e ← e.nodeEnd s
    e.forSome node.mPrev (groupOrEnd groupDeepFreeGraphs)
  | 12 => do
    let e ← e.nodeEnd s
    e.forSome node.mNext (groupOrEnd groupDeepFreeGraphs)
  | 13 => do
    let parent ← node.mParent
    let group ← e.touch parent
    e.endFrom Node.mNext (e.world.mNodeLib.card + 1) group.mHead
  | 14 => do
    let parent ← node.mParent
    e.nodeEnd parent
  | _ => some e

/-- The done actions that a unit fires in one call, in order. -/
def doneActions (e : Engine) (s : NodeID) : List ℕ → Option Engine
  | [] => some e
  | doneAction :: fires => do
    let e ← e.unitDoneAction s doneAction
    e.doneActions s fires

/-! ## The traversal -/

/-- A call of a calc function. -/
def noteCall (e : Engine) (child : NodeID) : Engine :=
  if (e.graph child).mCalcFunc.computes then (e.record (.called child)).record (.computed child)
  else e.record (.called child)

/-- `(*child->mCalcFunc)(child)`, up to the loop that the function starts. -/
def callNode (e : Engine) (child : NodeID) : Option Engine := do
  let node ← e.touch child
  let f := (e.graph child).mCalcFunc
  let e := e.noteCall child
  match f with
  | .nodeNullCalc => return e
  | .nodeDelete => e.nodeDelete child
  | .graphFirstCalc => return e.push (.graph f child (e.graph child).ctorCalls)
  | .graphNullFirstCalc => return e.push (.graph f child (e.graph child).ctorCalls)
  | .graphCalc => return e.push (.graph f child (e.graph child).calcCalls)
  | .graphCalcTrace => return e.push (.graph f child (e.graph child).calcCalls)
  | _ => return e.push (.group f child node.mHead)

/-- The calc function of a node after one of its loops. -/
def finish (e : Engine) (f : NodeCalcFunc) (n : NodeID) : Option Engine :=
  match f.atEnd with
  | some g => (e.touch n).map fun _ => e.setCalcFunc n g
  | none => some e

/-- One step of the innermost loop. When it calls a unit, the unit fires `fires`. -/
def step (e : Engine) (fires : List ℕ) : Option Engine :=
  match e.stack with
  | [] => some e
  | .graph f s (call :: calls) :: stack => do
    let _ ← e.touch s
    let e := { e with stack := Frame.graph f s calls :: stack }
    (e.modifyGraph s fun g => { g with calls := g.calls ++ [call] }).doneActions s fires
  | .graph f s [] :: stack => do
    let e ← finish { e with stack } f s
    -- now do actual graph calculation
    return if f = .graphFirstCalc then e.push (.graph .graphCalc s (e.graph s).calcCalls) else e
  | .group f g (some child) :: stack => do
    let node ← e.touch child
    let e := { e with stack := .group f g node.mNext :: stack }
    let e :=
      if node.mIsGroup then e.setCalcFunc child (f.beforeChild (e.graph child).mCalcFunc) else e
    e.callNode child
  | .group f g none :: stack => finish { e with stack } f g

/-- `World_Run`. -/
def worldRun (e : Engine) : Option Engine := e.callNode 0#32

/-- Steps one after the other, each with what the unit that it calls fires. -/
def steps : Engine → List (List ℕ) → Option Engine
  | e, [] => some e
  | e, fires :: rest => do
    let e ← e.step fires
    e.steps rest

end Engine

end PoopWorms.Server
