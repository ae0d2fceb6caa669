import PoopWorms.Server.Engine
import PoopWorms.Server.NodeCommands

/-!
# Node commands between two cycles

What the node commands do to the nodes with their calc functions and units, one node at a
time: a command with a list of nodes is a list of requests. `Engine.next` is one event of the
server's life: a request, the start of a cycle, or a step of the cycle.
-/

namespace PoopWorms.Server

open Octets

/-- One node of a command. `/n_order` is one move by `gHead`, `gTail`, `nBefore` or `nAfter`,
and then moves by `nAfter`. -/
inductive Request
  | sNew (defname : List Byte) (nodeID : NodeID) (addAction : Word) (target : NodeID)
      (mNumUnits : ℕ) (mCalcUnits : List ℕ)
  | gNew (nodeID : NodeID) (addAction : Word) (target : NodeID)
  | nFree (node : NodeID)
  | nRun (node : NodeID) (run : Word)
  | nTrace (node : NodeID)
  | nBefore (node target : NodeID)
  | nAfter (node target : NodeID)
  | gHead (group node : NodeID)
  | gTail (group node : NodeID)
  | gFreeAll (group : NodeID)
  | gDeepFree (group : NodeID)
  | gDumpTree (group : NodeID) (flag : Word)
deriving DecidableEq

/-- What happens in the server's life. -/
inductive EngineEvent
  | request (r : Request)
  /-- `World_Run` -/
  | run
  /-- a step of the cycle; the unit that it calls fires done actions -/
  | step (fires : List ℕ)
deriving DecidableEq

/-- The target of an add action. -/
def World.addTarget (w : World) (addAction : Word) (target : NodeID) : Option NodeID :=
  if addAction = 0#32 ∨ addAction = 1#32 then w.getGroup target
  else if addAction = 2#32 ∨ addAction = 3#32 ∨ addAction = 4#32 then w.getNode target
  else none

namespace Engine

def withWorld (e : Engine) (w : World) : Engine := { e with world := w }

/-- `Node_Replace`. -/
def nodeReplace (e : Engine) (s replaceThisOne : NodeID) : Option Engine :=
  match (e.world.mNode replaceThisOne).mParent with
  | none => some e
  | some group =>
    if s = 0#32 then some e
    else
      let w := e.world.modify s fun n => { n with
        mParent := some group, mPrev := (e.world.mNode replaceThisOne).mPrev,
        mNext := (e.world.mNode replaceThisOne).mNext }
      let w := w.linkNext (w.mNode s).mPrev group (some s)
      let w := w.linkPrev (w.mNode s).mNext group (some s)
      (e.withWorld (w.unlink replaceThisOne)).nodeDelete replaceThisOne

/-- The place that a new node gets. -/
def place (e : Engine) (addAction : Word) (target s : NodeID) : Option Engine :=
  if addAction = 0#32 then some (e.withWorld (e.world.groupAddHead target s))
  else if addAction = 1#32 then some (e.withWorld (e.world.groupAddTail target s))
  else if addAction = 2#32 then some (e.withWorld (e.world.nodeAddBefore s target))
  else if addAction = 3#32 then some (e.withWorld (e.world.nodeAddAfter s target))
  else e.nodeReplace s target

/-- A node that was made, or not, gets its calc function and units and its place. -/
def placeNew (e : Engine) (made : Except (SCErr × World) (World × NodeID)) (g : Graph)
    (addAction : Word) (target : NodeID) : Option Engine :=
  match made with
  | .error (_, w) => some (e.withWorld w)
  | .ok (w, s) =>
    ({ e.withWorld w with graph := Function.update e.graph s g } : Engine).place addAction target s

/-- What a group that is made has instead of units. -/
def groupGraph : Graph := ⟨.groupCalc, 0, [], []⟩

/-- `/g_new` for a node ID that is taken: before and after a target, the parents of both are
compared. -/
def gNewTaken (e : Engine) (newGroupID : NodeID) (addAction : Word) (target : NodeID) :
    Option Unit :=
  match e.world.getGroup newGroupID with
  | none => some ()
  | some newGroup =>
    match (e.world.mNode newGroup).mParent with
    | none => some ()
    | some _ =>
      if addAction = 2#32 ∨ addAction = 3#32 then
        -- the parent of a target that has none is a null pointer
        (e.world.mNode target).mParent.map fun _ => ()
      else some ()

def perform (e : Engine) : Request → Option Engine
  | .sNew defname nodeID addAction target mNumUnits mCalcUnits =>
    if !e.world.mGraphDefLib.contains defname then some e
    else match e.world.addTarget addAction target with
      | none => some e
      | some target =>
        e.placeNew (e.world.graphNew defname nodeID) (.new mNumUnits mCalcUnits) addAction target
  | .gNew nodeID addAction target =>
    match e.world.addTarget addAction target with
    | none => some e
    | some target =>
      match e.world.groupNew nodeID with
      | .error (.duplicateNodeID, w) => do
        e.gNewTaken nodeID addAction target
        return e.withWorld w
      | made => e.placeNew made groupGraph addAction target
  | .nFree node =>
    match e.world.getNode node with
    | none => some e
    | some node => e.nodeDelete node
  | .nRun node run =>
    match e.world.getNode node with
    | none => some e
    | some node => e.nodeSetRun node run
  | .nTrace node =>
    match e.world.getNode node with
    | none => some e
    | some node => some (e.setCalcFunc node
        ((e.graph node).mCalcFunc.nodeTrace (e.world.mNode node).mIsGroup))
  | .nBefore node target =>
    match e.world.getNode node, e.world.getNode target with
    | some node, some target => some (e.withWorld (e.world.moveBefore node target))
    | _, _ => some e
  | .nAfter node target =>
    match e.world.getNode node, e.world.getNode target with
    | some node, some target => some (e.withWorld (e.world.moveAfter node target))
    | _, _ => some e
  | .gHead group node =>
    match e.world.getGroup group, e.world.getNode node with
    | some group, some node => some (e.withWorld (e.world.moveToHead group node))
    | _, _ => some e
  | .gTail group node =>
    match e.world.getGroup group, e.world.getNode node with
    | some group, some node => some (e.withWorld (e.world.moveToTail group node))
    | _, _ => some e
  | .gFreeAll group =>
    match e.world.getGroup group with
    | none => some e
    | some group => e.groupDeleteAll group
  | .gDeepFree group =>
    match e.world.getGroup group with
    | none => some e
    | some group => e.groupDeepFreeGraphs group
  | .gDumpTree group flag =>
    match e.world.getGroup group with
    | none => some e
    | some group =>
      if flag ≠ 0 then
        some (e.setCalcFunc group (e.graph group).mCalcFunc.groupDumpTreeAndControls)
      else some (e.setCalcFunc group (e.graph group).mCalcFunc.groupDumpTree)

/-- Requests are performed, and cycles are started, when no cycle is in progress. -/
def next (e : Engine) : EngineEvent → Option Engine
  | .request r => if e.stack = [] then e.perform r else none
  | .run => if e.stack = [] then e.worldRun else none
  | .step fires => e.step fires

/-- Events one after the other, as long as each has a result. -/
def life : Engine → List EngineEvent → Option Engine
  | e, [] => some e
  | e, event :: events => do
    let e ← e.next event
    e.life events

/-- A new server. -/
def new (inOptions : WorldOptions) (graphDefs : List (List Byte)) : Engine where
  world := .new inOptions graphDefs
  graph := fun _ => groupGraph
  stack := []
  log := []

end Engine

end PoopWorms.Server
