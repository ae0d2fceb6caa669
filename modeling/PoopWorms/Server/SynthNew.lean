import PoopWorms.Server.Commands

/-!
# `/s_new` with the counters of the world

`Graph_Ctor` and `Group_New` count what they make in the `World`, and `Graph_Dtor` and `Group_Dtor`
what they free. The functions here are those of `World.lean` and `Commands.lean` with these
counters.
-/

namespace PoopWorms.Server

open Octets Osc

/-- The counters that `/status` reports. -/
structure Counters where
  mNumUnits : Word
  mNumGraphs : Word
  mNumGroups : Word

/-- A `World` with its counters; `graphNumUnits` is the `mNumUnits` of each `Graph`. -/
structure CountedWorld where
  world : World
  graphNumUnits : NodeID → Word
  counters : Counters

namespace CountedWorld

def withWorld (s : CountedWorld) (w : World) : CountedWorld := { s with world := w }

/-- `Graph_Ctor`, as far as it counts; `numUnitSpecs` is the definition's `mNumUnitSpecs`. -/
def graphCtor (s : CountedWorld) (graph : NodeID) (numUnitSpecs : Word) : CountedWorld :=
  { s with
    graphNumUnits := Function.update s.graphNumUnits graph numUnitSpecs
    counters := { s.counters with
      mNumUnits := s.counters.mNumUnits + numUnitSpecs
      mNumGraphs := s.counters.mNumGraphs + 1#32 } }

/-- `Graph_New`, with the units of each definition. -/
def graphNew (numUnitSpecs : List Byte → Word) (s : CountedWorld) (inGraphDef : List Byte)
    (inID : NodeID) : Except (SCErr × CountedWorld) (CountedWorld × NodeID) :=
  match s.world.graphNew inGraphDef inID with
  | .error (err, w) => .error (err, s.withWorld w)
  | .ok (w, graph) => .ok ((s.withWorld w).graphCtor graph (numUnitSpecs inGraphDef), graph)

/-- `Graph_Dtor` -/
def graphDtor (s : CountedWorld) (inGraph : NodeID) : CountedWorld where
  world := s.world.nodeDtor inGraph
  graphNumUnits := s.graphNumUnits
  counters := { s.counters with
    mNumUnits := s.counters.mNumUnits - s.graphNumUnits inGraph
    mNumGraphs := s.counters.mNumGraphs - 1#32 }

/-- The end of `Group_Dtor`. -/
def groupNodeDtor (s : CountedWorld) (inGroup : NodeID) : CountedWorld where
  world := s.world.nodeDtor inGroup
  graphNumUnits := s.graphNumUnits
  counters := { s.counters with mNumGroups := s.counters.mNumGroups - 1#32 }

/-- The loop of `Group_DeleteAll` from `child` on. -/
def deleteFrom : ℕ → CountedWorld → Option NodeID → CountedWorld
  | 0, s, _ => s
  | _ + 1, s, none => s
  | fuel + 1, s, some child =>
    let next := (s.world.mNode child).mNext
    let s := s.withWorld (s.world.unlink child)
    let s :=
      if child = 0#32 then s
      else if (s.world.mNode child).mIsGroup then
        let s := deleteFrom fuel s (s.world.mNode child).mHead
        (s.withWorld (s.world.modify child fun g => { g with mHead := none, mTail := none }))
          |>.groupNodeDtor child
      else s.graphDtor child
    deleteFrom fuel s next

/-- `Group_DeleteAll` -/
def groupDeleteAll (s : CountedWorld) (inGroup : NodeID) : CountedWorld :=
  let s := deleteFrom (2 * s.world.mNodeLib.card + 1) s (s.world.mNode inGroup).mHead
  s.withWorld (s.world.modify inGroup fun g => { g with mHead := none, mTail := none })

def groupDtor (s : CountedWorld) (inGroup : NodeID) : CountedWorld :=
  (s.groupDeleteAll inGroup).groupNodeDtor inGroup

def nodeDelete (s : CountedWorld) (inNode : NodeID) : CountedWorld :=
  if inNode = 0#32 then s
  else if (s.world.mNode inNode).mIsGroup then s.groupDtor inNode
  else s.graphDtor inNode

def nodeReplace (s : CountedWorld) (graph replaceThisOne : NodeID) : CountedWorld :=
  match (s.world.mNode replaceThisOne).mParent with
  | none => s
  | some group =>
    if graph = 0#32 then s
    else
      let w := s.world.modify graph fun n => { n with
        mParent := some group, mPrev := (s.world.mNode replaceThisOne).mPrev,
        mNext := (s.world.mNode replaceThisOne).mNext }
      let w := w.linkNext (w.mNode graph).mPrev group (some graph)
      let w := w.linkPrev (w.mNode graph).mNext group (some graph)
      (s.withWorld (w.unlink replaceThisOne)).nodeDelete replaceThisOne

/-- Linking a synth, which counts nothing. -/
def linked (link : World → NodeID → NodeID → World) (s : CountedWorld) (target graph : NodeID) :
    CountedWorld :=
  s.withWorld (link s.world target graph)

/-- What the cases of `/s_new` share. -/
def sNewAt (numUnitSpecs : List Byte → Word) (s : CountedWorld) (defname : List Byte)
    (nodeID : NodeID) (target : Option NodeID) (notFound : SCErr)
    (place : CountedWorld → NodeID → NodeID → CountedWorld) : CountedWorld × SCErr :=
  match target with
  | none => (s, notFound)
  | some target =>
    match s.graphNew numUnitSpecs defname nodeID with
    | .error (err, s) => (s, err)
    | .ok (s, graph) => (place s target graph, .none)

/-- Whether `World_GetGraphDef` finds a definition of this name. -/
def hasGraphDef (s : CountedWorld) (defname : List Byte) : Bool :=
  s.world.mGraphDefLib.any fun name => name = defname

/-- `meth_s_new` -/
def methSNew (fpu : FloatUnit) (numUnitSpecs : List Byte → Word) (s : CountedWorld)
    (msg : MsgIter) : Option (CountedWorld × SCErr) := do
  let (defname, msg) ← msg.gets4 none
  match defname with
  | none => return (s, .wrongArgType)
  | some defname =>
    let (nodeID, msg) ← msg.geti fpu 0#32
    let (addAction, msg) ← msg.geti fpu 0#32
    if ¬ s.hasGraphDef defname then return (s, .synthDefNotFound)
    else if addAction = 0#32 then
      let (group, _) ← msgGetGroup fpu s.world msg
      return s.sNewAt numUnitSpecs defname nodeID group .groupNotFound (linked World.groupAddHead)
    else if addAction = 1#32 then
      let (group, _) ← msgGetGroup fpu s.world msg
      return s.sNewAt numUnitSpecs defname nodeID group .groupNotFound (linked World.groupAddTail)
    else if addAction = 2#32 then
      let (beforeThisNode, _) ← msgGetNode fpu s.world msg
      return s.sNewAt numUnitSpecs defname nodeID beforeThisNode .nodeNotFound
        (linked fun w target graph => w.nodeAddBefore graph target)
    else if addAction = 3#32 then
      let (afterThisNode, _) ← msgGetNode fpu s.world msg
      return s.sNewAt numUnitSpecs defname nodeID afterThisNode .nodeNotFound
        (linked fun w target graph => w.nodeAddAfter graph target)
    else if addAction = 4#32 then
      let (replaceThisNode, _) ← msgGetNode fpu s.world msg
      return s.sNewAt numUnitSpecs defname nodeID replaceThisNode .nodeNotFound
        fun s target graph => s.nodeReplace graph target
    else return (s, .failed)

end CountedWorld

end PoopWorms.Server
