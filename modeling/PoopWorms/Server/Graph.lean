import PoopWorms.Lib.Octets
import PoopWorms.Lib.Runs

/-!
# Calc functions

What a node does in a cycle is the function behind its `mCalcFunc`. This module has the
functions of `SC_Node.cpp`, `SC_Graph.cpp` and `SC_Group.cpp` that choose it, and one synth
as they see it: its units, and the calls that the units have received so far.
-/

namespace PoopWorms.Server

open Octets

/-- The functions that `mCalcFunc` can point to. -/
inductive NodeCalcFunc
  | nodeNullCalc
  | nodeDelete
  | graphFirstCalc
  | graphNullFirstCalc
  | graphCalc
  | graphCalcTrace
  | groupCalc
  | groupCalcTrace
  | groupCalcDumpTree
  | groupCalcDumpTreeAndControls
deriving DecidableEq

namespace NodeCalcFunc

/-- `Node_SetRun`. -/
def setRun (mIsGroup : Bool) (inRun : Word) (f : NodeCalcFunc) : NodeCalcFunc :=
  if inRun ≠ 0 then
    if f = nodeNullCalc then if mIsGroup then groupCalc else graphCalc
    else f
  else if f ≠ nodeNullCalc then
    if !mIsGroup ∧ f = graphFirstCalc then graphNullFirstCalc else nodeNullCalc
  else f

/-- `Graph_Trace`. -/
def graphTrace (f : NodeCalcFunc) : NodeCalcFunc :=
  if f = graphCalc then graphCalcTrace else f

/-- `Group_Trace`. -/
def groupTrace (f : NodeCalcFunc) : NodeCalcFunc :=
  if f = groupCalc then groupCalcTrace else f

/-- `Node_Trace`. -/
def nodeTrace (mIsGroup : Bool) (f : NodeCalcFunc) : NodeCalcFunc :=
  if mIsGroup then f.groupTrace else f.graphTrace

/-- `Group_DumpTree`. -/
def groupDumpTree (f : NodeCalcFunc) : NodeCalcFunc :=
  if f = groupCalc then groupCalcDumpTree else f

/-- `Group_DumpTreeAndControls`. -/
def groupDumpTreeAndControls (f : NodeCalcFunc) : NodeCalcFunc :=
  if f = groupCalc then groupCalcDumpTreeAndControls else f

end NodeCalcFunc

/-! ## One synth -/

/-- A call into a unit, which is named by its place in `mUnits`. -/
inductive UnitCall
  | unitCtor (unit : ℕ)
  | unitCalc (unit : ℕ)
  | unitDtor (unit : ℕ)
deriving DecidableEq

/-- A synth, with the calls that its units have received. -/
structure Graph where
  mCalcFunc : NodeCalcFunc
  mNumUnits : ℕ
  mCalcUnits : List ℕ
  calls : List UnitCall
deriving DecidableEq

namespace Graph

/-- `Graph_New`: no unit has been called yet. -/
def new (mNumUnits : ℕ) (mCalcUnits : List ℕ) : Graph where
  mCalcFunc := .graphFirstCalc
  mNumUnits := mNumUnits
  mCalcUnits := mCalcUnits
  calls := []

/-- `Graph_Calc`. -/
def graphCalc (g : Graph) : Graph := { g with calls := g.calls ++ g.mCalcUnits.map .unitCalc }

/-- The loop over the constructors. -/
def ctors (g : Graph) : Graph :=
  { g with calls := g.calls ++ (List.range g.mNumUnits).map .unitCtor }

/-- `Graph_FirstCalc`. -/
def graphFirstCalc (g : Graph) : Graph := graphCalc { g.ctors with mCalcFunc := .graphCalc }

/-- `Graph_NullFirstCalc`. -/
def graphNullFirstCalc (g : Graph) : Graph := { g.ctors with mCalcFunc := .nodeNullCalc }

/-- `Graph_CalcTrace`. -/
def graphCalcTrace (g : Graph) : Graph := { g.graphCalc with mCalcFunc := .graphCalc }

/-- `Graph_Dtor`, as far as the units see it. The test is there to insure that destructors are
not called if constructors have not been called. -/
def graphDtor (g : Graph) : Graph :=
  if g.mCalcFunc ≠ .graphFirstCalc then
    { g with calls := g.calls ++ (List.range g.mNumUnits).map .unitDtor }
  else g

/-- `(*child->mCalcFunc)(child)`, for a synth that has not been ended. -/
def turn (g : Graph) : Graph :=
  match g.mCalcFunc with
  | .graphFirstCalc => g.graphFirstCalc
  | .graphNullFirstCalc => g.graphNullFirstCalc
  | .graphCalc => g.graphCalc
  | .graphCalcTrace => g.graphCalcTrace
  | _ => g

end Graph

/-- What reaches a synth that no done action concerns. -/
inductive GraphEvent
  | nRun (run : Word)
  | nTrace
  | cycle
deriving DecidableEq

def Graph.step (g : Graph) : GraphEvent → Graph
  | .nRun run => { g with mCalcFunc := g.mCalcFunc.setRun false run }
  | .nTrace => { g with mCalcFunc := g.mCalcFunc.nodeTrace false }
  | .cycle => g.turn

end PoopWorms.Server
