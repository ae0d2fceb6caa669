import PoopWorms.Server.Commands
import PoopWorms.Server.ControlArgs

/-!
# `/n_fill`

`Node_SetControl` and `Node_MapControl` reach the synth that a node is, or every synth below a
group. `meth_n_fill` calls them for each control of a range, once with the value that stands
behind the count, and once more with what stands behind that.
-/

namespace PoopWorms.Server

open Octets Osc

/-- The controls of each synth. -/
abbrev Graphs := NodeID → Controls

/-! ## The synths of a node -/

namespace World

/-- The loop of `Group_SetControl`, from a child on; `f` is what is done to a synth. -/
def eachGraphFrom (w : World) (f : NodeID → Controls → Controls) :
    ℕ → Option NodeID → Graphs → Graphs
  | 0, _, graphs => graphs
  | _ + 1, none, graphs => graphs
  | fuel + 1, some child, graphs =>
    let next := (w.mNode child).mNext
    let graphs :=
      if (w.mNode child).mIsGroup then eachGraphFrom w f fuel (w.mNode child).mHead graphs
      else Function.update graphs child (f child (graphs child))
    eachGraphFrom w f fuel next graphs

/-- `Node_SetControl` and its siblings, for a synth or a group. No node is visited twice. -/
def eachGraph (w : World) (f : NodeID → Controls → Controls) (inNode : NodeID)
    (graphs : Graphs) : Graphs :=
  if (w.mNode inNode).mIsGroup then
    w.eachGraphFrom f (2 * w.mNodeLib.card + 1) (w.mNode inNode).mHead graphs
  else Function.update graphs inNode (f inNode (graphs inNode))

end World

section Fill

variable (fpu : FloatUnit) (w : World) (world : NodeID → ControlWorld)

/-- `Node_SetControl`, by index or name. -/
def nodeSetControl (inNode : NodeID) (key : ControlKey) (i : ℤ) (inValue : Word)
    (graphs : Graphs) : Graphs :=
  w.eachGraph (fun s g => g.store (world s) key i (.set inValue)) inNode graphs

/-- `Node_MapControl`, by index or name. -/
def nodeMapControl (inNode : NodeID) (key : ControlKey) (i : ℤ) (inBus : Word) (graphs : Graphs) :
    Graphs :=
  w.eachGraph (fun s g => g.store (world s) key i (.map inBus)) inNode graphs

/-- `for (int i=0; i<n; ++i) Node_SetControl(node, index+i, value);` -/
def fillSet (node : NodeID) (key : ControlKey) (n value : Word) (graphs : Graphs) : Graphs :=
  (List.range n.toInt.toNat).foldl
    (fun graphs (i : ℕ) => nodeSetControl w world node key i value graphs) graphs

/-- `for (int i=0; i<n; ++i) Node_MapControl(node, index+i, bus+i);` -/
def fillMap (node : NodeID) (key : ControlKey) (n bus : Word) (graphs : Graphs) : Graphs :=
  (List.range n.toInt.toNat).foldl
    (fun graphs (i : ℕ) => nodeMapControl w world node key i (bus + BitVec.ofNat 32 i) graphs)
    graphs

/-- What a string behind the value asks for; only `c` maps. -/
def fillString (node : NodeID) (key : ControlKey) (n : Word) (graphs : Graphs) :
    List Byte → Graphs
  | [] => graphs
  | first :: string =>
    if first = chr 'c' then fillMap w world node key n (scAtoi string) graphs else graphs

/-- The second half of a turn: what stands behind the value is read as another value, or as a
mapping. -/
def nFillAgain (node : NodeID) (key : ControlKey) (n : Word) (msg : MsgIter) (graphs : Graphs) :
    Option (MsgIter × Graphs) := do
  if (← msg.nextTagOr (chr 'f')) = chr 's' then
    let (string, msg) ← msg.gets none
    let string ← string
    return (msg, fillString w world node key n graphs string)
  else
    let (value, msg) ← msg.getf fpu 0#32
    return (msg, fillSet w world node key n value graphs)

/-- One turn of the loop of `meth_n_fill`. -/
def nFillTurn (node : NodeID) (msg : MsgIter) (graphs : Graphs) : Option (MsgIter × Graphs) := do
  let (key, msg) ← getKey fpu msg
  let (n, msg) ← msg.geti fpu 0#32
  let (value, msg) ← msg.getf fpu 0#32
  nFillAgain fpu w world node key n msg (fillSet w world node key n value graphs)

/-- `while (msg.remain() >= 12)`. Besides the controls, the result is at which argument each turn
begins. -/
def nFillLoop (node : NodeID) : ℕ → MsgIter → Graphs → Option (List ℕ × Graphs)
  | 0, _, _ => none
  | turns + 1, msg, graphs =>
    if 12 ≤ msg.remain then do
      let (msg', graphs) ← nFillTurn fpu w world node msg graphs
      let (starts, graphs) ← nFillLoop node turns msg' graphs
      return (msg.count :: starts, graphs)
    else some ([], graphs)

/-- `meth_n_fill`; nothing is done when there is no such node. -/
def methNFill (turns : ℕ) (msg : MsgIter) (graphs : Graphs) : Option (List ℕ × Graphs) := do
  match ← msgGetNode fpu w msg with
  | (none, _) => return ([], graphs)
  | (some node, msg) => nFillLoop fpu w world node turns msg graphs

end Fill

end PoopWorms.Server
