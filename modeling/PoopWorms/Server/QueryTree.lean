import PoopWorms.Server.Commands
import PoopWorms.Server.GraphDefRead
import PoopWorms.Server.NodeFill
import PoopWorms.Server.ScPacket
import Mathlib.Data.Nat.Digits.Defs

/-!
# `/g_queryTree` and `/g_dumpTree`

Both walk over the nodes below a group. `meth_g_queryTree` answers with the IDs, the numbers of
children and the definitions of the nodes, and with the names and values of the controls if it
is asked to; its tags are counted in a walk of their own. `Group_DumpNodeTreeAndControls` prints
the same controls. Where a control is mapped, both find out the bus from `mMapControls`.
-/

namespace PoopWorms.Server

open Octets Osc ScPacket

/-! ## Text -/

/-- The digits of a number. -/
def decimal (n : ℕ) : List Byte :=
  (if n = 0 then [0] else Nat.digits 10 n).reverse.map fun d => 48#8 + BitVec.ofNat 8 d

/-- `%d` -/
def printInt (i : Word) : List Byte :=
  if i.toInt < 0 then chr '-' :: decimal i.toInt.natAbs else decimal i.toInt.natAbs

/-- What is read at a `char*`. -/
def cString (name : List Byte) : List Byte := name.takeWhile (· ≠ 0#8)

/-! ## The walk -/

namespace World

/-- The loop over the children, from a child on, which goes into groups; `visit` is what is done
to a node. -/
def eachBelow {α : Type} (w : World) (visit : NodeID → α → Option α) :
    ℕ → Option NodeID → α → Option α
  | 0, _, _ => none
  | _ + 1, none, a => some a
  | fuel + 1, some child, a => do
    let next := (w.mNode child).mNext
    let a ← visit child a
    let a ← if (w.mNode child).mIsGroup then eachBelow w visit fuel (w.mNode child).mHead a
      else some a
    eachBelow w visit fuel next a

/-- The walk over all that is below a group. No node is visited twice. -/
def walk {α : Type} (w : World) (visit : NodeID → α → Option α) (inGroup : NodeID) (a : α) :
    Option α :=
  w.eachBelow visit (2 * w.mNodeLib.card + 1) (w.mNode inGroup).mHead a

/-! ## Counting the tags -/

/-- `(*count)+= 2;`, and one more "for the defname" -/
def countNodeTags (w : World) (child : NodeID) (count : Word) : Word :=
  let count := count + 2#32
  if (w.mNode child).mIsGroup then count else count + 1#32

/-- `Group_CountNodeTags` -/
def groupCountNodeTags (w : World) (inGroup : NodeID) (count : Word) : Option Word :=
  w.walk (fun child count => some (w.countNodeTags child count)) inGroup count

/-- "def, numControls, name or index and value for each"; the pair is `count` and
`controlAndDefCount`. -/
def countNodeAndControlTags (w : World) (graphs : Graphs) (child : NodeID)
    (counts : Word × Word) : Word × Word :=
  let count := counts.1 + 1#32
  if (w.mNode child).mIsGroup then (count, counts.2)
  else (count, counts.2 + (BitVec.ofNat 32 (graphs child).mNumControls * 2#32 + 2#32))

/-- `Group_CountNodeAndControlTags` -/
def groupCountNodeAndControlTags (w : World) (graphs : Graphs) (inGroup : NodeID)
    (counts : Word × Word) : Option (Word × Word) :=
  w.walk (fun child counts => some (w.countNodeAndControlTags graphs child counts)) inGroup counts

/-- "count the children for this group, but not their children (shallow)" -/
def countChildren (w : World) : ℕ → Option NodeID → Word → Option Word
  | 0, _, _ => none
  | _ + 1, none, count => some count
  | fuel + 1, some child, count => w.countChildren fuel (w.mNode child).mNext (count + 1#32)

end World

/-! ## The controls of a synth -/

/-- The synths' controls and the names in their definitions. Arrays lie at distances, in floats,
from `mControlBus`. -/
structure SynthMemory where
  graphs : Graphs
  mParamSpecs : NodeID → List ParamSpec
  mControls : NodeID → ℤ
  mAudioBus : ℤ
  mBufLength : ℕ

namespace SynthMemory

variable (m : SynthMemory)

/-- Where an element of `mMapControls` points to. -/
def place (graph : NodeID) : ControlSource → ℤ
  | .control i => m.mControls graph + i
  | .controlBus inBus => inBus
  | .audioBus offset => m.mAudioBus + offset

/-- "check the number of named controls and stash their names at the correct index"; the array
has `numControls` elements. -/
def stashNames (specs : List ParamSpec) (numControls : ℕ) : Option (ℕ → Option (List Byte)) :=
  specs.foldlM (fun names spec =>
    if spec.mIndex < numControls then some (Function.update names spec.mIndex (some spec.mName))
    else none) fun _ => none

/-- The name of a control, or its index. -/
def queryName (names : ℕ → Option (List Byte)) (i : ℕ) : Item :=
  match names i with
  | some name => .string (cString name)
  | none => .int (BitVec.ofNat 32 i)

/-- The value of a control, or the bus that it is mapped to; `char buf[10]` "should be long
enough". -/
def queryValue (childGraph : NodeID) (i : ℕ) : Option Item :=
  let g := m.graphs childGraph
  if g.mMapControls i ≠ .control i then
    let bus := BitVec.ofInt 32 (m.place childGraph (g.mMapControls i))
    let buf := chr 'c' :: printInt bus
    if buf.length < 10 then some (.string buf) else none
  else some (.float (g.mControls i))

/-- An item with its tag in front of it. -/
def tagged (x : Item) : List Op := [.tag x.tag, .item x]

/-- What `Group_QueryTreeAndControls` adds for one control. -/
def queryControl (childGraph : NodeID) (names : ℕ → Option (List Byte)) (i : ℕ) :
    Option (List Op) := do
  let value ← m.queryValue childGraph i
  return tagged (queryName names i) ++ tagged value

/-- What `Group_DumpNodeTreeAndControls` prints for the value of a control: `%.14g` is a float.
`quotient` gives `(int)((float)bus / mBufLength)`. -/
def dumpValue (quotient : Word → ℕ → Word) (childGraph : NodeID) (i : ℕ) : Item :=
  let g := m.graphs childGraph
  if g.mMapControls i ≠ .control i then
    if g.mControlRates i = 2 then
      let bus := BitVec.ofInt 32 (m.place childGraph (g.mMapControls i) - m.mAudioBus)
      .string (chr 'a' :: printInt (quotient bus m.mBufLength))
    else
      let bus := BitVec.ofInt 32 (m.place childGraph (g.mMapControls i))
      .string (chr 'c' :: printInt bus)
  else .float (g.mControls i)

end SynthMemory

open SynthMemory

/-! ## The query -/

namespace World

variable (w : World) (m : SynthMemory)

/-- What a group adds before its children. -/
def queryHead (inGroup : NodeID) : Option (List Op) := do
  let count ← w.countChildren (2 * w.mNodeLib.card + 1) (w.mNode inGroup).mHead 0#32
  return tagged (.int inGroup) ++ tagged (.int count)

/-- What a synth adds, with or without controls. -/
def querySynth (child : NodeID) : List Op :=
  [.tag (chr 'i'), .tag (chr 'i'), .tag (chr 's'), .item (.int child), .item (.int (-1#32)),
    .item (.string (cString (w.mNode child).mDef))]

/-- What `Group_QueryTreeAndControls` adds for a synth. -/
def querySynthAndControls (child : NodeID) : Option (List Op) := do
  let numControls := (m.graphs child).mNumControls
  let names ← stashNames (m.mParamSpecs child) numControls
  let controls ← (List.range numControls).mapM (m.queryControl child names)
  return w.querySynth child ++ tagged (.int (BitVec.ofNat 32 numControls)) ++ controls.flatten

/-- What a child adds itself. -/
def queryNode (synth : NodeID → Option (List Op)) (child : NodeID) : Option (List Op) :=
  if (w.mNode child).mIsGroup then w.queryHead child else synth child

/-- A child adds its calls behind those that have been made. -/
def queryChild (synth : NodeID → Option (List Op)) (child : NodeID) (ops : List Op) :
    Option (List Op) := (w.queryNode synth child).map (ops ++ ·)

/-- The calls that `Group_QueryTree` makes on the packet. -/
def groupQueryTree (inGroup : NodeID) : Option (List Op) := do
  let head ← w.queryHead inGroup
  w.walk (w.queryChild fun child => some (w.querySynth child)) inGroup head

/-- The calls that `Group_QueryTreeAndControls` makes on the packet. -/
def groupQueryTreeAndControls (inGroup : NodeID) : Option (List Op) := do
  let head ← w.queryHead inGroup
  w.walk (w.queryChild (w.querySynthAndControls m)) inGroup head

/-- What the reply for a group is built of: the number of its tags, which is counted beforehand,
and the calls behind `maketags`. -/
def queryTreeCalls (group : NodeID) (flag : Word) : Option (Word × List Op) := do
  if flag ≠ 0#32 then
    let (numNodes, numControlsAndDefs) ←
      w.groupCountNodeAndControlTags m.graphs group (1#32, 0#32)
    let ops ← w.groupQueryTreeAndControls m group
    return (numNodes * 2#32 + numControlsAndDefs + 2#32,
      .tag (chr ',') :: .tag (chr 'i') :: .item (.int 1#32) :: ops)
  else
    let numNodeTags ← w.groupCountNodeTags group 2#32
    let ops ← w.groupQueryTree group
    return (numNodeTags + 2#32, .tag (chr ',') :: .tag (chr 'i') :: .item (.int 0#32) :: ops)

/-- What is sent for a group. -/
def queryTreeReply (stack : ℤ → Byte) (group : NodeID) (flag : Word) :
    Option (Option (List Byte)) := do
  let (numtags, ops) ← w.queryTreeCalls m group flag
  let packet := (ScPacket.reset stack).adds (CString.ofString "/g_queryTree.reply").bytes
  return ((packet.maketags numtags).performAll ops).sendReply

/-- `meth_g_queryTree`: the replies that are sent, and the error. -/
def methGQueryTree (fpu : FloatUnit) (stack : ℕ → ℤ → Byte) :
    ℕ → MsgIter → Option (List (List Byte) × SCErr)
  | 0, _ => none
  | turns + 1, msg =>
    if msg.remain = 0 then some ([], .none)
    else do
      match ← msgGetGroup fpu w msg with
      | (none, _) => return ([], .groupNotFound)
      | (some group, msg) =>
        let (flag, msg) ← msg.geti fpu 0#32
        let sent ← w.queryTreeReply m (stack turns) group flag
        let (replies, err) ← methGQueryTree fpu stack turns msg
        return (sent.toList ++ replies, err)

end World

/-! ## The dump -/

/-- A line of the dump: the ID, the name of the definition, and the controls, each with its name
if it has one. -/
structure DumpLine where
  mID : NodeID
  mName : List Byte
  controls : List (Option (List Byte) × Item)

namespace World

variable (w : World) (m : SynthMemory) (quotient : Word → ℕ → Word)

/-- The line of a synth. -/
def dumpSynth (child : NodeID) : Option DumpLine := do
  let numControls := (m.graphs child).mNumControls
  let names ← stashNames (m.mParamSpecs child) numControls
  return ⟨child, cString (w.mNode child).mDef, (List.range numControls).map fun i =>
    ((names i).map cString, m.dumpValue quotient child i)⟩

/-- The line of a node. -/
def dumpLine (child : NodeID) : Option DumpLine :=
  if (w.mNode child).mIsGroup then some ⟨child, cString (w.mNode child).mDef, []⟩
  else w.dumpSynth m quotient child

/-- The loop of `Group_DumpNodeTreeAndControls`, from a child on. A group is dumped by its calc
function, if that has been `Group_Calc`. -/
def dumpFrom (calculated : NodeID → Bool) : ℕ → Option NodeID → Option (List DumpLine)
  | 0, _ => none
  | _ + 1, none => some []
  | fuel + 1, some child => do
    let next := (w.mNode child).mNext
    let line ← w.dumpLine m quotient child
    let below ← if (w.mNode child).mIsGroup ∧ calculated child then
        dumpFrom calculated fuel (w.mNode child).mHead
      else some []
    let rest ← dumpFrom calculated fuel next
    return line :: (below ++ rest)

/-- What `/g_dumpTree` with controls prints for a group. -/
def groupDumpTreeAndControls (calculated : NodeID → Bool) (inGroup : NodeID) :
    Option (List DumpLine) :=
  if calculated inGroup then
    w.dumpFrom m quotient calculated (2 * w.mNodeLib.card + 1) (w.mNode inGroup).mHead
  else some []

end World

end PoopWorms.Server
