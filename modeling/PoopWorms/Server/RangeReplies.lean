import PoopWorms.Server.Commands
import PoopWorms.Server.NodeFill
import PoopWorms.Server.ScPacket

/-!
# The commands that read ranges

`/c_getn`, `/b_getn` and `/s_getn` answer with the values of ranges of control buses, samples or
controls. Each goes through its arguments twice: once to count the tags of the reply, and once
to build it.
-/

namespace PoopWorms.Server

open Octets Osc

/-- An array that is read: `maxIndex` is an `int32`. -/
structure ReadArray where
  maxIndex : Word
  data : ℤ → Word

/-- What a command leaves behind: the packet, what is sent of it, and the error. -/
structure GetnResult where
  packet : ScPacket
  sent : Option (List Byte)
  err : SCErr

/-- `Graph_GetControl`, by index or name, into a variable that holds 0. -/
def Controls.getControl (world : ControlWorld) (key : ControlKey) (g : Controls) (i : ℤ) : Word :=
  match key.at world i with
  | none => 0#32
  | some inIndex => if g.mNumControls ≤ inIndex.toNat then 0#32 else g.mControls inIndex.toNat

section Getn

variable (fpu : FloatUnit)

/-- `while (msg.remain())`, which adds up the counts. -/
def countControls : ℕ → MsgIter → Word → Option Word
  | 0, _, _ => none
  | turns + 1, msg, numcontrols =>
    if msg.remain = 0 then some numcontrols
    else do
      let (_, msg) ← msg.geti fpu 0#32
      let (n, msg) ← msg.geti fpu 0#32
      countControls turns msg (numcontrols + n)

/-- The loop over a range, for the `n` indices that there are. -/
def addValues (value : ℤ → Word) : ℕ → ℤ → ScPacket → ScPacket
  | 0, _, packet => packet
  | n + 1, i, packet => addValues value n (i + 1) ((packet.addtag (chr 'f')).addf (value i))

/-- The second loop of `meth_c_getn` and `meth_b_getn`. -/
def getnLoop (array : ReadArray) : ℕ → MsgIter → ScPacket → Option (ScPacket × SCErr)
  | 0, _, _ => none
  | turns + 1, msg, packet =>
    if msg.remain = 0 then some (packet, .none)
    else do
      let (start, msg) ← msg.geti fpu 0#32
      let (n, msg) ← msg.geti fpu 0#32
      let last := (start + n - 1#32).toInt
      if start.toInt < 0 ∨ array.maxIndex.toInt ≤ last ∨ last < start.toInt then
        return (packet, .indexOutOfRange)
      let packet := (packet.addtag (chr 'i')).addtag (chr 'i')
      let packet := (packet.addi start).addi n
      getnLoop array turns msg
        (addValues array.data (last + 1 - start.toInt).toNat start.toInt packet)

/-- The second loop of `meth_s_getn`. -/
def sGetnLoop (getControl : ControlKey → ℤ → Word) :
    ℕ → MsgIter → ScPacket → Option (ScPacket × SCErr)
  | 0, _, _ => none
  | turns + 1, msg, packet =>
    if msg.remain = 0 then some (packet, .none)
    else do
      if (← msg.nextTagOr (chr 'i')) = chr 's' then
        let (name, msg) ← msg.gets4 none
        let name ← name
        let (n, msg) ← msg.geti fpu 0#32
        let packet := (packet.addtag (chr 's')).addtag (chr 'i')
        let packet := (packet.adds name).addi n
        sGetnLoop getControl turns msg
          (addValues (getControl (.name name)) n.toInt.toNat 0 packet)
      else
        let (index, msg) ← msg.geti fpu 0#32
        let (n, msg) ← msg.geti fpu 0#32
        let packet := (packet.addtag (chr 'i')).addtag (chr 'i')
        let packet := (packet.addi index).addi n
        sGetnLoop getControl turns msg
          (addValues (getControl (.index index)) n.toInt.toNat 0 packet)

/-- Behind the loops the packet is sent, unless the command has returned. -/
def finishGetn (packet : ScPacket) (err : SCErr) : GetnResult :=
  ⟨packet, if err = .none then packet.sendReply else none, err⟩

variable (turns : ℕ) (stack : ℤ → Byte)

/-- `meth_c_getn` -/
def methCGetn (bus : ReadArray) (msg : MsgIter) : Option GetnResult := do
  let numheads := BitVec.ofInt 32 (msg.remain / 8)
  let numcontrols ← countControls fpu turns msg 0#32
  let packet := (ScPacket.reset stack).adds (CString.ofString "/c_setn").bytes
  let packet := packet.maketags (numheads * 2#32 + numcontrols + 1#32)
  let packet := packet.addtag (chr ',')
  let (packet, err) ← getnLoop fpu bus turns msg packet
  return finishGetn packet err

/-- `meth_b_getn`; `getBuf` is `World_GetBuf`, which always gives a buffer. -/
def methBGetn (getBuf : Word → ReadArray) (msg : MsgIter) : Option GetnResult := do
  let (bufindex, msg) ← msg.geti fpu 0#32
  let numheads := BitVec.ofInt 32 (msg.remain / 8)
  let numcontrols ← countControls fpu turns msg 0#32
  let packet := (ScPacket.reset stack).adds (CString.ofString "/b_setn").bytes
  let packet := packet.maketags (numheads * 2#32 + numcontrols + 2#32)
  let packet := (packet.addtag (chr ',')).addtag (chr 'i')
  let packet := packet.addi bufindex
  let (packet, err) ← getnLoop fpu (getBuf bufindex) turns msg packet
  return finishGetn packet err

/-- `strlen(msg.tags) - 1 >> 1`, or the number of pairs of words that are left. -/
def sGetnHeads (msg : MsgIter) : Word :=
  match msg.tags with
  | some tags =>
    let strlen := ((msg.data.drop tags).takeWhile (· ≠ 0#8)).length
    ((BitVec.ofNat 64 strlen - 1#64) >>> 1).setWidth 32
  | none => BitVec.ofInt 32 (msg.remain / 8)

/-- `meth_s_getn`; the second time the node is skipped by `geti`. -/
def methSGetn (w : World) (getControl : NodeID → ControlKey → ℤ → Word) (msg : MsgIter) :
    Option GetnResult := do
  let (node, behind) ← msgGetNode fpu w msg
  match node.filter fun n => ¬ (w.mNode n).mIsGroup with
  | none => return ⟨.reset stack, none, .nodeNotFound⟩
  | some graph =>
    let numheads := sGetnHeads behind
    let numcontrols ← countControls fpu turns behind 0#32
    let packet := (ScPacket.reset stack).adds (CString.ofString "/n_setn").bytes
    let packet := packet.maketags (numheads * 2#32 + numcontrols + 2#32)
    let packet := packet.addtag (chr ',')
    let (_, msg) ← msg.geti fpu 0#32
    let packet := packet.addtag (chr 'i')
    let packet := packet.addi graph
    let (packet, err) ← sGetnLoop fpu (getControl graph) turns msg packet
    return finishGetn packet err

end Getn

end PoopWorms.Server
