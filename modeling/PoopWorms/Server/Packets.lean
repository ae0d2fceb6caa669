import PoopWorms.Server.MsgFifoContents
import PoopWorms.Server.PriorityQueue

/-!
# Who owns a packet

The way of the packets through the server: from the port that receives them through
`mOscPacketsToEngine` to the audio thread, into the scheduler, and back through `mFromEngine`
to be freed. The memory of a reply message goes from the audio thread through `mNodeMsgs` and
back through `mToEngine`. Every block of memory is a number, in the order of allocation.
-/

namespace PoopWorms.Server

open BinaryHeap

abbrev MemBlock := ℕ

/-- A received packet with its data, which are always freed together, and its time tag if it
is a bundle. -/
structure OSCPacket where
  block : MemBlock
  time : Option ℤ
deriving DecidableEq

/-- The packet of an event with its `mPacketFreeFunc`: a received packet, or one of a completion
message. -/
inductive ScheduledPacket
  | freeInNRT (packet : MemBlock)
  | freeInRT (packet data : MemBlock)
deriving DecidableEq

inductive FromEngineMsg
  | freeOSCPacket (mData : Option MemBlock)
  | other

inductive ToEngineMsg
  | nodeReplyRTFree (mData : MemBlock)
  | other

/-- A message of `mOscPacketsToEngine` is its `mData`: `Perform_ToEngine_Msg` sets it to null,
together with `mFreeFunc`, when it gives the packet to the scheduler. `inHand` is the event
between `Remove` and the end of its `Perform`, and `mMsgData` has the completion messages of the
sequenced commands. A flag says that a turn of `Perform` has not advanced the read head yet. -/
structure PacketDriver (k N : ℕ) where
  mOscPacketsToEngine : MsgFifo (Option OSCPacket) (2 ^ k)
  mFromEngine : MsgFifo FromEngineMsg (2 ^ k)
  mToEngine : MsgFifo ToEngineMsg (2 ^ k)
  mNodeMsgs : MsgFifoNoFree MemBlock (2 ^ k)
  mScheduler : PriorityQueue ScheduledPacket N
  inHand : Option ScheduledPacket
  mMsgData : List MemBlock
  performingOscPackets : Bool
  performingFromEngine : Bool
  performingToEngine : Bool
  performingNodeMsgs : Bool
  allocated : ℕ
  freed : List MemBlock

/-- The packets that messages of `mOscPacketsToEngine` still have. -/
def oscBlocks (messages : List (Option OSCPacket)) : List MemBlock :=
  messages.filterMap fun mData => mData.map OSCPacket.block

namespace PacketDriver

variable {k N : ℕ}

def new (events : ℕ → ScheduledEvent ScheduledPacket) : PacketDriver k N where
  mOscPacketsToEngine := .new fun _ => none
  mFromEngine := .new fun _ => .other
  mToEngine := .new fun _ => .other
  mNodeMsgs := .new fun _ => 0
  mScheduler := .new events
  inHand := none
  mMsgData := []
  performingOscPackets := false
  performingFromEngine := false
  performingToEngine := false
  performingNodeMsgs := false
  allocated := 0
  freed := []

/-- Allocate a block, which gets the number `allocated`. -/
def alloc (s : PacketDriver k N) : PacketDriver k N := { s with allocated := s.allocated + 1 }

def free (s : PacketDriver k N) (blocks : List MemBlock) : PacketDriver k N :=
  { s with freed := s.freed ++ blocks }

/-- `SendOscPacketMsgToEngine`, with its result. -/
def sendOscPacketMsgToEngine (s : PacketDriver k N) (packet : OSCPacket) :
    PacketDriver k N × Bool :=
  let done := MsgFifo.reclaimed (2 ^ k) s.mOscPacketsToEngine
  let fifo := MsgFifo.free (2 ^ k) s.mOscPacketsToEngine
  -- `FreeOSCPacket`
  let s := { s.free (oscBlocks done) with mOscPacketsToEngine := fifo }
  match fifo.write (some packet) with
  | some fifo => ({ s with mOscPacketsToEngine := fifo }, true)
  | none => (s, false)

/-- `SendMsgFromEngine`, with its result. -/
def sendMsgFromEngine (s : PacketDriver k N) (msg : FromEngineMsg) : PacketDriver k N × Bool :=
  match s.mFromEngine.write msg with
  | some fifo => ({ s with mFromEngine := fifo }, true)
  | none => (s, false)

/-- `SendMsgToEngine`, with its result. -/
def sendMsgToEngine (s : PacketDriver k N) (msg : ToEngineMsg) : PacketDriver k N × Bool :=
  let fifo := MsgFifo.free (2 ^ k) s.mToEngine
  match fifo.write msg with
  | some fifo => ({ s with mToEngine := fifo }, true)
  | none => ({ s with mToEngine := fifo }, false)

/-- `SC_UdpInPort::Run` and `SC_TcpConnectionPort::Run`, for one packet. -/
def portReceive (s : PacketDriver k N) (time : Option ℤ) : PacketDriver k N :=
  let packet : OSCPacket := ⟨s.allocated, time⟩
  let sent := s.alloc.sendOscPacketMsgToEngine packet
  if sent.2 then sent.1
  -- command FIFO full
  else sent.1.free [packet.block]

/-- `World_SendPacketWithContext`. -/
def sendPacketWithContext (s : PacketDriver k N) (time : Option ℤ) : PacketDriver k N :=
  (s.alloc.sendOscPacketMsgToEngine ⟨s.allocated, time⟩).1

/-- `PerformOSCPacket`: whether the packet is to be scheduled. What its commands do are steps of
their own. -/
def isScheduled (time : Option ℤ) : Option ℤ :=
  match time with
  | none => none
  | some time => if time = 0 ∨ time = 1 then none else some time

/-- `AddEvent`, which does not look at what `Add` returns. -/
def addEvent (s : PacketDriver k N) (time : ℤ) (packet : ScheduledPacket) : PacketDriver k N :=
  { s with mScheduler := (s.mScheduler.add ⟨time, packet⟩).1 }

/-- `Perform_ToEngine_Msg`, for the next message of the ring. -/
def performOscPacket (s : PacketDriver k N) (mData : Option OSCPacket) : PacketDriver k N :=
  match mData with
  | none => s
  | some packet =>
    match isScheduled packet.time with
    | none => s
    | some time =>
      -- Transfer ownership
      { s.addEvent time (.freeInNRT packet.block) with
        mOscPacketsToEngine := s.mOscPacketsToEngine.setNext none }

/-- `mPacketFreeFunc`: `FreeInNRT` or `FreeInRT`. -/
def packetFreeFunc (s : PacketDriver k N) : ScheduledPacket → PacketDriver k N
  | .freeInNRT packet => (s.sendMsgFromEngine (.freeOSCPacket (some packet))).1
  | .freeInRT packet data => s.free [data, packet]

/-- `Node_SendReply`, when there is memory for the reply. -/
def nodeSendReply (s : PacketDriver k N) : PacketDriver k N :=
  match s.mNodeMsgs.write s.allocated with
  | some fifo => { s.alloc with mNodeMsgs := fifo }
  | none => s.alloc

/-- `SEND_COMPLETION_MSG` with `PerformCompletionMsg`, for the completion message `data`. -/
def sendCompletionMsg (s : PacketDriver k N) (data : MemBlock) (time : Option ℤ) :
    PacketDriver k N :=
  let packet := s.allocated
  match isScheduled time with
  | none => s.alloc.free [packet]
  | some time =>
    { s.alloc.addEvent time (.freeInRT packet data) with mMsgData := s.mMsgData.erase data }

/-- `FreeOSCPacket`, as the perform function of the next message of `mFromEngine`. -/
def performFromEngineMsg (s : PacketDriver k N) : FromEngineMsg → PacketDriver k N
  | .freeOSCPacket (some packet) =>
    { s.free [packet] with mFromEngine := s.mFromEngine.setNext (.freeOSCPacket none) }
  | _ => s

/-- `NodeReplyMsg_RTFree`, or what another message does. -/
def performToEngineMsg (s : PacketDriver k N) : ToEngineMsg → PacketDriver k N
  | .nodeReplyRTFree mData => s.free [mData]
  | .other => s

end PacketDriver

/-- The steps of the threads. -/
inductive PacketStep
  -- of the threads that receive packets
  | portReceive (time : Option ℤ)
  | sendPacketWithContext (time : Option ℤ)
  -- of the audio thread
  | freeFromEngine
  | performToEngine
  | advanceToEngine
  | performOscPackets
  | advanceOscPackets
  | removeEvent (nextTime : ℤ)
  | packetFreeFunc
  | clearSched
  | nodeSendReply
  | getCompletionMsg
  | sendCompletionMsg (data : MemBlock) (time : Option ℤ)
  | deleteCommand (data : MemBlock)
  | sendOtherFromEngine
  -- of the non-real-time thread
  | performFromEngine
  | advanceFromEngine
  | performNodeMsgs
  | advanceNodeMsgs
  | sendOtherToEngine
deriving DecidableEq

namespace PacketDriver

variable {k N : ℕ}

/-- One step; there is none when the thread is elsewhere. -/
def step (s : PacketDriver k N) : PacketStep → Option (PacketDriver k N)
  | .portReceive time => some (s.portReceive time)
  | .sendPacketWithContext time => some (s.sendPacketWithContext time)
  | .freeFromEngine => some { s with mFromEngine := MsgFifo.free (2 ^ k) s.mFromEngine }
  | .performToEngine =>
    if s.performingToEngine then none
    else s.mToEngine.next.map fun msg =>
      { s.performToEngineMsg msg with performingToEngine := true }
  | .advanceToEngine =>
    if s.performingToEngine then
      some { s with mToEngine := s.mToEngine.advance, performingToEngine := false }
    else none
  | .performOscPackets =>
    if s.performingOscPackets then none
    else s.mOscPacketsToEngine.next.map fun mData =>
      { s.performOscPacket mData with performingOscPackets := true }
  | .advanceOscPackets =>
    if s.performingOscPackets then
      some { s with
        mOscPacketsToEngine := s.mOscPacketsToEngine.advance
        performingOscPackets := false }
    else none
  | .removeEvent nextTime =>
    if s.inHand.isSome then none
    else if s.mScheduler.nextTime ≤ nextTime then
      s.mScheduler.remove.map fun removed =>
        { s with mScheduler := removed.2, inHand := some removed.1.mPacket }
    else some s
  | .packetFreeFunc => s.inHand.map fun packet => { s.packetFreeFunc packet with inHand := none }
  | .clearSched => some { s with mScheduler := s.mScheduler.empty }
  | .nodeSendReply => some s.nodeSendReply
  | .getCompletionMsg => some { s.alloc with mMsgData := s.allocated :: s.mMsgData }
  | .sendCompletionMsg data time =>
    if s.mMsgData.contains data then some (s.sendCompletionMsg data time) else none
  | .deleteCommand data =>
    if s.mMsgData.contains data then
      some { s.free [data] with mMsgData := s.mMsgData.erase data }
    else none
  | .sendOtherFromEngine => some (s.sendMsgFromEngine .other).1
  | .performFromEngine =>
    if s.performingFromEngine then none
    else s.mFromEngine.next.map fun msg =>
      { s.performFromEngineMsg msg with performingFromEngine := true }
  | .advanceFromEngine =>
    if s.performingFromEngine then
      some { s with mFromEngine := s.mFromEngine.advance, performingFromEngine := false }
    else none
  | .performNodeMsgs =>
    if s.performingNodeMsgs then none
    else s.mNodeMsgs.next.map fun block =>
      -- Free memory in realtime thread
      { (s.sendMsgToEngine (.nodeReplyRTFree block)).1 with performingNodeMsgs := true }
  | .advanceNodeMsgs =>
    if s.performingNodeMsgs then
      some { s with mNodeMsgs := s.mNodeMsgs.advance, performingNodeMsgs := false }
    else none
  | .sendOtherToEngine => some (s.sendMsgToEngine .other).1

def steps : PacketDriver k N → List PacketStep → Option (PacketDriver k N)
  | s, [] => some s
  | s, step :: rest => (s.step step).bind fun s => s.steps rest

end PacketDriver

end PoopWorms.Server
