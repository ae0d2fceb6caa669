import PoopWorms.Client.Wire
import PoopWorms.Lib.Timetable
import PoopWorms.Server.MsgFifo
import PoopWorms.Server.PriorityQueueTheorems

/-!
# From the client to the node tree

The client's packets cross the network, wait in the fifo of the server and in the queue of its
scheduler, and are performed on the node tree, which `World_Run` changes in between. The network
may lose packets and let them overtake one another; a full fifo and a full queue drop them.
-/

namespace PoopWorms.Client

open Octets Osc Server

def kMaxUDPSize : ℕ := 65535

/-- The client, the packets on the network, the two queues of the driver and the nodes, and how many
packets were lost on the way. `asked` are the times up to which the scheduler has been asked for
events. -/
structure Link (k N : ℕ) where
  synth : AKSCSynth
  network : List (List Byte)
  mOscPacketsToEngine : MsgFifo (List Byte) (2 ^ k)
  mScheduler : PriorityQueue (List Byte) N
  world : World
  lost : ℕ
  asked : List ℤ

inductive LinkEvent
  /-- a call of the client, which sends its messages on these dates -/
  | call (c : AKSCSynth.Call) (dates : ℕ → ℚ)
  /-- the network loses a packet -/
  | lose (i : ℕ)
  /-- a turn of `SC_UdpInPort::Run`, which receives a packet -/
  | receive (i : ℕ)
  /-- a turn of `mOscPacketsToEngine.Perform()` -/
  | performOSCPacket
  /-- a turn of the loop over the scheduled events -/
  | schedule (nextTime : ℤ)
  /-- `World_Run` -/
  | worldRun (run : World → World)

/-- The orders of a call, each with its date. -/
def dated (synth : AKSCSynth) (c : AKSCSynth.Call) (dates : ℕ → ℚ) : List (Order × ℚ) :=
  (synth.orders c).mapIdx fun i o => (o, dates i)

namespace Link

variable (fpu : FloatUnit) {k N : ℕ}

def new (synth : AKSCSynth) (world : World) (items : ℕ → List Byte)
    (events : ℕ → ScheduledEvent (List Byte)) : Link k N where
  synth := synth
  network := []
  mOscPacketsToEngine := .new items
  mScheduler := .new events
  world := world
  lost := 0
  asked := []

/-- `SC_UdpInPort::Run`, for a packet: what does not fit in the buffer is cut off, and an empty
packet is passed over. -/
def received (s : Link k N) (packet : List Byte) : Link k N :=
  let mData := packet.take kMaxUDPSize
  if mData = [] then s
  else
    let fifo := MsgFifo.free (2 ^ k) s.mOscPacketsToEngine
    match fifo.write mData with
    | some fifo => { s with mOscPacketsToEngine := fifo }
    | none => { s with mOscPacketsToEngine := fifo, lost := s.lost + 1 }

/-- What the queue makes of an event: one that it refuses is gone. -/
def scheduled (s : Link k N) : PriorityQueue (List Byte) N × Bool → Link k N
  | (mScheduler, true) => { s with mScheduler }
  | (mScheduler, false) => { s with mScheduler, lost := s.lost + 1 }

/-- `Perform_ToEngine_Msg` -/
def performToEngineMsg (s : Link k N) (packet : List Byte) : Option (Link k N) := do
  let status ← performOSCPacket fpu s.world packet
  match status with
  | .packetPerformed world => return { s with world }
  | .packetScheduled time => return s.scheduled (s.mScheduler.add ⟨time, packet⟩)

def step (s : Link k N) : LinkEvent → Option (Link k N)
  | .call c dates => some { s with
      synth := s.synth.call c
      network := s.network ++ (dated s.synth c dates).filterMap fun x => x.1.packet x.2 }
  | .lose i =>
    if i < s.network.length then
      some { s with network := s.network.eraseIdx i, lost := s.lost + 1 }
    else some s
  | .receive i =>
    match s.network[i]? with
    | some packet => some ({ s with network := s.network.eraseIdx i }.received packet)
    | none => some s
  | .performOSCPacket =>
    match s.mOscPacketsToEngine.next with
    | some packet => do
      let s ← s.performToEngineMsg fpu packet
      return { s with mOscPacketsToEngine := s.mOscPacketsToEngine.advance }
    | none => some s
  | .schedule nextTime =>
    let s := { s with asked := nextTime :: s.asked }
    if s.mScheduler.nextTime ≤ nextTime then do
      let (event, mScheduler) ← s.mScheduler.remove
      let world ← performOSCBundle fpu s.world event.mPacket
      return { s with mScheduler, world }
    else some s
  | .worldRun run => some { s with world := run s.world }

def steps : Link k N → List LinkEvent → Option (Link k N)
  | s, [] => some s
  | s, e :: rest => do
    let s ← s.step fpu e
    s.steps rest

/-- No packet comes to the scheduler when its time is over. -/
def Punctual (s : Link k N) : LinkEvent → Prop
  | .performOSCPacket => ∀ packet ∈ s.mOscPacketsToEngine.next,
      ∀ time ∈ oscDouble (packet.drop 8), ∀ nextTime ∈ s.asked, nextTime ≤ time.toInt
  | _ => True

/-- Every step of the run is punctual. -/
def AllPunctual : Link k N → List LinkEvent → Prop
  | _, [] => True
  | s, e :: rest => s.Punctual e ∧ ∀ s' ∈ s.step fpu e, s'.AllPunctual rest

end Link

/-- What a run asks for, in the order in which it is sent, each with its date. -/
def issued (synth : AKSCSynth) : List LinkEvent → List (Order × ℚ)
  | [] => []
  | .call c dates :: rest => dated synth c dates ++ issued (synth.call c) rest
  | _ :: rest => issued synth rest

/-- What can be sent so that the server understands it: values with tags, in a packet that the
receive buffer holds, within the era of the time tags. -/
structure Sendable (x : Order × ℚ) : Prop where
  tagged : x.1.Tagged
  era : InEra x.2
  short : (x.1.packetBytes x.2).length ≤ kMaxUDPSize

/-- Dates that the clock of the client can show one after the other. -/
def Ticking (xs : List (Order × ℚ)) : Prop :=
  xs.Pairwise fun x y => x.2 + 1 / 4294967296 ≤ y.2

/-- What happens to the nodes. -/
inductive Act
  | carryOut (o : Order)
  | run (f : World → World)

namespace Act

def on (w : World) : Act → World
  | carryOut o => o.carryOut w
  | run f => f w

def order? : Act → Option Order
  | carryOut o => some o
  | run _ => none

def run? : Act → Option (World → World)
  | carryOut _ => none
  | run f => some f

end Act

/-- The runs of the world in a run of the link. -/
def LinkEvent.run? : LinkEvent → Option (World → World)
  | .worldRun run => some run
  | _ => none

open scoped List

/-- The nodes are what the orders make of them, from the first to the last, one for each message
that was not lost, with the runs of the world in between; every message has been carried out,
or is scheduled, in the fifo, on the network or lost. -/
def Link.Delivers {k N : ℕ} (s : Link k N) (world : World) (orders : List Order)
    (runs : List (World → World)) : Prop :=
  ∃ (history : List Act) (queued : List (List Byte)), s.world = history.foldl Act.on world ∧
    history.filterMap Act.run? = runs ∧ history.filterMap Act.order? <+ orders ∧
    s.mOscPacketsToEngine.Carries queued ∧
    (history.filterMap Act.order?).length + s.mScheduler.mSize + queued.length + s.network.length +
      s.lost = orders.length

end PoopWorms.Client
