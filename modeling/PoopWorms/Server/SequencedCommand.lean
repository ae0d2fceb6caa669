import PoopWorms.Server.MsgFifo

/-!
# Sequenced commands

`SC_SequencedCommand`: up to four stages that alternate between the real-time and the
non-real-time thread, each of which passes the command on to the other through a fifo. A
command is the address of its object, and its stages are given by what they return. The
threads are interleaved between the message that a turn of `MsgFifo::Perform` performs
and the advance of the read head that ends the turn.
-/

namespace PoopWorms.Server

abbrev CommandID := ℕ

inductive Thread
  | realTime
  | nonRealTime
deriving DecidableEq

/-- What a command does. -/
inductive Effect
  | stage (n : ℕ)
  | delete
deriving DecidableEq

structure Event where
  thread : Thread
  cmd : CommandID
  effect : Effect
deriving DecidableEq

/-- `CallEveryStage`, which falls through its cases; `stage n` is what stage `n` returns. -/
def callEveryStage (stage : ℕ → Bool) (mNextStage : ℕ) : List Effect :=
  let case4 := [Effect.stage 4]
  let case3 := Effect.stage 3 :: if stage 3 then case4 else []
  let case2 := Effect.stage 2 :: if stage 2 then case3 else []
  let case1 := Effect.stage 1 :: if stage 1 then case2 else []
  let cases :=
    match mNextStage with
    | 1 => case1
    | 2 => case2
    | 3 => case3
    | 4 => case4
    | _ => []
  cases ++ [.delete]

/-! ## The two threads -/

/-- The messages of the two fifos: those of the commands, and the rest of the traffic. -/
inductive FifoMsg
  | doSequencedCommand (cmd : CommandID)
  | freeSequencedCommand (cmd : CommandID)
  | other
deriving DecidableEq

/-- The fifos of `SC_AudioDriver` and the commands. A flag says that a thread has
performed the next message of its fifo and has not advanced the read head yet. -/
structure Driver (k : ℕ) where
  mNextStage : CommandID → ℕ
  mFromEngine : MsgFifo FifoMsg (2 ^ k)
  mToEngine : MsgFifo FifoMsg (2 ^ k)
  performingFromEngine : Bool
  performingToEngine : Bool
  log : List Event

namespace Driver

variable {k : ℕ}

/-- No command has been performed: each begins with stage 1. -/
def new : Driver k where
  mNextStage := fun _ => 1
  mFromEngine := MsgFifo.new fun _ => .other
  mToEngine := MsgFifo.new fun _ => .other
  performingFromEngine := false
  performingToEngine := false
  log := []

def record (s : Driver k) (thread : Thread) (cmd : CommandID) (effect : Effect) : Driver k :=
  { s with log := s.log ++ [⟨thread, cmd, effect⟩] }

/-- `SendMsgFromEngine`. -/
def sendMsgFromEngine (s : Driver k) (msg : FifoMsg) : Option (Driver k) :=
  (s.mFromEngine.write msg).map fun fifo => { s with mFromEngine := fifo }

/-- `SendMsgToEngine`. -/
def sendMsgToEngine (s : Driver k) (msg : FifoMsg) : Option (Driver k) :=
  ((MsgFifo.free (2 ^ k) s.mToEngine).write msg).map fun fifo => { s with mToEngine := fifo }

/-- The switch of `CallNextStage`: the stage, and whether to send the command again. -/
def callStage (stage : CommandID → ℕ → Bool) (s : Driver k) (thread : Thread)
    (cmd : CommandID) : Driver k × Bool :=
  match s.mNextStage cmd with
  | 1 => (s.record thread cmd (.stage 1), stage cmd 1)
  | 2 => (s.record thread cmd (.stage 2), stage cmd 2)
  | 3 => (s.record thread cmd (.stage 3), stage cmd 3)
  | 4 => (s.record thread cmd (.stage 4), false)
  | _ => (s, false)

/-- `CallNextStage`, called by one of the threads. -/
def callNextStage (stage : CommandID → ℕ → Bool) (s : Driver k) (thread : Thread)
    (cmd : CommandID) : Option (Driver k) :=
  let isRealTime := s.mNextStage cmd &&& 1
  let sendAgain := (s.callStage stage thread cmd).2
  let s := { (s.callStage stage thread cmd).1 with
    mNextStage := Function.update s.mNextStage cmd (s.mNextStage cmd + 1) }
  if sendAgain then
    -- send this to next time.
    if isRealTime ≠ 0 then s.sendMsgFromEngine (.doSequencedCommand cmd)
    else s.sendMsgToEngine (.doSequencedCommand cmd)
  else
    if isRealTime ≠ 0 then some (s.record thread cmd .delete)
    -- can only be freed from RT.
    else s.sendMsgToEngine (.freeSequencedCommand cmd)

/-- `FifoMsg::Perform`. -/
def perform (stage : CommandID → ℕ → Bool) (s : Driver k) (thread : Thread) :
    FifoMsg → Option (Driver k)
  | .doSequencedCommand cmd => s.callNextStage stage thread cmd
  | .freeSequencedCommand cmd => some (s.record thread cmd .delete)
  | .other => some s

end Driver

/-- The steps of the two threads. -/
inductive DriverAct
  -- of the real-time thread
  | start (cmd : CommandID)
  | performToEngine
  | advanceToEngine
  | freeFromEngine
  | sendOtherFromEngine
  -- of the non-real-time thread
  | performFromEngine
  | advanceFromEngine
  | sendOtherToEngine
deriving DecidableEq

namespace Driver

variable {k : ℕ}

/-- One step; there is none when the thread is elsewhere or when a fifo is full. -/
def act (stage : CommandID → ℕ → Bool) (s : Driver k) : DriverAct → Option (Driver k)
  | .start cmd => if s.mNextStage cmd = 1 then s.callNextStage stage .realTime cmd else none
  | .performToEngine =>
    if s.performingToEngine then none
    else do
      let msg ← s.mToEngine.next
      { s with performingToEngine := true }.perform stage .realTime msg
  | .advanceToEngine =>
    if s.performingToEngine then
      some { s with mToEngine := s.mToEngine.advance, performingToEngine := false }
    else none
  | .freeFromEngine => some { s with mFromEngine := MsgFifo.free (2 ^ k) s.mFromEngine }
  | .sendOtherFromEngine => s.sendMsgFromEngine .other
  | .performFromEngine =>
    if s.performingFromEngine then none
    else do
      let msg ← s.mFromEngine.next
      { s with performingFromEngine := true }.perform stage .nonRealTime msg
  | .advanceFromEngine =>
    if s.performingFromEngine then
      some { s with mFromEngine := s.mFromEngine.advance, performingFromEngine := false }
    else none
  | .sendOtherToEngine => s.sendMsgToEngine .other

/-- Steps one after the other. -/
def acts (stage : CommandID → ℕ → Bool) : Driver k → List DriverAct → Option (Driver k)
  | s, [] => some s
  | s, a :: as => (s.act stage a).bind fun s => acts stage s as

/-- Both threads have performed everything that was sent to them. -/
def Drained (s : Driver k) : Prop :=
  s.mFromEngine.hasData = false ∧ s.mToEngine.hasData = false ∧
    s.performingFromEngine = false ∧ s.performingToEngine = false

/-- What a command has done so far. -/
def effects (s : Driver k) (cmd : CommandID) : List Effect :=
  (s.log.filter fun e => e.cmd = cmd).map Event.effect

end Driver

end PoopWorms.Server
