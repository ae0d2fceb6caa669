import PoopWorms.Lib.Lifetimes
import PoopWorms.Lib.Runs

/-!
# The memory of a sequenced command

What one `SC_SequencedCommand` does to the blocks of the real-time memory that belong to it, from
the message that makes it on: its object, the copy of its message, and what its class allocates.
A block is named after the pointer that holds it. The copy of the `OSC_Packet` that
`PerformCompletionMsg` makes is not a block of the command.

The command is with one of the threads, or in one of the fifos, or nothing refers to it any more;
a completion message may also wait in the scheduler. What other code does is given as an answer.
-/

namespace PoopWorms.Server

open Lifetimes

/-- The classes of `SC_SequencedCommand.h`. -/
inductive CommandClass
  | sync
  | bufAlloc
  | bufGen
  | bufFree
  | bufZero
  | bufAllocRead
  | bufRead
  | bufAllocReadChannel
  | bufReadChannel
  | bufWrite
  | bufClose
  | audioQuit
  | audioStatus
  | notify
  | sendFailure
  | recvSynthDef
  | loadSynthDef
  | loadSynthDefDir
  | sendReply
  | asyncPlugIn
deriving DecidableEq

inductive CommandBlock
  | space
  | mData
  | mFilename
  | mCmdName
  | mErrString
  | mBuffer
  | mMsgData
deriving DecidableEq

/-- What a command is made from: what `sc_msg_iter` gives of its message, or the arguments of
`PerformAsynchronousCommand`. -/
structure InitArgs where
  /-- There is a string for a file name. -/
  filename : Bool
  genName : Bool
  /-- `GetBufGen` finds the generator. -/
  bufGen : Bool
  /-- `sndfileFormatInfoFromStrings` gives an error. -/
  formatErr : Bool
  /-- The size of a synth definition. -/
  defSize : ℤ
  /-- The size of the completion message, or of the whole message of a reply. -/
  msgSize : ℤ
  /-- The plug-in gives a pointer to its completion message. -/
  msgData : Bool
  /-- The time tag of the completion message, if it is a bundle. -/
  time : Option ℤ
  /-- `World_Alloc` finds memory for a block; else it throws. -/
  finds : CommandBlock → Bool

/-- What a stage, and the fifo behind it, get from outside. -/
structure StageAnswers where
  /-- `/b_read` finds frames in the buffer to read to. -/
  opens : Bool
  /-- What the stage returns, where that depends on a file or on a plug-in. -/
  result : Bool
  /-- `PerformCompletionMsg` finds memory for its packet. -/
  packet : Bool
  /-- Performing the completion message throws. -/
  raises : Bool
  /-- The scheduler has room. -/
  room : Bool
  /-- The fifo has room. -/
  accepts : Bool

/-- The members of the object. -/
structure SequencedCommand where
  cls : CommandClass
  mNextStage : ℕ
  /-- The pointers of the class that are not null, in the order of its destructor. -/
  members : List CommandBlock
  mMsgSize : ℤ
  mMsgData : Option CommandBlock
  /-- The time tag of the packet in `mMsgData`, if it is a bundle. -/
  time : Option ℤ

/-- The packet in `mMsgData` is a bundle for later. -/
def SequencedCommand.timed (cmd : SequencedCommand) : Bool :=
  cmd.time.any fun time => !(time = 0 || time = 1)

inductive CommandPlace
  | nowhere
  | inHand
  | doSequencedCommand
  | freeSequencedCommand
deriving DecidableEq

structure CommandRun where
  cmd : SequencedCommand
  place : CommandPlace
  /-- `mData` of a packet in the scheduler. -/
  scheduled : Option CommandBlock
  trace : List (MemEvent CommandBlock)

inductive Thrown
  | noMemory
  | wrongArgType
  /-- The exception of a command in the completion message. -/
  | byCompletionMsg
  /-- Outside real time there is no driver, and no scheduler. -/
  | noDriver

abbrev CommandM := ExceptT Thrown (StateM CommandRun)

namespace CommandM

def emit (events : List (MemEvent CommandBlock)) : CommandM Unit :=
  modify fun s => { s with trace := s.trace ++ events }

def uses (blocks : List CommandBlock) : CommandM Unit := emit (blocks.map .use)

def put (place : CommandPlace) : CommandM Unit := modify fun s => { s with place := place }

def worldAlloc (a : InitArgs) (block : CommandBlock) : CommandM Unit :=
  if a.finds block then emit [.alloc block] else throw .noMemory

/-- `World_Free` on pointers; nothing happens to those that are null. -/
def worldFree (pointers : List CommandBlock) : CommandM Unit := emit (pointers.map .free)

def setCmd (f : SequencedCommand → SequencedCommand) : CommandM Unit :=
  modify fun s => { s with cmd := f s.cmd }

/-! ## Init -/

/-- A pointer of the class gets a block, to which something of the message is copied. -/
def allocMember (a : InitArgs) (block : CommandBlock) : CommandM Unit := do
  worldAlloc a block
  setCmd fun cmd => { cmd with members := cmd.members ++ [block] }
  uses [block]

def allocMsgData (a : InitArgs) : CommandM Unit := do
  worldAlloc a .mMsgData
  setCmd fun cmd => { cmd with mMsgData := some .mMsgData }
  uses [.mMsgData]

/-- `GET_COMPLETION_MSG` -/
def getCompletionMsg (a : InitArgs) : CommandM Unit := do
  setCmd fun cmd => { cmd with mMsgSize := a.msgSize }
  if a.msgSize ≠ 0 then allocMsgData a

/-- The commands with a completion message only. -/
def initCompletion (a : InitArgs) : CommandM Bool := do
  getCompletionMsg a
  return false

/-- The commands with a file name and a completion message. -/
def initFilename (a : InitArgs) : CommandM Bool := do
  if a.filename then
    allocMember a .mFilename
    getCompletionMsg a
    return false
  else
    return true

/-- `BufWriteCmd::Init` -/
def initBufWrite (a : InitArgs) : CommandM Bool := do
  let err ← initFilename a
  return err || a.formatErr

/-- `BufGenCmd::Init` -/
def initBufGen (a : InitArgs) : CommandM Bool := do
  allocMember a .mData
  return !a.genName || !a.bufGen

/-- `InitSendFailureCmd` -/
def initSendFailure (a : InitArgs) : CommandM Bool := do
  allocMember a .mCmdName
  allocMember a .mErrString
  return false

/-- `RecvSynthDefCmd::Init`, which throws where the others return an error. -/
def initRecvSynthDef (a : InitArgs) : CommandM Bool := do
  if a.defSize = 0 then throw .wrongArgType
  allocMember a .mBuffer
  getCompletionMsg a
  return false

/-- `SendReplyCmd::Init` -/
def initSendReply (a : InitArgs) : CommandM Bool := do
  setCmd fun cmd => { cmd with mMsgSize := a.msgSize }
  allocMsgData a
  return false

/-- The constructor of `AsyncPlugInCmd`. -/
def initAsyncPlugIn (a : InitArgs) : CommandM Bool := do
  if a.msgSize ≠ 0 ∧ a.msgData then
    setCmd fun cmd => { cmd with mMsgSize := a.msgSize }
    allocMsgData a
  return false

/-- Whether `Init` returns an error. -/
def init (a : InitArgs) : CommandClass → CommandM Bool
  | .sync => return false
  | .bufAlloc => initCompletion a
  | .bufGen => initBufGen a
  | .bufFree => initCompletion a
  | .bufZero => initCompletion a
  | .bufAllocRead => initFilename a
  | .bufRead => initFilename a
  | .bufAllocReadChannel => initFilename a
  | .bufReadChannel => initFilename a
  | .bufWrite => initBufWrite a
  | .bufClose => initCompletion a
  | .audioQuit => return false
  | .audioStatus => return false
  | .notify => return false
  | .sendFailure => initSendFailure a
  | .recvSynthDef => initRecvSynthDef a
  | .loadSynthDef => initFilename a
  | .loadSynthDefDir => initFilename a
  | .sendReply => initSendReply a
  | .asyncPlugIn => initAsyncPlugIn a

/-! ## Delete -/

/-- The destructor of the class, and then that of `SC_SequencedCommand`. -/
def callDestructor : CommandM Unit := do
  let cmd := (← get).cmd
  worldFree cmd.members
  if cmd.cls = .asyncPlugIn then worldFree cmd.mMsgData.toList
  worldFree cmd.mMsgData.toList

def delete : CommandM Unit := do
  uses [.space]
  callDestructor
  worldFree [.space]
  put .nowhere

/-! ## The stages -/

/-- `PerformOSCPacket` of the completion message: whether it was scheduled. -/
def performOSCPacket (mRealTime : Bool) (a : StageAnswers) (cmd : SequencedCommand) :
    CommandM Bool := do
  if !cmd.timed then
    if a.raises then throw .byCompletionMsg
    return false
  else
    if !mRealTime then throw .noDriver
    -- nobody looks whether there was room
    if a.room then modify fun s => { s with scheduled := cmd.mMsgData }
    return true

/-- `PerformCompletionMsg` -/
def performCompletionMsg (mRealTime : Bool) (a : StageAnswers) : CommandM Bool := do
  if !a.packet then throw .noMemory
  let cmd := (← get).cmd
  uses cmd.mMsgData.toList
  performOSCPacket mRealTime a cmd

/-- `SEND_COMPLETION_MSG` -/
def sendCompletionMsg (mRealTime : Bool) (a : StageAnswers) : CommandM Unit := do
  if (← get).cmd.mMsgSize ≠ 0 then
    if ← performCompletionMsg mRealTime a then
      setCmd fun cmd => { cmd with mMsgSize := 0, mMsgData := none }

def stage2 (a : StageAnswers) : CommandM Bool := do
  let cmd := (← get).cmd
  match cmd.cls with
  | .sync | .bufAlloc | .bufFree | .bufZero | .bufClose | .audioQuit => return true
  | .bufGen | .recvSynthDef | .loadSynthDef | .loadSynthDefDir =>
    uses cmd.members
    return true
  | .bufAllocRead | .bufAllocReadChannel | .bufWrite =>
    uses cmd.members
    return a.result
  | .bufRead | .bufReadChannel =>
    if a.opens then
      uses cmd.members
      return a.result
    else
      return true
  | .audioStatus | .notify => return false
  | .sendFailure =>
    uses cmd.members
    return false
  | .sendReply =>
    uses cmd.mMsgData.toList
    return false
  | .asyncPlugIn => return a.result

def stage3 (mRealTime : Bool) (a : StageAnswers) : CommandM Bool := do
  match (← get).cmd.cls with
  | .sync | .bufGen | .audioQuit => return true
  | .bufAlloc | .bufFree | .bufZero | .bufAllocRead | .bufRead | .bufAllocReadChannel
  | .bufReadChannel | .bufWrite | .bufClose | .recvSynthDef | .loadSynthDef | .loadSynthDefDir =>
    sendCompletionMsg mRealTime a
    return true
  | .asyncPlugIn =>
    if a.result then sendCompletionMsg mRealTime a
    return a.result
  | .audioStatus | .notify | .sendFailure | .sendReply => return false

/-- A stage by its number; the first and the last do nothing to the memory. -/
def callStage (mRealTime : Bool) (a : StageAnswers) (n : ℕ) : CommandM Bool := do
  uses [.space]
  match n with
  | 1 => return true
  | 2 => stage2 a
  | 3 => stage3 mRealTime a
  | _ => return false

def incNextStage : CommandM Unit := setCmd fun cmd => { cmd with mNextStage := cmd.mNextStage + 1 }

/-- `SendMsgFromEngine` and `SendMsgToEngine`, whose answer nobody looks at. -/
def sendMsg (a : StageAnswers) (msg : CommandPlace) : CommandM Unit :=
  put (if a.accepts then msg else .nowhere)

def callNextStage (a : StageAnswers) : CommandM Unit := do
  let n := (← get).cmd.mNextStage
  let sendAgain ← callStage true a n
  incNextStage
  if sendAgain then
    sendMsg a .doSequencedCommand
  else if n % 2 = 1 then
    delete
  else
    sendMsg a .freeSequencedCommand

/-- `CallEveryStage`, which begins with the first stage. -/
def callEveryStage (a : ℕ → StageAnswers) : CommandM Unit := do
  if ← callStage false (a 1) 1 then
    incNextStage
    if ← callStage false (a 2) 2 then
      incNextStage
      if ← callStage false (a 3) 3 then
        incNextStage
        discard (callStage false (a 4) 4)
  delete

/-- `CallSequencedCommand`; `PerformAsynchronousCommand` and `CallSendFailureCommand` are like
it, and have no errors. -/
def callSequencedCommand (mRealTime : Bool) (a : InitArgs) (stages : ℕ → StageAnswers) :
    CommandM Unit := do
  worldAlloc a .space
  put .inHand
  if ← init a (← get).cmd.cls then
    callDestructor
    worldFree [.space]
    put .nowhere
  else if mRealTime then
    callNextStage (stages 1)
  else
    callEveryStage stages

end CommandM

namespace CommandRun

open CommandM

/-- An exception leaves the pointers of the caller behind. -/
def issue (cls : CommandClass) (mRealTime : Bool) (a : InitArgs) (stages : ℕ → StageAnswers) :
    CommandRun :=
  let start : CommandRun := ⟨⟨cls, 1, [], 0, none, a.time⟩, .nowhere, none, []⟩
  match (callSequencedCommand mRealTime a stages).run start with
  | (.ok _, s) => s
  | (.error _, s) => { s with place := .nowhere }

end CommandRun

/-- What happens to a command after it was made. -/
inductive CommandStep
  /-- A thread performs the message of the command. -/
  | perform (a : StageAnswers)
  /-- The scheduler performs the completion message, which may throw. -/
  | performEvent (raises : Bool)
  | clearSched

namespace CommandRun

open CommandM

/-- An exception leaves the message in the fifo, where it will be performed again. -/
def perform (s : CommandRun) (a : StageAnswers) : CommandRun :=
  match s.place with
  | .doSequencedCommand => ((callNextStage a).run s).2
  | .freeSequencedCommand => (delete.run s).2
  | .nowhere | .inHand => s

/-- `SC_ScheduledEvent::Perform`, with `FreeInRT`. -/
def performEvent (s : CommandRun) (raises : Bool) : CommandRun :=
  let data := s.scheduled.toList
  let frees := if raises then [] else data.map .free
  { s with scheduled := none, trace := s.trace ++ data.map .use ++ frees }

def step (s : CommandRun) : CommandStep → CommandRun
  | .perform a => s.perform a
  | .performEvent raises => s.performEvent raises
  | .clearSched => { s with scheduled := none }

/-- Nothing refers to the command or its message any more. -/
def Finished (s : CommandRun) : Prop := s.place = .nowhere ∧ s.scheduled = none

instance (s : CommandRun) : Decidable s.Finished := inferInstanceAs (Decidable (_ ∧ _))

end CommandRun

end PoopWorms.Server
