import PoopWorms.Server.ControlArgs

/-!
# The commands that loop over their arguments

How each command reads its arguments. What a command does with the world between two reads is a
parameter, and so is whether it then goes on; a command is the reads that it makes.
-/

namespace PoopWorms.Server

open Octets Osc

/-! ## Reads -/

/-- What a command has read. -/
inductive ReadValue
  | int (n : Word)
  | float (bits : Word)
  | string (s : List Byte)

/-- The reads of one turn of a loop, as a tree that branches on what is read. -/
inductive Reads (σ : Type)
  /-- `return` -/
  | leave
  /-- The loop is over. -/
  | ended
  /-- The turn is over. -/
  | again (s : σ)
  | geti (defaultValue : Word) (k : Word → Reads σ)
  | getf (k : Word → Reads σ)
  /-- `gets` or `gets4`, with a test for a null pointer -/
  | gets (k : Option (List Byte) → Reads σ)
  /-- `if (msg.nextTag(…) == 's')`, and then `gets` or `gets4` without such a test -/
  | ifString (yes : List Byte → Reads σ) (no : Reads σ)
  | remain (k : ℤ → Reads σ)

/-- How a turn ends. -/
inductive TurnEnd (σ : Type)
  | left
  | ended
  | again (s : σ)

variable (fpu : FloatUnit)

/-- There is no result when a read leaves the payload or a null pointer is followed. -/
def Reads.exec {σ : Type} : Reads σ → MsgIter → Option (MsgIter × TurnEnd σ)
  | leave, it => some (it, .left)
  | ended, it => some (it, .ended)
  | again s, it => some (it, .again s)
  | geti defaultValue k, it => do
    let (n, it) ← it.geti fpu defaultValue
    (k n).exec it
  | getf k, it => do
    let (bits, it) ← it.getf fpu 0#32
    (k bits).exec it
  | gets k, it => do
    let (s, it) ← it.gets none
    (k s).exec it
  | ifString yes no, it => do
    if (← it.nextTagOr (chr 'i')) = chr 's' then
      let (s, it) ← it.gets none
      let s ← s
      (yes s).exec it
    else no.exec it
  | remain k, it => (k it.remain).exec it

/-- A loop with the reads in front of it. -/
structure ArgProgram (σ : Type) where
  start : Reads σ
  turn : σ → Reads σ

/-- The loop, from the end of a turn; the result is whether the command goes on behind it. There
is none when the turns do not suffice. -/
def ArgProgram.loop {σ : Type} (p : ArgProgram σ) :
    ℕ → MsgIter → TurnEnd σ → Option (MsgIter × Bool)
  | _, it, .left => some (it, false)
  | _, it, .ended => some (it, true)
  | 0, _, .again _ => none
  | turns + 1, it, .again s => do
    let (it, r) ← (p.turn s).exec fpu it
    p.loop turns it r

/-- The loops of a command, each from the beginning of the payload. -/
def performPrograms {σ : Type} (turns : ℕ) (payload : List Byte) :
    List (ArgProgram σ) → Option Unit
  | [] => some ()
  | p :: ps => do
    let it ← MsgIter.init payload.length payload
    let (it, r) ← p.start.exec fpu it
    let (_, more) ← p.loop fpu turns it r
    if more then performPrograms turns payload ps else some ()

/-! ## The parts of the commands -/

/-- What a command does with the world: with each value that it reads, unless it returns; whether
the node of `/n_order` has been found; and how many values the inner loop is to read. -/
structure Effects (W : Type) where
  act : W → ReadValue → Option W
  found : W → Bool
  times : W → ℤ

/-- Where a command is between two turns. -/
inductive LoopState (W : Type)
  | outer (w : W)
  | searching (w : W)
  | values (w : W) (left : ℤ)

section Parts

variable {W σ : Type} (e : Effects W) (w : W)

def readInt (k : W → Reads σ) : Reads σ :=
  .geti 0#32 fun n => (e.act w (.int n)).elim .leave k

def readFloat (k : W → Reads σ) : Reads σ :=
  .getf fun bits => (e.act w (.float bits)).elim .leave k

/-- `gets4`, and `return` when the pointer is null. -/
def readString (k : W → Reads σ) : Reads σ :=
  .gets fun s => s.elim .leave fun s => (e.act w (.string s)).elim .leave k

/-- `Msg_GetNode`. -/
def readNode (k : W → Reads σ) : Reads σ :=
  .ifString (fun loc => .geti 0#32 fun n =>
      ((e.act w (.string loc)).bind fun w => e.act w (.int n)).elim .leave k)
    (readInt e w k)

/-- A parameter name or an index. -/
def readKey (k : W → Reads σ) : Reads σ :=
  .ifString (fun name => (e.act w (.string name)).elim .leave k) (readInt e w k)

/-- A mapping string or a value. -/
def readSetting (k : W → Reads σ) : Reads σ :=
  .ifString (fun string => (e.act w (.string string)).elim .leave k) (readFloat e w k)

/-- `while (msg.remain())`. -/
def whileRemaining (body : Reads σ) : Reads σ :=
  .remain fun r => if r = 0 then .ended else body

/-- `while (msg.remain() >= least)`. -/
def whileAtLeast (least : ℤ) (body : Reads σ) : Reads σ :=
  .remain fun r => if least ≤ r then body else .ended

end Parts

/-! ## The commands -/

/-- The commands whose loops end with their arguments. -/
inductive LoopCommand
  | nTrace | gDumpTree | gQueryTree | nRun | nMap | nMapn | nMapa | nMapan | nSetn | nFill
  | nQuery | bQuery | dFree | sNewargs | gNew | pNew | nFree | nBefore | nAfter | nOrder
  | gHead | gTail | gInsert | gFreeAll | gDeepFree | bSet | bSetn | bFill | cSet | cSetn
  | cGet | cGetn | cFill | bGet | bGetn | sGet | sGetn | sNoid
deriving DecidableEq

def LoopState.world {W : Type} : LoopState W → W
  | outer w | searching w | values w _ => w

section Commands

variable {W : Type} (e : Effects W)

/-- On to the next turn of the outer loop. -/
def nextTurn (w : W) : Reads (LoopState W) := .again (.outer w)

/-- A single loop. -/
def singleLoop (start : Reads (LoopState W)) (body : W → Reads (LoopState W)) :
    ArgProgram (LoopState W) where
  start := start
  turn := fun s => body s.world

/-- `while (msg.remain()) { key, n }`, where `n` values follow. -/
def setnTurn (w : W) : Reads (LoopState W) :=
  whileRemaining (readKey e w fun w => readInt e w fun w => .again (.values w (e.times w)))

/-- `for (int i=0; msg.remain() && i<n; ++i)`, and then the outer loop. -/
def setnValues (w : W) (left : ℤ) : Reads (LoopState W) :=
  .remain fun r =>
    if r ≠ 0 ∧ 0 < left then readSetting e w fun w => .again (.values w (left - 1))
    else setnTurn e w

def setnTurns : LoopState W → Reads (LoopState W)
  | .outer w | .searching w => setnTurn e w
  | .values w left => setnValues e w left

/-- `while (msg.remain()) { start, n }`, where the values of the range follow. -/
def rangeTurn (w : W) : Reads (LoopState W) :=
  whileRemaining (readInt e w fun w => readInt e w fun w => .again (.values w (e.times w)))

/-- `for (int i=start; msg.remain() && i<=end; ++i)`, and then the outer loop. -/
def rangeValues (w : W) (left : ℤ) : Reads (LoopState W) :=
  .remain fun r =>
    if r ≠ 0 ∧ 0 < left then readFloat e w fun w => .again (.values w (left - 1))
    else rangeTurn e w

def rangeTurns : LoopState W → Reads (LoopState W)
  | .outer w | .searching w => rangeTurn e w
  | .values w left => rangeValues e w left

/-- The two loops of `/n_order`: until a node is found, and over the others. -/
def orderTurns : LoopState W → Reads (LoopState W)
  | .searching w => .remain fun r =>
    if r = 0 then .leave
    else readNode e w fun w => if e.found w then nextTurn w else .again (.searching w)
  | .outer w | .values w _ => whileRemaining (readNode e w nextTurn)

/-- The loops of each command. -/
def LoopCommand.programs (w : W) : LoopCommand → List (ArgProgram (LoopState W))
  | nTrace | nQuery | nFree | gFreeAll | gDeepFree | sNoid =>
    [singleLoop (nextTurn w) fun w => whileRemaining (readNode e w nextTurn)]
  | gDumpTree | gQueryTree | nRun =>
    [singleLoop (nextTurn w) fun w => whileRemaining (readNode e w fun w => readInt e w nextTurn)]
  | nBefore | nAfter | gHead | gTail =>
    [singleLoop (nextTurn w) fun w => whileRemaining (readNode e w fun w => readNode e w nextTurn)]
  | gInsert =>
    [singleLoop (nextTurn w) fun w =>
      whileRemaining (readNode e w fun w => readNode e w fun w => readInt e w nextTurn)]
  | gNew | pNew =>
    [singleLoop (nextTurn w) fun w =>
      whileRemaining (readInt e w fun w => readInt e w fun w => readNode e w nextTurn)]
  | nOrder => [⟨readInt e w fun w => readNode e w fun w => .again (.searching w), orderTurns e⟩]
  | nMap | nMapa =>
    [singleLoop (readNode e w nextTurn) fun w =>
      whileAtLeast 8 (readKey e w fun w => readInt e w nextTurn)]
  | nMapn | nMapan =>
    [singleLoop (readNode e w nextTurn) fun w =>
      whileAtLeast 12 (readKey e w fun w => readInt e w fun w => readInt e w nextTurn)]
  | nFill =>
    [singleLoop (readNode e w nextTurn) fun w =>
      whileAtLeast 12 (readKey e w fun w => readInt e w fun w => readFloat e w fun w =>
        readSetting e w nextTurn)]
  | nSetn => [⟨readNode e w nextTurn, setnTurns e⟩]
  | sNewargs =>
    [⟨readString e w fun w => readInt e w fun w => readInt e w fun w => readNode e w nextTurn,
      setnTurns e⟩]
  | bQuery => [singleLoop (nextTurn w) fun w => whileRemaining (readInt e w nextTurn)]
  | dFree => [singleLoop (nextTurn w) fun w => whileRemaining (readString e w nextTurn)]
  | bSet =>
    [singleLoop (readInt e w nextTurn) fun w =>
      whileAtLeast 8 (readInt e w fun w => readFloat e w nextTurn)]
  | cSet =>
    [singleLoop (nextTurn w) fun w =>
      whileAtLeast 8 (readInt e w fun w => readFloat e w nextTurn)]
  | bFill =>
    [singleLoop (readInt e w nextTurn) fun w =>
      whileAtLeast 12 (readInt e w fun w => readInt e w fun w => readFloat e w nextTurn)]
  | cFill =>
    [singleLoop (nextTurn w) fun w =>
      whileAtLeast 12 (readInt e w fun w => readInt e w fun w => readFloat e w nextTurn)]
  | bSetn => [⟨readInt e w nextTurn, rangeTurns e⟩]
  | cSetn => [⟨nextTurn w, rangeTurns e⟩]
  | bGet => [singleLoop (readInt e w nextTurn) fun w => whileAtLeast 4 (readInt e w nextTurn)]
  | cGet => [singleLoop (nextTurn w) fun w => whileAtLeast 4 (readInt e w nextTurn)]
  | sGet => [singleLoop (readNode e w nextTurn) fun w => whileAtLeast 4 (readKey e w nextTurn)]
  | bGetn =>
    [singleLoop (readInt e w nextTurn) fun w =>
        whileRemaining (readInt e w fun w => readInt e w nextTurn),
      singleLoop (readInt e w nextTurn) fun w =>
        whileRemaining (readInt e w fun w => readInt e w nextTurn)]
  | cGetn =>
    [singleLoop (nextTurn w) fun w => whileRemaining (readInt e w fun w => readInt e w nextTurn),
      singleLoop (nextTurn w) fun w => whileRemaining (readInt e w fun w => readInt e w nextTurn)]
  | sGetn =>
    [singleLoop (readNode e w nextTurn) fun w =>
        whileRemaining (readInt e w fun w => readInt e w nextTurn),
      singleLoop (readInt e w nextTurn) fun w =>
        whileRemaining (readKey e w fun w => readInt e w nextTurn)]

/-- What `/n_set` reads in front of its argument loop. -/
def nSetStart (w : W) : Reads W := readNode e w .again

/-- What `/s_new` reads in front of its argument loop. -/
def sNewStart (w : W) : Reads W :=
  readString e w fun w => readInt e w fun w => readInt e w fun w => readNode e w .again

end Commands

/-- The argument loop of `/s_new` or `/n_set`, behind the other arguments. -/
def performControlArgs {W : Type} (turn : ControlKey → ValueLoop → Option ValueLoop) (turns : ℕ)
    (g : Controls) (payload : List Byte) (start : Reads W) : Option Unit := do
  let it ← MsgIter.init payload.length payload
  let (it, r) ← start.exec fpu it
  match r with
  | .again _ =>
    let _ ← argLoop fpu turn turns it g
    return ()
  | _ => return ()

/-! ## The channels of `/b_allocReadChannel` and `/b_readChannel` -/

namespace MsgIter

/-- `getbsize`: the `size_t` of the length in front of a blob. -/
def getbsize (it : MsgIter) : Option ℕ := do
  if it.remain ≤ 0 then return 0
  else if it.tags.isSome ∧ (← it.nextTagOr 0#8) ≠ chr 'b' then return 0
  else return ((← oscInt it.rest).signExtend 64).toNat

/-- `getb`, which copies `size` bytes of a blob. -/
def getb (it : MsgIter) (size : ℕ) : Option MsgIter := do
  let len := (← oscInt it.rest).signExtend 64
  if size < len.toNat then return it
  else if it.rest.length < 4 + size then none
  else return ((it.skip 4).skip ((len + 3#64) &&& (-4#64)).toNat).next

/-- `getd`; only the dumper uses the value. -/
def getd (it : MsgIter) : Option MsgIter :=
  if it.remain ≤ 0 then some it
  else if it.tags.isSome then do
    let tag ← it.nextTag
    if tag = chr 'f' ∨ tag = chr 'i' then
      let _ ← oscInt it.rest
      return (it.skip 4).next
    else if tag = chr 'd' then
      let _ ← oscDouble it.rest
      return (it.skip 8).next
    else if tag = chr 's' then
      let n ← oscStrskip it.rest
      return (it.skip n).next
    else if tag = chr 'b' then
      let it ← it.skipb
      return it.next
    else return it.next
  else do
    let _ ← oscDouble it.rest
    return (it.skip 8).next

end MsgIter

/-- `InitChannels`: `while (msg.nextTag(0) == 'i')`. -/
def initChannels : ℕ → MsgIter → Option MsgIter
  | 0, _ => none
  | turns + 1, it => do
    if (← it.nextTagOr 0#8) = chr 'i' then
      let (_, it) ← it.geti fpu 0#32
      initChannels turns it
    else return it

/-- `GET_COMPLETION_MSG`. -/
def getCompletionMsg (it : MsgIter) : Option MsgIter := do
  let size ← it.getbsize
  if size = 0 then return it else it.getb size

/-- What `BufAllocReadChannelCmd::Init` reads in front of the channels. -/
def bufAllocReadChannelStart : Reads Unit :=
  .geti 0#32 fun _ => .gets fun filename => filename.elim .leave fun _ =>
    .geti 0#32 fun _ => .geti 0#32 fun _ => .again ()

/-- What `BufReadChannelCmd::Init` reads in front of the channels. -/
def bufReadChannelStart : Reads Unit :=
  .geti 0#32 fun _ => .gets fun filename => filename.elim .leave fun _ =>
    .geti 0#32 fun _ => .geti (-1#32) fun _ => .geti 0#32 fun _ => .geti 0#32 fun _ => .again ()

/-- `Init` of either command. -/
def performReadChannels (turns : ℕ) (payload : List Byte) (start : Reads Unit) : Option Unit := do
  let it ← MsgIter.init payload.length payload
  let (it, r) ← start.exec fpu it
  match r with
  | .again _ =>
    let it ← initChannels fpu turns it
    let _ ← getCompletionMsg it
    return ()
  | _ => return ()

/-! ## The dumper -/

/-- One turn of the loop of `dumpOSCmsg`; there is no iterator behind `goto leave`. -/
def dumpTurn (it : MsgIter) : Option (Option MsgIter) := do
  let tag ← it.nextTagOr (chr 'i')
  if tag = chr 'i' then
    let (_, it) ← it.geti fpu 0#32
    return some it
  else if tag = chr 'f' then
    let (_, it) ← it.getf fpu 0#32
    return some it
  else if tag = chr 'd' then
    let it ← it.getd
    return some it
  else if tag = chr 's' then
    let (s, it) ← it.gets none
    let _ ← s
    return some it
  else if tag = chr 'b' then
    let _ ← it.getbsize
    let it ← it.skipb
    return some it
  else if tag = chr '[' ∨ tag = chr ']' then return some it.next
  else return none

def dumpLoop : ℕ → MsgIter → Option Unit
  | 0, _ => none
  | turns + 1, it =>
    if it.remain = 0 then some ()
    else do
      match ← dumpTurn fpu it with
      | some it => dumpLoop turns it
      | none => return ()

/-- `dumpOSCmsg`. -/
def dumpOSCmsg (turns : ℕ) (inData : List Byte) : Option Unit := do
  let first ← inData.head?
  if first ≠ 0#8 then
    let n ← oscStrskip inData
    let it ← MsgIter.init (inData.length - n) (inData.drop n)
    dumpLoop fpu turns it
  else
    let _ ← oscInt inData
    let it ← MsgIter.init (inData.length - 4) (inData.drop 4)
    dumpLoop fpu turns it

/-! ## All of them -/

/-- The commands that loop over their arguments, and the dumper. -/
inductive ArgCommand
  | loops (c : LoopCommand)
  | nSet | sNew | bAllocReadChannel | bReadChannel | dumpOSC
deriving DecidableEq

/-- A command on its payload; the dumper gets the whole packet. -/
def ArgCommand.perform {W : Type} (e : Effects W) (w : W) (world : ControlWorld) (g : Controls)
    (turns : ℕ) (payload : List Byte) : ArgCommand → Option Unit
  | loops c => performPrograms fpu turns payload (c.programs e w)
  | nSet => performControlArgs fpu (nSetTurn fpu world) turns g payload (nSetStart e w)
  | sNew => performControlArgs fpu (ctorTurn fpu world) turns g payload (sNewStart e w)
  | bAllocReadChannel => performReadChannels fpu turns payload bufAllocReadChannelStart
  | bReadChannel => performReadChannels fpu turns payload bufReadChannelStart
  | dumpOSC => dumpOSCmsg fpu turns payload

end PoopWorms.Server
