import PoopWorms.Osc.Message

/-!
# The server's message iterator

`sc_msg_iter`, which walks over the type tags and the data of a message behind its
address. Pointers are offsets into the memory that `data` points to; a read outside that
memory makes the operation fail.
-/

namespace PoopWorms.Server

open Octets Osc

/-- The conversions of the floating point unit that the iterator relies on, on bit
patterns. -/
structure FloatUnit where
  int32OfFloat : Word → Word
  floatOfInt32 : Word → Word
  floatOfDouble : BitVec 64 → Word

/-- Number of bytes that `OSCstrskip` moves the pointer: whole words, up to and including
the first one whose last byte is zero. -/
def oscStrskip : List Byte → Option ℕ
  | _ :: _ :: _ :: d :: str => if d ≠ 0#8 then (oscStrskip str).map (4 + ·) else some 4
  | _ => none

def oscStrlen (strin : List Byte) : Option ℕ := oscStrskip strin

/-- `OSCint` and `OSCfloat`: the bits of the big-endian word at the pointer. -/
def oscInt : List Byte → Option Word
  | a :: b :: c :: d :: _ => some (swap32 (leWord a b c d))
  | _ => none

def oscDouble (inData : List Byte) : Option (BitVec 64) := do
  let hi ← oscInt inData
  let lo ← oscInt (inData.drop 4)
  return hi ++ lo

/-- `sc_msg_iter`. -/
structure MsgIter where
  data : List Byte
  size : ℕ
  rdpos : ℕ
  tags : Option ℕ
  count : ℕ

namespace MsgIter

def init (inSize : ℕ) (inData : List Byte) : Option MsgIter := do
  let first ← inData.head?
  if first = chr ',' then
    let rdpos ← oscStrskip inData
    return { data := inData, size := inSize, rdpos, tags := some 1, count := 0 }
  else
    return { data := inData, size := inSize, rdpos := 0, tags := none, count := 0 }

/-- The memory at the read position. -/
def rest (it : MsgIter) : List Byte := it.data.drop it.rdpos

/-- `endpos - rdpos`. -/
def remain (it : MsgIter) : ℤ := (it.size : ℤ) - it.rdpos

/-- `nextTag`, the default being `'f'`. -/
def nextTag (it : MsgIter) : Option Byte :=
  match it.tags with
  | some tags => it.data[tags + it.count]?
  | none => some (chr 'f')

def skip (it : MsgIter) (n : ℕ) : MsgIter := { it with rdpos := it.rdpos + n }

def next (it : MsgIter) : MsgIter := { it with count := it.count + 1 }

/-- `skipb`; its callers count the blob a second time. A negative length moves the pointer back. -/
def skipb (it : MsgIter) : Option MsgIter := do
  let len := (← oscInt it.rest).signExtend 64
  let len4 := (len + 3#64) &&& (-4#64)
  let rdpos := (it.rdpos : ℤ) + 4 + len4.toInt
  if rdpos < 0 then none
  else return next { it with rdpos := rdpos.toNat }

def geti (fpu : FloatUnit) (it : MsgIter) (defaultValue : Word) : Option (Word × MsgIter) :=
  if it.remain ≤ 0 then some (defaultValue, it)
  else if it.tags.isSome then do
    let tag ← it.nextTag
    if tag = chr 'i' then
      let value ← oscInt it.rest
      return (value, (it.skip 4).next)
    else if tag = chr 'f' then
      let value ← oscInt it.rest
      return (fpu.int32OfFloat value, (it.skip 4).next)
    else if tag = chr 's' then
      let n ← oscStrskip it.rest
      return (defaultValue, (it.skip n).next)
    else if tag = chr 'b' then
      let it ← it.skipb
      return (defaultValue, it.next)
    else
      return (defaultValue, it.next)
  else do
    let value ← oscInt it.rest
    return (value, (it.skip 4).next)

def getf (fpu : FloatUnit) (it : MsgIter) (defaultValue : Word) : Option (Word × MsgIter) :=
  if it.remain ≤ 0 then some (defaultValue, it)
  else if it.tags.isSome then do
    let tag ← it.nextTag
    if tag = chr 'f' then
      let value ← oscInt it.rest
      return (value, (it.skip 4).next)
    else if tag = chr 'd' then
      let value ← oscDouble it.rest
      return (fpu.floatOfDouble value, (it.skip 8).next)
    else if tag = chr 'i' then
      let value ← oscInt it.rest
      return (fpu.floatOfInt32 value, (it.skip 4).next)
    else if tag = chr 's' then
      let n ← oscStrskip it.rest
      return (defaultValue, (it.skip n).next)
    else if tag = chr 'b' then
      let it ← it.skipb
      return (defaultValue, it.next)
    else
      return (defaultValue, it.next)
  else do
    let value ← oscInt it.rest
    return (value, (it.skip 4).next)

/-- The C string at the read position. -/
def cString (it : MsgIter) : List Byte := it.rest.takeWhile (· ≠ 0#8)

/-- `gets` returns a pointer, possibly null: the C string it points to, if any. -/
def gets (it : MsgIter) (defaultValue : Option (List Byte)) :
    Option (Option (List Byte) × MsgIter) :=
  if it.remain ≤ 0 then some (none, it)
  else if it.tags.isSome then do
    let tag ← it.nextTag
    if tag = chr 's' then
      let n ← oscStrskip it.rest
      return (some it.cString, (it.skip n).next)
    else
      return (defaultValue, it.next)
  else do
    let n ← oscStrskip it.rest
    return (some it.cString, (it.skip n).next)

/-- `gets4` is `gets` with another pointer type. -/
def gets4 (it : MsgIter) (defaultValue : Option (List Byte)) :
    Option (Option (List Byte) × MsgIter) := it.gets defaultValue

/-! ## Reading all the arguments -/

/-- What one typed read gives. -/
inductive Arg
  | int (n : Word)
  | float (bits : Word)
  | string (s : List Byte)
deriving DecidableEq

/-- The typed read that the next tag asks for. -/
def getArg (fpu : FloatUnit) (it : MsgIter) : Option (Arg × MsgIter) := do
  let tag ← it.nextTag
  if tag = chr 'i' then
    let (n, it) ← it.geti fpu 0#32
    return (.int n, it)
  else if tag = chr 'f' then
    let (x, it) ← it.getf fpu 0#32
    return (.float x, it)
  else if tag = chr 's' then
    let (s, it) ← it.gets none
    return (.string (← s), it)
  else none

/-- `n` typed reads, one after the other. -/
def getArgs (fpu : FloatUnit) : ℕ → MsgIter → Option (List Arg × MsgIter)
  | 0, it => some ([], it)
  | n + 1, it => do
    let (x, it) ← it.getArg fpu
    let (xs, it) ← getArgs fpu n it
    return (x :: xs, it)

/-- The tags from the next one up to the NUL behind them. -/
def tagsLeft (it : MsgIter) : List Byte :=
  match it.tags with
  | some tags => (it.data.drop (tags + it.count)).takeWhile (· ≠ 0#8)
  | none => []

/-- One typed read for each tag left. -/
def getAll (fpu : FloatUnit) (it : MsgIter) : Option (List Arg × MsgIter) :=
  it.getArgs fpu it.tagsLeft.length

end MsgIter

/-- `PerformOSCMessage` hands the bytes behind the command name to the command, which
makes an iterator of them. -/
def openMessage (inData : List Byte) : Option MsgIter := do
  let cmdNameLen ← oscStrlen inData
  MsgIter.init (inData.length - cmdNameLen) (inData.drop cmdNameLen)

end PoopWorms.Server
