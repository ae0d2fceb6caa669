import PoopWorms.Lib.Loops
import PoopWorms.Osc.ParsePacket
import PoopWorms.Server.MsgIter

/-!
# The message iterator on a live packet

`sc_msg_iter` with the memory that it walks over, and `dumpOSC`. `OSCfloat` turns the four bytes
of a float round in place, so that a read may change the packet. A pointer is an offset in the
memory, of either sign; a read outside the memory makes the operation fail.
-/

namespace PoopWorms.Server.Live

open Octets Osc Loops

/-- The conversions of the floating point unit, those to `double` as well. -/
structure DoubleUnit extends FloatUnit where
  doubleOfFloat : Word → BitVec 64
  doubleOfInt32 : Word → BitVec 64

/-! ## Memory -/

/-- `OSCstrskip`: the pointer behind the string. -/
def strskipAt (mem : List Byte) (a : ℤ) : Option ℤ :=
  if 0 ≤ a then (oscStrskip (mem.drop a.toNat)).map fun n => a + n else none

/-- `OSCint`. -/
def intAt (mem : List Byte) (a : ℤ) : Option Word :=
  if 0 ≤ a then oscInt (mem.drop a.toNat) else none

/-- `OSCfloat`: the word is swapped in the memory, and read there. -/
def floatAt (mem : List Byte) (a : ℤ) : Option (Word × List Byte) := do
  let u ← intAt mem a
  let mem ← poke mem a.toNat (leBytes u)
  return (u, mem)

/-- `OSCdouble`, and `OSCtime`. -/
def doubleAt (mem : List Byte) (a : ℤ) : Option (BitVec 64) := do
  let hi ← intAt mem a
  let lo ← intAt mem (a + 4)
  return hi ++ lo

/-- `len4` of `skipb`. -/
def len4 (len : Word) : ℤ := ((len.signExtend 64 + 3#64) &&& (-4#64)).toInt

/-! ## `sc_msg_iter` -/

structure LiveIter where
  mem : List Byte
  rdpos : ℤ
  endpos : ℤ
  tags : Option ℤ
  count : ℕ
deriving DecidableEq

namespace LiveIter

def init (mem : List Byte) (inSize inData : ℤ) : Option LiveIter := do
  let first ← byteAt mem inData
  if first = chr ',' then
    let rdpos ← strskipAt mem inData
    return { mem, rdpos, endpos := inData + inSize, tags := some (inData + 1), count := 0 }
  else
    return { mem, rdpos := inData, endpos := inData + inSize, tags := none, count := 0 }

/-- `remain`, an `int`. -/
def remain (it : LiveIter) : ℤ := int (it.endpos - it.rdpos)

/-- `nextTag`. -/
def nextTag (it : LiveIter) (defaultTag : Byte) : Option Byte :=
  match it.tags with
  | some tags => byteAt it.mem (tags + it.count)
  | none => some defaultTag

def next (it : LiveIter) : LiveIter := { it with count := it.count + 1 }

/-- `OSCint` at the read position, and behind it. -/
def readInt (it : LiveIter) : Option (Word × LiveIter) := do
  let value ← intAt it.mem it.rdpos
  return (value, { it with rdpos := it.rdpos + 4 })

/-- `OSCfloat` at the read position, and behind it. -/
def readFloat (it : LiveIter) : Option (Word × LiveIter) := do
  let (value, mem) ← floatAt it.mem it.rdpos
  return (value, { it with mem, rdpos := it.rdpos + 4 })

/-- `OSCdouble` at the read position, and behind it. -/
def readDouble (it : LiveIter) : Option (BitVec 64 × LiveIter) := do
  let value ← doubleAt it.mem it.rdpos
  return (value, { it with rdpos := it.rdpos + 8 })

/-- Behind the string at the read position. -/
def skipString (it : LiveIter) : Option LiveIter := do
  let rdpos ← strskipAt it.mem it.rdpos
  return { it with rdpos }

def skipb (it : LiveIter) : Option LiveIter := do
  let len ← intAt it.mem it.rdpos
  return next { it with rdpos := it.rdpos + 4 + len4 len }

def getbsize (it : LiveIter) : Option (BitVec 64) :=
  if it.remain ≤ 0 then some 0#64
  else do
    let tag ← it.nextTag (chr 'b')
    if tag ≠ chr 'b' then return 0#64
    else
      let len ← intAt it.mem it.rdpos
      return len.signExtend 64

section Numbers

variable {α : Type} (ofInt ofFloat : Word → α)

/-- The tag `'d'`; `geti` has no such branch. -/
def getDouble (it : LiveIter) (defaultValue : α) :
    Option (BitVec 64 → α) → Option (α × LiveIter)
  | some ofDouble => do
    let (value, it) ← it.readDouble
    return (ofDouble value, it.next)
  | none => some (defaultValue, it.next)

/-- The branches of `geti`, `getf` and `getd`. -/
def getNumber (ofDouble : Option (BitVec 64 → α)) (untagged : LiveIter → Option (α × LiveIter))
    (it : LiveIter) (defaultValue : α) : Option (α × LiveIter) :=
  if it.remain ≤ 0 then some (defaultValue, it)
  else if it.tags.isSome then do
    let tag ← it.nextTag (chr 'f')
    if tag = chr 'i' then
      let (value, it) ← it.readInt
      return (ofInt value, it.next)
    else if tag = chr 'f' then
      let (value, it) ← it.readFloat
      return (ofFloat value, it.next)
    else if tag = chr 's' then
      let it ← it.skipString
      return (defaultValue, it.next)
    else if tag = chr 'b' then
      -- `skipb` has counted the argument already
      let it ← it.skipb
      return (defaultValue, it.next)
    else if tag = chr 'd' then
      it.getDouble defaultValue ofDouble
    else
      return (defaultValue, it.next)
  else do
    let (value, it) ← untagged it
    return (value, it.next)

end Numbers

def geti (fpu : DoubleUnit) : LiveIter → Word → Option (Word × LiveIter) :=
  getNumber id fpu.int32OfFloat none readInt

def getf (fpu : DoubleUnit) : LiveIter → Word → Option (Word × LiveIter) :=
  getNumber fpu.floatOfInt32 id (some fpu.floatOfDouble) readFloat

def getd (fpu : DoubleUnit) : LiveIter → BitVec 64 → Option (BitVec 64 × LiveIter) :=
  getNumber fpu.doubleOfInt32 fpu.doubleOfFloat (some id) readDouble

/-- `gets`; the pointers may be null. -/
def gets (it : LiveIter) (defaultValue : Option ℤ) : Option (Option ℤ × LiveIter) :=
  if it.remain ≤ 0 then some (none, it)
  else do
    let tag ← it.nextTag (chr 's')
    if tag = chr 's' then
      let behind ← it.skipString
      return (some it.rdpos, behind.next)
    else
      return (defaultValue, it.next)

/-- `gets4` is `gets` with another pointer type. -/
def gets4 (it : LiveIter) (defaultValue : Option ℤ) : Option (Option ℤ × LiveIter) :=
  it.gets defaultValue

end LiveIter

/-! ## `dumpOSC` -/

section Dump

variable (fpu : DoubleUnit)

/-- One turn of the loop of `dumpOSCmsg`. -/
def dumpTurn (it : LiveIter) : Option (Turn LiveIter LiveIter) :=
  if it.remain = 0 then some (.stop it)
  else do
    let c ← it.nextTag (chr 'i')
    if c = chr 'i' then
      let (_, it) ← it.geti fpu 0#32
      return .again it
    else if c = chr 'f' then
      let (_, it) ← it.getf fpu 0#32
      return .again it
    else if c = chr 'd' then
      let (_, it) ← it.getd fpu 0#64
      return .again it
    else if c = chr 's' then
      let (_, it) ← it.gets none
      return .again it
    else if c = chr 'b' then
      let _ ← it.getbsize
      let it ← it.skipb
      return .again it
    else if c = chr '[' ∨ c = chr ']' then
      return .again it.next
    else
      return .stop it

/-- The pointer behind the address, or behind the number that stands for it. -/
def behindAddress (mem : List Byte) (inData : ℤ) : Option ℤ := do
  let first ← byteAt mem inData
  if first ≠ 0#8 then strskipAt mem inData
  else
    let _ ← intAt mem inData
    return inData + 4

/-- The iterator of `dumpOSCmsg`. -/
def openMsg (mem : List Byte) (inSize inData : ℤ) : Option LiveIter := do
  let data ← behindAddress mem inData
  LiveIter.init mem (int (inSize - (data - inData))) data

/-- `dumpOSCmsg`; what it leaves of the memory. -/
def dumpOSCmsg (turns : ℕ) (mem : List Byte) (inSize inData : ℤ) : Option (List Byte) := do
  let it ← openMsg mem inSize inData
  let it ← loop (dumpTurn fpu) turns it
  return it.mem

/-- `strcmp(inData, "#bundle") == 0`, from a place of the literal on. -/
def strcmpAt (mem : List Byte) : List Byte → ℤ → Option Bool
  | [], _ => some true
  | c :: cs, a => do
    let b ← byteAt mem a
    if b = c then strcmpAt mem cs (a + 1) else return false

/-- `"#bundle"`, with its NUL. -/
def bundleTag : List Byte := "#bundle".toList.map chr ++ [0#8]

/-- One turn of the loop over the elements of a bundle. -/
def bundleTurn (turns : ℕ) (dataEnd : ℤ) (s : List Byte × ℤ) :
    Option (Turn (List Byte × ℤ) (List Byte)) :=
  if s.2 < dataEnd then do
    let msgSize ← intAt s.1 s.2
    let mem ← dumpOSCmsg fpu turns s.1 msgSize.toInt (s.2 + 4)
    return .again (mem, s.2 + 4 + msgSize.toInt)
  else some (.stop s.1)

/-- `dumpOSC` with the first bit of the mode. -/
def dumpPacket (turns : ℕ) (size : ℤ) (inData : List Byte) : Option (List Byte) := do
  let isBundle ← strcmpAt inData bundleTag 0
  if isBundle then
    let _ ← doubleAt inData 8
    loop (bundleTurn fpu turns size) turns (inData, 16)
  else dumpOSCmsg fpu turns inData size 0

/-- `hexdump`: it looks at each byte. -/
def hexdump (size : ℤ) (data : List Byte) : Option Unit :=
  (List.range size.toNat).forM fun i => (byteAt data i).map fun _ => ()

/-- `if (mode & 1)` -/
def dumpArgs (turns : ℕ) (mode : Word) (size : ℤ) (inData : List Byte) : Option (List Byte) :=
  if mode &&& 1#32 ≠ 0#32 then dumpPacket fpu turns size inData else some inData

/-- `if (mode & 2)` -/
def dumpHex (mode : Word) (size : ℤ) (inData : List Byte) : Option Unit :=
  if mode &&& 2#32 ≠ 0#32 then hexdump size inData else some ()

def dumpOSC (turns : ℕ) (mode : Word) (size : ℤ) (inData : List Byte) : Option (List Byte) := do
  let inData ← dumpArgs fpu turns mode size inData
  let _ ← dumpHex mode size inData
  return inData

/-- `Run`: the bytes that `ProcessOSCPacket` is given, when the bytes `data` have been received. -/
def received (turns : ℕ) (mDumpOSC : Word) (data : List Byte) : Option (List Byte) :=
  if mDumpOSC ≠ 0#32 then dumpOSC fpu turns mDumpOSC data.length data else some data

end Dump

end PoopWorms.Server.Live
