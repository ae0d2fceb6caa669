import PoopWorms.Osc.Parse
import Mathlib.Data.Int.Basic

/-!
# Parsing OSC packets

`parseRawBuffer:ofMaxLength:toInPort:` of `OSCPacket`, `OSCBundle` and `OSCMessage`, on the memory
of a packet. An element of a bundle is parsed in place, with the length that the bundle gives for
it: a pointer is an offset in the memory of the packet, of either sign, and an `int` wraps. A read
outside the memory stops the parser, and fuel counts the elements.
-/

namespace PoopWorms.Osc

open Octets

/-- Why the parser does not return. -/
inductive Stop
  /-- It reads outside the memory. -/
  | outOfBounds
  /-- It is still running when the fuel is used up. -/
  | running
deriving DecidableEq

/-- A value of type `int`. -/
def int (x : ℤ) : ℤ := (BitVec.ofInt 32 x).toInt

/-- The macro `ROUNDUP4` on an `int`. -/
def intRoundUp4 (a : ℤ) : ℤ := int (if a.tmod 4 ≠ 0 then 4 - a.tmod 4 + a else a + 4)

/-- What is read, if it is inside the memory. -/
def inside {α : Type} : Option α → Except Stop α
  | some x => .ok x
  | none => .error .outOfBounds

def byteAt (mem : List Byte) (a : ℤ) : Option Byte :=
  if 0 ≤ a then mem[a.toNat]? else none

def fourAt (mem : List Byte) (a : ℤ) : Option (Byte × Byte × Byte × Byte) :=
  if 0 ≤ a then fourBytes mem a.toNat else none

/-- The string that `stringWithCString:` reads, up to a NUL. -/
def cStringAt (mem : List Byte) (a : ℤ) : Option (List Byte) :=
  if 0 ≤ a ∧ (mem.drop a.toNat).contains 0#8 then
    some ((mem.drop a.toNat).takeWhile (· ≠ 0#8))
  else none

def dataAt (mem : List Byte) (a : ℤ) (length : Word) : Option NSData :=
  if 0 ≤ a then dataWithBytes mem a.toNat length else none

section Message

variable (mem : List Byte) (p l : ℤ)

/-- The loop over the next `count` indices that looks for a NUL. -/
def scanNul : ℕ → ℤ → Except Stop (Option ℤ)
  | 0, _ => .ok none
  | count + 1, i => do
    let c ← inside (byteAt mem (p + i))
    if c = 0#8 then return (some i) else scanNul count (i + 1)

/-- `for (i=start; (i<l) && (tmpIndex == -1); ++i)` -/
def scanNulFrom (start : ℤ) : Except Stop (Option ℤ) := scanNul mem p (l - start).toNat start

/-- `tmpInt` behind the loop of a string: the index in front of the NUL. -/
def beforeNul (j : Option ℤ) : ℤ := (j.map fun j => j - 1).getD (-1)

/-- The data of one type tag. -/
def parseArgumentAt (tag : Byte) (tmpIndex : ℤ) : Except Stop (Option OSCValue × ℤ) :=
  if tag = chr 'i' then do
    let (x, y, z, w) ← inside (fourAt mem (p + tmpIndex))
    return (some (.int (swap32 (orBytes x y z w))), int (tmpIndex + 4))
  else if tag = chr 'f' then do
    let (x, y, z, w) ← inside (fourAt mem (p + tmpIndex))
    return (some (.float (swap32 (leWord x y z w))), int (tmpIndex + 4))
  else if tag = chr 's' ∨ tag = chr 'S' then do
    let j ← scanNulFrom mem p l tmpIndex
    let bytes ← inside (cStringAt mem (p + tmpIndex))
    return ((stringWithCString bytes).map .string,
      intRoundUp4 (int (tmpIndex + beforeNul j + 1)))
  else if tag = chr 'b' then do
    let (x, y, z, w) ← inside (fourAt mem (p + tmpIndex))
    let tmpInt := swap32 (orBytes x y z w)
    let tmpIndex := int (tmpIndex + 4)
    let tmpData ← inside (dataAt mem (p + tmpIndex) tmpInt)
    return (some (.blob tmpData), intRoundUp4 (int (tmpIndex + tmpInt.toInt)))
  else if tag = chr 'h' ∨ tag = chr 't' ∨ tag = chr 'd' then
    return (none, int (tmpIndex + 8))
  else if tag = chr 'c' then
    return (none, int (tmpIndex + 4))
  else if tag = chr 'r' then do
    let (x, y, z, w) ← inside (fourAt mem (p + tmpIndex))
    return (some (.color (UIColor.ofBytes x y z w)), int (tmpIndex + 4))
  else if tag = chr 'm' then do
    let (x, y, z, w) ← inside (fourAt mem (p + tmpIndex))
    return (some (.midi x y z w), int (tmpIndex + 4))
  else if tag = chr 'T' then
    return (some (.bool true), tmpIndex)
  else if tag = chr 'F' then
    return (some (.bool false), tmpIndex)
  else
    return (none, tmpIndex)

/-- The loop over the type tags. -/
def parseArgumentsAt : List Byte → ℤ → OSCMessage → Except Stop OSCMessage
  | [], _, msg => .ok msg
  | tag :: tags, tmpIndex, msg => do
    let (oscValue, tmpIndex) ← parseArgumentAt mem p l tag tmpIndex
    parseArgumentsAt tags tmpIndex (oscValue.elim msg msg.addValue)

/-- The type tags, from the comma to the NUL. -/
def tagsAt (start stop : ℤ) : List Byte := (mem.drop (p + start).toNat).take (stop - start).toNat

/-- The data behind the type tags, if they end. -/
def parseTagsUpTo (address : CString) (msgTypeStartIndex : ℤ) :
    Option ℤ → Except Stop (Except ParseError OSCMessage)
  | none => return .error .typeEndIndex
  | some msgTypeEndIndex => do
    let msg ← parseArgumentsAt mem p l (tagsAt mem p msgTypeStartIndex msgTypeEndIndex)
      (intRoundUp4 msgTypeEndIndex) (OSCMessage.createWithAddress address)
    return .ok msg

/-- The type tags of a message and their data, if the comma is there. -/
def parseTagsAt (address : CString) (msgTypeStartIndex : ℤ) :
    Except Stop (Except ParseError OSCMessage) := do
  let first ← inside (byteAt mem (p + msgTypeStartIndex))
  if first ≠ chr ',' then return .error .typeTagString
  else
    let msgTypeEndIndex ← scanNulFrom mem p l msgTypeStartIndex
    parseTagsUpTo mem p l address msgTypeStartIndex msgTypeEndIndex

/-- The message behind its address, if that is a string. -/
def parseBehindAddress (addressEnd : ℤ) :
    Option CString → Except Stop (Except ParseError OSCMessage)
  | none => return .error .address
  | some address => parseTagsAt mem p l address (intRoundUp4 addressEnd)

/-- The address of a message, if it ends. -/
def parseAddressUpTo : Option ℤ → Except Stop (Except ParseError OSCMessage)
  | none => return .error .address
  | some addressEnd =>
    parseBehindAddress mem p l addressEnd
      (stringWithCString ((mem.drop p.toNat).take addressEnd.toNat))

/-- `parseRawBuffer:ofMaxLength:toInPort:` of `OSCMessage`: what it logs, or the message that it
delivers. -/
def parseMessageAt : Except Stop (Except ParseError OSCMessage) :=
  if l = 0 then return .error .noBuffer
  else do
    let addressEnd ← scanNulFrom mem p l 0
    parseAddressUpTo mem p l addressEnd

end Message

/-- The messages that are delivered: one, or none. -/
def delivered : Except ParseError OSCMessage → List OSCMessage
  | .ok msg => [msg]
  | .error _ => []

/-- The size of an element, a big-endian `int`. -/
def sizeAt (mem : List Byte) (a : ℤ) : Option ℤ :=
  (fourAt mem a).map fun q => (leWord q.2.2.2 q.2.2.1 q.2.1 q.1).toInt

/-- `parseRawBuffer:ofMaxLength:toInPort:` of `OSCBundle`, given its loop. -/
def parseBundleWith (elements : ℤ → ℤ → ℤ → Except Stop (List OSCMessage)) (p l : ℤ) :
    Except Stop (List OSCMessage) :=
  if l = 0 then return [] else elements p l 16

/-- What begins with `c` at `p`: a bundle, given its loop, a message, or nothing. -/
def parseElementWith (elements : ℤ → ℤ → ℤ → Except Stop (List OSCMessage)) (mem : List Byte)
    (p length : ℤ) (c : Byte) : Except Stop (List OSCMessage) :=
  if c = chr '#' then parseBundleWith elements p length
  else if c = chr '/' then (parseMessageAt mem p length).map delivered
  else .ok []

/-- The loop over the elements of the bundle at `p`, of announced length `l`. -/
def parseElements (mem : List Byte) : ℕ → ℤ → ℤ → ℤ → Except Stop (List OSCMessage)
  | 0, _, _, _ => .error .running
  | fuel + 1, p, l, baseIndex =>
    if baseIndex < l then do
      let length ← inside (sizeAt mem (p + baseIndex))
      let baseIndex := int (baseIndex + 4)
      let c ← inside (byteAt mem (p + baseIndex))
      let element ← parseElementWith (parseElements mem fuel) mem (p + baseIndex) length c
      let rest ← parseElements mem fuel p l (int (baseIndex + length))
      return element ++ rest
    else .ok []

/-- `parseRawBuffer:ofMaxLength:toInPort:` of `OSCPacket`, on a buffer of its own. -/
def parsePacket (mem : List Byte) (fuel : ℕ) : Except Stop (List OSCMessage) := do
  let c ← inside (byteAt mem 0)
  parseElementWith (parseElements mem fuel) mem 0 mem.length c

end PoopWorms.Osc
