import PoopWorms.Osc.Message

/-!
# OSC bundles

`OSCBundle`, whose elements are messages or bundles, and `OSCPacket`, which allocates a zeroed
buffer for either of them and has it write itself there. An element of a bundle writes itself
to what is left of the buffer at its place.
-/

namespace PoopWorms.Osc

open Octets

/-- A message whose values have been added to it one by one. -/
abbrev BuiltMessage := { m : OSCMessage // ∃ a vs, m = OSCMessage.ofValues a vs }

/-- The content of a packet, or an element of a bundle. A date is the number of seconds since
1970. -/
inductive OSCElement
  | message (m : BuiltMessage)
  | bundle (timeStamp : Option ℚ) (elementArray : List OSCElement)

/-- `trunc`, and the conversion of a `double` to an integer. -/
def trunc (x : ℚ) : ℤ := if 0 ≤ x then ⌊x⌋ else ⌈x⌉

/-- The time tag of a bundle: the seconds since 1900, and the fraction of a second. A bundle
without a date has the one of 1970, and an unsigned integer is never negative. -/
def theTimeStamp (timeStamp : Option ℚ) : BitVec 64 :=
  let timeSinceReferenceDate := timeStamp.getD 0
  let seconds := trunc timeSinceReferenceDate
  let fractional := timeSinceReferenceDate - seconds
  let secondsSinceEpoch := seconds + 2208988800
  let fractionalSeconds := fractional * 4294967296
  BitVec.ofNat 64 secondsSinceEpoch.toNat <<< 32 + BitVec.ofNat 64 (trunc fractionalSeconds).toNat

/-- The big-endian bytes of an `unsigned long long`. -/
def longLongBytes (w : BitVec 64) : List Byte :=
  (List.range 8).map fun i => w.extractLsb' (56 - 8 * i) 8

/-- The bytes of `htonl` of a length. -/
def lengthBytes (elementLength : ℕ) : List Byte :=
  leBytes (swap32 (BitVec.ofNat 32 elementLength))

/-- `"#bundle"` -/
def bundleString : List Byte := [chr '#', chr 'b', chr 'u', chr 'n', chr 'd', chr 'l', chr 'e']

mutual

/-- `bufferLength` of a message or of a bundle. -/
def OSCElement.bufferLength : OSCElement → ℕ
  | .message m => m.1.bufferLength
  | .bundle _ elementArray => 16 + elementsLength elementArray

/-- What the elements of a bundle add to its length. -/
def elementsLength : List OSCElement → ℕ
  | [] => 0
  | anObj :: rest => 4 + anObj.bufferLength + elementsLength rest

end

mutual

/-- `writeToBuffer:` of a message or of a bundle. -/
def OSCElement.writeToBuffer : OSCElement → List Byte → Option (List Byte)
  | .message m, b => m.1.writeToBuffer b
  | .bundle timeStamp elementArray, b => do
    let b ← poke b 0 (strncpy (bundleString ++ [0#8]) 7)
    let b ← poke b 8 (longLongBytes (theTimeStamp timeStamp))
    let written ← writeElements elementArray b 16
    return written.1

/-- The loop over the elements of a bundle: the buffer and `writeOffset`. -/
def writeElements : List OSCElement → List Byte → ℕ → Option (List Byte × ℕ)
  | [], b, writeOffset => some (b, writeOffset)
  | anObj :: rest, b, writeOffset => do
    let elementLength := anObj.bufferLength
    let b ← poke b writeOffset (lengthBytes elementLength)
    let tail ← anObj.writeToBuffer (b.drop (writeOffset + 4))
    writeElements rest (b.take (writeOffset + 4) ++ tail) (writeOffset + 4 + elementLength)

end

/-- The payload of the packet that `initWithContent:` makes. -/
def OSCPacket.initWithContent (c : OSCElement) : Option (List Byte) :=
  if c.bufferLength < 1 then none
  else c.writeToBuffer (List.replicate c.bufferLength 0#8)

end PoopWorms.Osc
