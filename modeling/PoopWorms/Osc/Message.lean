import PoopWorms.Osc.Value
import Mathlib.Data.List.Basic

/-!
# OSC messages

`OSCMessage`, a single value or an array of values under an address, and the buffer it is
written to. `OSCPacket` allocates `bufferLength` zeroed bytes and has the message write
itself there.
-/

namespace PoopWorms.Osc

open Octets

/-- `OSCMessage`. A single value is stored in `value`, several are stored in `valueArray`. -/
structure OSCMessage where
  address : CString
  valueCount : ℕ
  value : Option OSCValue
  valueArray : Option (List OSCValue)
deriving DecidableEq

namespace OSCMessage

/-- The address with the `/` in front that OSC wants. -/
def slashed (a : CString) : CString where
  bytes := if a.bytes.head? ≠ some (chr '/') then chr '/' :: a.bytes else a.bytes
  ascii := by
    intro b hb
    split_ifs at hb with h
    · rcases List.mem_cons.mp hb with rfl | hb
      · decide
      · exact a.ascii b hb
    · exact a.ascii b hb

def createWithAddress (a : CString) : OSCMessage where
  address := slashed a
  valueCount := 0
  value := none
  valueArray := none

def addValue (m : OSCMessage) (n : OSCValue) : OSCMessage :=
  if m.valueCount = 0 then
    { m with value := some n, valueCount := m.valueCount + 1 }
  else
    -- the array is created when the second value arrives, and takes over the first
    match m.valueArray with
    | none => { m with
        valueArray := some (m.value.toList ++ [n]), value := none,
        valueCount := m.valueCount + 1 }
    | some a => { m with valueArray := some (a ++ [n]), valueCount := m.valueCount + 1 }

def addInt (m : OSCMessage) (n : Word) : OSCMessage := m.addValue (.int n)

def addFloat (m : OSCMessage) (n : Word) : OSCMessage := m.addValue (.float n)

/-- `createWithString:` gives no value for a `nil` string, and then nothing is added. -/
def addString (m : OSCMessage) (n : Option CString) : OSCMessage :=
  match n with
  | some s => m.addValue (.string s)
  | none => m

/-- The values that `bufferLength` and `writeToBuffer:` go through. -/
def values (m : OSCMessage) : List OSCValue :=
  if m.valueCount < 2 ∧ m.value.isSome then m.value.toList else m.valueArray.getD []

/-- The message that `vs` are added to, first to last. -/
def ofValues (a : CString) (vs : List OSCValue) : OSCMessage :=
  vs.foldl addValue (createWithAddress a)

def bufferLength (m : OSCMessage) : ℕ :=
  roundUp4 m.address.bytes.length + roundUp4 (m.valueCount + 1)
    + (m.values.map OSCValue.bufferLength).sum

/-- Every value of a message writes itself, one after the other. -/
def writeValues (vs : List OSCValue) (c : Cursor) : Option Cursor :=
  vs.foldlM (fun c v => v.writeToBuffer c) c

def writeToBuffer (m : OSCMessage) (b : List Byte) : Option (List Byte) := do
  let length := m.address.bytes.length
  let b ← poke b 0 (strncpy (m.address.bytes ++ [0#8]) length)
  let typeWriteOffset := roundUp4 length
  let dataWriteOffset := roundUp4 (typeWriteOffset + 1 + m.valueCount)
  let b ← poke b typeWriteOffset [chr ',']
  let c ← writeValues m.values ⟨b, typeWriteOffset + 1, dataWriteOffset⟩
  return c.b

/-- The payload of the packet that is sent: the message written to a zeroed buffer. -/
def payload (m : OSCMessage) : Option (List Byte) :=
  m.writeToBuffer (List.replicate m.bufferLength 0#8)

end OSCMessage

end PoopWorms.Osc
