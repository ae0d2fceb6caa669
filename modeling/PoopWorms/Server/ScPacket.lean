import PoopWorms.Lib.FlatMemory
import PoopWorms.Lib.Tiling
import PoopWorms.Osc.MessageTheorems

/-!
# Reply packets

`scpacket` of `scsynthsend.h`, in whose buffer the server builds its replies. Words are written
at `wrpos` as long as they fit, and tags at `tagwrpos` without any test. The buffer lies on the
stack, so that a store in front of it or behind it is one too.
-/

namespace PoopWorms.Server

open Octets Osc FlatMemory Tiling

/-- `scpacket`: `buf` gives the byte at each distance from the buffer, `wrpos` counts words from
there and `tagwrpos` bytes. -/
structure ScPacket where
  buf : ℤ → Byte
  wrpos : ℤ
  tagwrpos : ℤ

namespace ScPacket

/-- `big_scpacket` -/
def maxPacketSize : ℕ := 65516

def kBufSize : ℕ := maxPacketSize / 4

/-- `reset`, on what the stack holds; `maketags` sets the place of the tags. -/
def reset (stack : ℤ → Byte) : ScPacket := ⟨stack, 0, 0⟩

variable (packet : ScPacket)

def addi (i : Word) : ScPacket :=
  if kBufSize ≤ packet.wrpos then packet
  else { packet with
    buf := storeAt packet.buf (4 * packet.wrpos) (OSCValue.beBytes i)
    wrpos := packet.wrpos + 1 }

/-- `addf`, which stores the bits of the float as `addi` does. -/
def addf (f : Word) : ScPacket := packet.addi f

def adds (src : List Byte) : ScPacket :=
  let len4 := (src.length + 4) / 4
  if kBufSize < packet.wrpos + len4 then packet
  else { packet with
    buf := storeAt (storeAt packet.buf (4 * (packet.wrpos + len4 - 1)) (List.replicate 4 0#8))
      (4 * packet.wrpos) src
    wrpos := packet.wrpos + len4 }

def addtag (c : Byte) : ScPacket :=
  { packet with buf := storeAt packet.buf packet.tagwrpos [c], tagwrpos := packet.tagwrpos + 1 }

def skip (n : ℤ) : ScPacket :=
  if kBufSize < packet.wrpos + n then packet else { packet with wrpos := packet.wrpos + n }

/-- `int size4 = (n + 4) >> 2` -/
def tagWords (n : Word) : ℤ := ((n + 4#32).sshiftRight 2).toInt

def maketags (n : Word) : ScPacket :=
  let packet := { packet with tagwrpos := 4 * packet.wrpos }.skip (tagWords n)
  { packet with buf := storeAt packet.buf (4 * (packet.wrpos - 1)) (List.replicate 4 0#8) }

def size : ℤ := 4 * packet.wrpos

/-- `if (packet.size())`, the bytes that `SendReplyCmd` gets. -/
def sendReply : Option (List Byte) :=
  if packet.size = 0 then none else some (readAt packet.buf 0 packet.size.toNat)

/-! ## What is added -/

/-- A data item of a reply. -/
inductive Item
  | int (i : Word)
  | float (f : Word)
  | string (src : List Byte)

/-- One call behind `maketags`. -/
inductive Op
  | tag (c : Byte)
  | item (x : Item)

def addItem : Item → ScPacket
  | .int i => packet.addi i
  | .float f => packet.addf f
  | .string src => packet.adds src

def perform : Op → ScPacket
  | .tag c => packet.addtag c
  | .item x => packet.addItem x

/-- The calls, one after the other. -/
def performAll (ops : List Op) : ScPacket := ops.foldl perform packet

namespace Item

def tag : Item → Byte
  | int _ => chr 'i'
  | float _ => chr 'f'
  | string _ => chr 's'

/-- The words that it takes. -/
def words : Item → ℕ
  | int _ | float _ => 1
  | string src => (src.length + 4) / 4

def data : Item → List Byte
  | int i => OSCValue.beBytes i
  | float f => OSCValue.beBytes f
  | string src => padded src

theorem words_pos (x : Item) : 0 < x.words := by
  cases x with
  | int i => exact Nat.one_pos
  | float f => exact Nat.one_pos
  | string src =>
    show 0 < (src.length + 4) / 4
    omega

theorem length_data (x : Item) : x.data.length = 4 * x.words := by
  cases x with
  | int i => rfl
  | float f => rfl
  | string src =>
    show (padded src).length = 4 * ((src.length + 4) / 4)
    rw [length_padded]
    omega

end Item

namespace Op

def tags : Op → List Byte
  | tag c => [c]
  | item _ => []

def items : Op → List Item
  | tag _ => []
  | item x => [x]

end Op

/-- The tags that are added. -/
def opTags (ops : List Op) : List Byte := ops.flatMap Op.tags

/-- The items that are added. -/
def opItems (ops : List Op) : List Item := ops.flatMap Op.items

def itemWords (items : List Item) : ℕ := total Item.words items

def itemBytes (items : List Item) : List Byte := items.flatMap Item.data

/-- A message: its address, a string with its tags, and its data. -/
def encode (address tags : List Byte) (items : List Item) : List Byte :=
  padded address ++ padded tags ++ itemBytes items

/-- No place outside of the buffer has changed. -/
def Inside (stack buf : ℤ → Byte) : Prop := ∀ w : ℤ, w < 0 ∨ maxPacketSize ≤ w → buf w = stack w

end ScPacket

end PoopWorms.Server
