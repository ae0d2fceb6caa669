import PoopWorms.Osc.Message

/-!
# Parsing OSC messages

`parseRawBuffer:ofMaxLength:toInPort:` of `OSCMessage`. A read outside the buffer makes
the parse fail; what the source logs when it gives up is the error.
-/

namespace PoopWorms.Osc

open Octets

/-- Why no message was delivered. -/
inductive ParseError
  /-- There is no buffer; nothing is logged. -/
  | noBuffer
  /-- "couldn't parse message address" -/
  | address
  /-- "msg type tag string not present" -/
  | typeTagString
  /-- "couldn't find the msg type end index" -/
  | typeEndIndex
  /-- The parser read past the end of the buffer. -/
  | outOfBounds
deriving DecidableEq

/-- `stringWithCString:encoding:` gives `nil` for bytes that are not ASCII. -/
def stringWithCString (bs : List Byte) : Option CString :=
  if h : ∀ b ∈ bs, b ≠ 0#8 ∧ b.toNat < 128 then some ⟨bs, h⟩ else none

/-- The first NUL from index `i` on. -/
def findNul (b : List Byte) (i : ℕ) : Option ℕ :=
  ((b.drop i).findIdx? (· = 0#8)).map (i + ·)

/-- The index behind the padding of a string whose NUL is at `tmpIndex`. -/
def skipPadding (tmpIndex : ℕ) : ℕ :=
  if tmpIndex % 4 = 0 then tmpIndex + 4 else 4 - tmpIndex % 4 + tmpIndex

/-- The four bytes at an index. -/
def fourBytes (b : List Byte) (i : ℕ) : Option (Byte × Byte × Byte × Byte) :=
  match b.drop i with
  | x :: y :: z :: w :: _ => some (x, y, z, w)
  | _ => none

/-- `tmpLong = tmpLong | (tmpInt << (j*8))` for the four bytes. -/
def orBytes (x y z w : Byte) : Word :=
  0#32 ||| x.setWidth 32 <<< 0 ||| y.setWidth 32 <<< 8 ||| z.setWidth 32 <<< 16
    ||| w.setWidth 32 <<< 24

/-- `dataWithBytes:length:`; a negative length asks for more than there is. -/
def dataWithBytes (b : List Byte) (i : ℕ) (length : Word) : Option NSData :=
  if h : length.toNat < 2 ^ 31 ∧ i + length.toNat ≤ b.length then
    some ⟨(b.drop i).take length.toNat, by
      rw [List.length_take, List.length_drop]
      omega⟩
  else none

/-- The data of one type tag, read at `tmpIndex`: the value, if the tag gives one, and the
index of the next data. -/
def parseArgument (b : List Byte) (tag : Byte) (tmpIndex : ℕ) :
    Option (Option OSCValue × ℕ) :=
  if tag = chr 'i' then do
    let (x, y, z, w) ← fourBytes b tmpIndex
    return (some (.int (swap32 (orBytes x y z w))), tmpIndex + 4)
  else if tag = chr 'f' then do
    let (x, y, z, w) ← fourBytes b tmpIndex
    return (some (.float (swap32 (leWord x y z w))), tmpIndex + 4)
  else if tag = chr 's' ∨ tag = chr 'S' then do
    -- `tmpInt` is an index of the buffer, not a length, but is added to `tmpIndex` below;
    -- an address stands in front of the data, so `j` is not 0
    let j ← findNul b tmpIndex
    let tmpInt := j - 1
    let string := stringWithCString ((b.drop tmpIndex).takeWhile (· ≠ 0#8))
    return (string.map .string, roundUp4 (tmpIndex + tmpInt + 1))
  else if tag = chr 'b' then do
    let (x, y, z, w) ← fourBytes b tmpIndex
    let tmpInt := swap32 (orBytes x y z w)
    let tmpIndex := tmpIndex + 4
    let tmpData ← dataWithBytes b tmpIndex tmpInt
    return (some (.blob tmpData), roundUp4 (tmpIndex + tmpInt.toNat))
  else if tag = chr 'h' ∨ tag = chr 't' ∨ tag = chr 'd' then
    some (none, tmpIndex + 8)
  else if tag = chr 'c' then
    some (none, tmpIndex + 4)
  else if tag = chr 'r' then do
    let (x, y, z, w) ← fourBytes b tmpIndex
    return (some (.color (UIColor.ofBytes x y z w)), tmpIndex + 4)
  else if tag = chr 'm' then do
    let (x, y, z, w) ← fourBytes b tmpIndex
    return (some (.midi x y z w), tmpIndex + 4)
  else if tag = chr 'T' then
    some (some (.bool true), tmpIndex)
  else if tag = chr 'F' then
    some (some (.bool false), tmpIndex)
  else
    -- `N` and `I` have an empty case, the brackets and the comma none
    some (none, tmpIndex)

/-- The loop over the type tags. -/
def parseArguments (b : List Byte) : List Byte → ℕ → OSCMessage → Option OSCMessage
  | [], _, msg => some msg
  | tag :: tags, tmpIndex, msg => do
    let (oscValue, tmpIndex) ← parseArgument b tag tmpIndex
    parseArguments b tags tmpIndex (oscValue.elim msg msg.addValue)

def parseRawBuffer (b : List Byte) : Except ParseError OSCMessage :=
  if b.length = 0 then .error .noBuffer else
  match findNul b 0 with
  | none => .error .address
  | some addressEnd =>
    match stringWithCString (b.take addressEnd) with
    | none => .error .address
    | some address =>
      let msgTypeStartIndex := skipPadding addressEnd
      match b[msgTypeStartIndex]? with
      | none => .error .outOfBounds
      | some first =>
        if first ≠ chr ',' then .error .typeTagString
        else
          match findNul b msgTypeStartIndex with
          | none => .error .typeEndIndex
          | some msgTypeEndIndex =>
            let tags := (b.drop msgTypeStartIndex).take (msgTypeEndIndex - msgTypeStartIndex)
            match parseArguments b tags (skipPadding msgTypeEndIndex)
                (OSCMessage.createWithAddress address) with
            | none => .error .outOfBounds
            | some msg => .ok msg

end PoopWorms.Osc
