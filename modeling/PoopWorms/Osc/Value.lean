import PoopWorms.Lib.Octets
import Mathlib.Data.Rat.Floor
import Mathlib.Tactic.DeriveFintype

/-!
# OSC values and their bytes

`OSCValue` with its `bufferLength` and `writeToBuffer`, on a 32-bit little-endian target
(`int`, `long` and `float` are four bytes, `CGFloat` is `float`). A buffer is a list of
bytes; a store outside it makes the write fail.

Numbers that are floats are kept as their bit pattern where only the bits matter and as
the rational they denote where the code computes with them (colour components).
-/

namespace PoopWorms.Osc

open Octets

/-- The byte of an ASCII character. -/
def chr (c : Char) : Byte := BitVec.ofNat 8 c.toNat

/-- A string of ASCII characters other than NUL, as `cStringUsingEncoding:` gives it. -/
structure CString where
  bytes : List Byte
  ascii : ∀ b ∈ bytes, b ≠ 0#8 ∧ b.toNat < 128
deriving DecidableEq

/-- The `NSString` written `@"…"` in the source. -/
def CString.ofString (s : String) : CString where
  bytes := (s.toList.map chr).filter fun b => b ≠ 0#8 ∧ b.toNat < 128
  ascii := by
    intro b hb
    simpa using (List.mem_filter.mp hb).2

theorem CString.ne_zero (s : CString) : ∀ b ∈ s.bytes, b ≠ 0#8 := fun b hb => (s.ascii b hb).1

/-- An `NSData`: its length fits the `int` that is written in front of it. -/
structure NSData where
  bytes : List Byte
  length_lt : bytes.length < 2 ^ 31
deriving DecidableEq

/-! ## Colour components -/

/-- Rounding to the nearest integer, a tie going to the even one. -/
def roundHalfEven (x : ℚ) : ℤ :=
  if x - ⌊x⌋ < 1 / 2 then ⌊x⌋
  else if 1 / 2 < x - ⌊x⌋ then ⌊x⌋ + 1
  else if ⌊x⌋ % 2 = 0 then ⌊x⌋ else ⌊x⌋ + 1

/-- The `float` nearest to a non-negative number (below the overflow threshold): a
multiple of the unit in the last place of a 24-bit mantissa. -/
def toCGFloat (q : ℚ) : ℚ :=
  let ulp : ℚ := 2 ^ (Nat.log2 ⌊q * 2 ^ 149⌋.toNat - 23) / 2 ^ 149
  roundHalfEven (q / ulp) * ulp

/-- The four components of a `UIColor`, as the numbers the `CGFloat`s denote. -/
structure UIColor where
  red : ℚ
  green : ℚ
  blue : ℚ
  alpha : ℚ
deriving DecidableEq

/-- `colorWithRed:green:blue:alpha:` on four bytes divided by `255.0`. -/
def UIColor.ofBytes (r g b a : Byte) : UIColor where
  red := toCGFloat (r.toNat / 255)
  green := toCGFloat (g.toNat / 255)
  blue := toCGFloat (b.toNat / 255)
  alpha := toCGFloat (a.toNat / 255)

/-- `tmpChar = component * 255.0`: the product truncated to a byte. -/
def componentByte (c : ℚ) : Byte := BitVec.ofInt 8 ⌊c * 255⌋

/-- An 8-bit component survives the way through a `CGFloat` and back. -/
theorem componentByte_toCGFloat (k : Byte) : componentByte (toCGFloat (k.toNat / 255)) = k := by
  have hall : ∀ i : Fin 256, componentByte (toCGFloat (i.val / 255)) = BitVec.ofFin i := by
    decide +kernel
  exact hall k.toFin

/-! ## Values -/

/-- `OSCValue`: an `OSCValueType` with its value. The time tag and character types have no
initialiser and are left out. -/
inductive OSCValue
  | int (n : Word)
  | float (bits : Word)
  | string (s : CString)
  | color (c : UIColor)
  | midi (port status data1 data2 : Byte)
  | bool (n : Bool)
  | null
  | infinity
  | arrayOpen
  | arrayClose
  | blob (d : NSData)
deriving DecidableEq

/-- The macro `ROUNDUP4`. -/
def roundUp4 (a : ℕ) : ℕ := if a % 4 ≠ 0 then 4 - a % 4 + a else a + 4

theorem roundUp4_eq (a : ℕ) : roundUp4 a = (a / 4 + 1) * 4 := by
  unfold roundUp4
  split_ifs <;> omega

theorem roundUp4_add {a : ℕ} (ha : a % 4 = 0) (n : ℕ) : roundUp4 (a + n) = a + roundUp4 n := by
  simp only [roundUp4_eq]
  omega

namespace OSCValue

def bufferLength : OSCValue → ℕ
  | int _ | float _ | color _ | midi .. => 4
  | string s => roundUp4 s.bytes.length
  | bool _ | null | infinity | arrayOpen | arrayClose => 0
  | blob d => roundUp4 (4 + d.bytes.length)

end OSCValue

/-- The buffer being written with the two write positions, of the type tags and of the
data. -/
structure Cursor where
  b : List Byte
  typeOffset : ℕ
  dataOffset : ℕ

/-- `b[*t] = tag; ++*t;` -/
def Cursor.putTag (c : Cursor) (tag : Char) : Option Cursor := do
  let b ← poke c.b c.typeOffset [chr tag]
  return { c with b, typeOffset := c.typeOffset + 1 }

/-- Store `bs` at the data offset and advance the offset to `next`. -/
def Cursor.putData (c : Cursor) (bs : List Byte) (next : ℕ) : Option Cursor := do
  let b ← poke c.b c.dataOffset bs
  return { c with b, dataOffset := next }

/-- `for (i=0; i<4; ++i) b[*d+i] = 255 & (tmpLong >> (i*8))`, with the shift of a signed
`long`. -/
def longBytes (tmpLong : Word) : List Byte :=
  (List.range 4).map fun i => (255#32 &&& tmpLong.sshiftRight (i * 8)).setWidth 8

namespace OSCValue

def writeToBuffer (v : OSCValue) (c : Cursor) : Option Cursor :=
  match v with
  | int n => do
      let c ← c.putData (longBytes (swap32 n)) (c.dataOffset + 4)
      c.putTag 'i'
  | float bits => do
      -- the four bytes of the swapped word are copied as a string, not as memory
      let c ← c.putData (strncpy (leBytes (swap32 bits)) 4) (c.dataOffset + 4)
      c.putTag 'f'
  | string s => do
      let tmpLong := s.bytes.length
      let c ← c.putData (strncpy (s.bytes ++ [0#8]) tmpLong) (roundUp4 (c.dataOffset + tmpLong))
      c.putTag 's'
  | color col => do
      let c ← c.putData ([col.red, col.green, col.blue, col.alpha].map componentByte)
        (c.dataOffset + 4)
      c.putTag 'r'
  | midi port status data1 data2 => do
      let c ← c.putData [port, status, data1, data2] (c.dataOffset + 4)
      c.putTag 'm'
  | bool n => c.putTag (if n then 'T' else 'F')
  | arrayOpen => c.putTag '['
  | arrayClose => c.putTag ']'
  | null => some c
  | infinity => some c
  | blob d => do
      let tmpLong := BitVec.ofNat 32 d.bytes.length
      let c ← c.putData (longBytes (swap32 tmpLong)) (c.dataOffset + 4)
      let c ← c.putData d.bytes (roundUp4 (c.dataOffset + d.bytes.length))
      c.putTag 'b'

end OSCValue

end PoopWorms.Osc
