import PoopWorms.Lib.Octets
import PoopWorms.Osc.Value

/-!
# Paths below a base directory

`allocAndRestrictPath` of `SC_SequencedCommand.cpp`, with the `SC_StringParser` that it takes the
path apart with. Strings are without the NUL that ends them. The local buffer has `PATH_MAX`
bytes and holds at first what happens to be on the stack; what would read or write outside of it
has no result.
-/

namespace PoopWorms.Server

open Octets Osc

def slash : Byte := chr '/'

/-- The token `".."`. -/
def dotDot : List Byte := [chr '.', chr '.']

/-! ## `SC_StringParser` -/

def SC_MAX_TOKEN_LENGTH : ℕ := 256

/-- An `SC_StringParser` that separates at `'/'`: what lies between `mStart` and `mEnd`, if there
is an `mSpec`. -/
structure StringParser where
  mSpec : Option (List Byte)

namespace StringParser

/-- The constructor. -/
def new (spec : List Byte) : StringParser := ⟨if spec.length > 0 then some spec else none⟩

def atEnd (sp : StringParser) : Bool := sp.mSpec.isNone

/-- `NextToken`, with the parser that it leaves. -/
def nextToken (sp : StringParser) : Option (List Byte × StringParser) :=
  sp.mSpec.map fun mStart =>
    let len := (mStart.takeWhile fun c => c ≠ slash).length
    let token := mStart.take (min (SC_MAX_TOKEN_LENGTH - 1) len)
    (token, if len = mStart.length then ⟨none⟩ else ⟨some (mStart.drop (len + 1))⟩)

end StringParser

/-! ## `allocAndRestrictPath` -/

/-- An `int`, compared with a `size_t`. -/
def toSizeT (x : ℤ) : ℤ := if x < 0 then x + 2 ^ 64 else x

def strcpy (strbuf : List Byte) (offset : ℕ) (s : List Byte) : Option (List Byte) :=
  poke strbuf offset (s ++ [0#8])

def strlen (strbuf : List Byte) : Option ℕ :=
  if 0#8 ∈ strbuf then some (strbuf.takeWhile fun c => c ≠ 0#8).length else none

/-- The loop over the tokens. -/
def copyTokens : ℕ → StringParser → List Byte → ℕ → ℤ → Option (List Byte)
  | 0, _, _, _, _ => none
  | fuel + 1, sp, strbuf, offset, remain =>
    match sp.nextToken with
    | none => some strbuf
    | some (token, sp) =>
      if token ≠ dotDot ∧ token.length < toSizeT remain then do
        let strbuf ← strcpy strbuf offset token
        let offset := offset + token.length
        let remain := remain - token.length
        if sp.atEnd then copyTokens fuel sp strbuf offset remain
        else do
          let strbuf ← poke strbuf offset [slash]
          copyTokens fuel sp strbuf (offset + 1) (remain - 1)
      else copyTokens fuel sp strbuf offset remain

/-- Ensure that the path begins with the base. -/
def beginWithBase (strbuf inPath restrictBase : List Byte) : Option (List Byte × ℕ × ℤ) :=
  if restrictBase.isPrefixOf inPath then some (strbuf, 0, strbuf.length)
  else do
    let buf ← strcpy strbuf 0 restrictBase
    let offset := restrictBase.length
    let remain : ℤ := strbuf.length - offset
    if inPath.head? = some slash then some (buf, offset, remain)
    else do
      let len ← strlen buf
      if buf[len - 1]? = some slash then some (buf, offset, remain)
      else do
        let buf ← poke buf offset [slash]
        some (buf, offset + 1, remain - 1)

def allocAndRestrictPath (strbuf inPath restrictBase : List Byte) : Option (List Byte) := do
  let (strbuf, offset, remain) ← beginWithBase strbuf inPath restrictBase
  let strbuf ← copyTokens (inPath.length + 2) (.new inPath) strbuf offset remain
  let len ← strlen strbuf
  some (strbuf.take len)

example : allocAndRestrictPath (List.replicate 12 1#8)
    ([chr 'a', slash] ++ dotDot ++ [slash, chr 'b']) [slash, chr 's'] =
      some [slash, chr 's', slash, chr 'a', slash, chr 'b'] := by
  decide

end PoopWorms.Server
