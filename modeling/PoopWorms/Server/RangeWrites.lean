import PoopWorms.Server.MsgIter
import PoopWorms.Server.World

/-!
# The commands that write ranges

`/b_setn`, `/b_fill`, `/c_setn` and `/c_fill` store values from an index on, in a buffer or in the
control buses. The memory is a parameter, so that a store behind either end of the array is one
too.
-/

namespace PoopWorms.Server

open Octets Osc

/-- An array of `num` values; `write` is the body of the loop over a range. -/
structure RangeArray (M : Type) where
  num : ℕ
  write : M → ℤ → Word → M

/-- The samples of a buffer, from the `data` pointer on: `data[i] = value;`. -/
def bufSamples (samples : ℕ) : RangeArray (ℤ → Word) where
  num := samples
  write data i value := Function.update data i value

/-- `mControlBus` and `mControlBusTouched`. -/
structure BusMemory where
  data : ℤ → Word
  touched : ℤ → Word

/-- The control buses: `data[i] = value; touched[i] = bufCounter;`. -/
def controlBuses (mNumControlBusChannels : ℕ) (mBufCounter : Word) : RangeArray BusMemory where
  num := mNumControlBusChannels
  write bus i value :=
    ⟨Function.update bus.data i value, Function.update bus.touched i mBufCounter⟩

def scClip (x lo hi : ℤ) : ℤ := max (min x hi) lo

variable {M : Type} (fpu : FloatUnit) (array : RangeArray M)

/-- `for (int i=start; msg.remain() && i<=end; ++i)`, for the `n` indices that there are. -/
def setnLoop : ℕ → ℤ → MsgIter → M → Option (MsgIter × M)
  | 0, _, msg, m => some (msg, m)
  | n + 1, i, msg, m =>
    if msg.remain = 0 then some (msg, m)
    else do
      let (value, msg) ← msg.getf fpu 0#32
      setnLoop n (i + 1) msg (array.write m i value)

/-- `for (int i=start; i<=end; ++i)`. -/
def fillLoop (value : Word) : ℕ → ℤ → M → M
  | 0, _, m => m
  | n + 1, i, m => fillLoop value n (i + 1) (array.write m i value)

/-- One turn of `meth_b_setn`. -/
def bSetnTurn (msg : MsgIter) (m : M) : Option (MsgIter × M) := do
  let (start, msg) ← msg.geti fpu 0#32
  let (n, msg) ← msg.geti fpu 0#32
  let last := (start + n - 1#32).toInt
  if last < 0 ∨ (array.num : ℤ) ≤ start.toInt then return (msg, m)
  let start := scClip start.toInt 0 (array.num - 1)
  let last := scClip last 0 (array.num - 1)
  setnLoop fpu array (last + 1 - start).toNat start msg m

/-- One turn of `meth_b_fill`, which is one of `meth_c_fill` too. -/
def fillTurn (msg : MsgIter) (m : M) : Option (MsgIter × M) := do
  let (start, msg) ← msg.geti fpu 0#32
  let (n, msg) ← msg.geti fpu 0#32
  let (value, msg) ← msg.getf fpu 0#32
  let last := (start + n - 1#32).toInt
  if last < 0 ∨ (array.num : ℤ) ≤ start.toInt then return (msg, m)
  let start := scClip start.toInt 0 (array.num - 1)
  let last := scClip last 0 (array.num - 1)
  return (msg, fillLoop array value (last + 1 - start).toNat start m)

/-- One turn of `meth_c_setn`; there is no iterator behind `return kSCErr_IndexOutOfRange`. -/
def cSetnTurn (msg : MsgIter) (m : M) : Option (Option MsgIter × M) := do
  let (start, msg) ← msg.geti fpu 0#32
  let (n, msg) ← msg.geti fpu 0#32
  let last := (start + n - 1#32).toInt
  if start.toInt < 0 ∨ (array.num : ℤ) ≤ last ∨ last < start.toInt then return (none, m)
  let (msg, m) ← setnLoop fpu array (last + 1 - start.toInt).toNat start.toInt msg m
  return (some msg, m)

/-- The loop of a command, while `more` says so. Besides the memory and the error, the result is
at which argument each turn begins. -/
def blockLoop (more : MsgIter → Bool) (turn : MsgIter → M → Option (Option MsgIter × M)) :
    ℕ → MsgIter → M → Option (List ℕ × M × SCErr)
  | 0, _, _ => none
  | turns + 1, msg, m =>
    if more msg then do
      let (msg', m) ← turn msg m
      match msg' with
      | none => return ([msg.count], m, .indexOutOfRange)
      | some msg' =>
        let (starts, m, err) ← blockLoop more turn turns msg' m
        return (msg.count :: starts, m, err)
    else some ([], m, .none)

section Commands

variable (getBuf : Word → RangeArray M) (bus : RangeArray M) (turns : ℕ) (msg : MsgIter) (m : M)

/-- `meth_b_setn`; `getBuf` is `World_GetBuf`, which always gives a buffer. -/
def methBSetn : Option (List ℕ × M × SCErr) := do
  let (bufindex, msg) ← msg.geti fpu 0#32
  blockLoop (fun msg => msg.remain ≠ 0)
    (fun msg m => (bSetnTurn fpu (getBuf bufindex) msg m).map fun r => (some r.1, r.2)) turns msg m

/-- `meth_b_fill` -/
def methBFill : Option (List ℕ × M × SCErr) := do
  let (bufindex, msg) ← msg.geti fpu 0#32
  blockLoop (fun msg => 12 ≤ msg.remain)
    (fun msg m => (fillTurn fpu (getBuf bufindex) msg m).map fun r => (some r.1, r.2)) turns msg m

/-- `meth_c_setn` -/
def methCSetn : Option (List ℕ × M × SCErr) :=
  blockLoop (fun msg => msg.remain ≠ 0) (cSetnTurn fpu bus) turns msg m

/-- `meth_c_fill` -/
def methCFill : Option (List ℕ × M × SCErr) :=
  blockLoop (fun msg => 12 ≤ msg.remain)
    (fun msg m => (fillTurn fpu bus msg m).map fun r => (some r.1, r.2)) turns msg m

end Commands

end PoopWorms.Server
