import PoopWorms.Server.MsgIter

/-!
# The control arguments of a synth

`Graph_Ctor` reads the arguments of `/s_new`, and `meth_n_set` those of `/n_set`, each with a
loop of its own: a key, and then a value, a mapping string or a bracketed array of these for the
controls from the key on.
-/

namespace PoopWorms.Server

open Octets Osc

/-! ## Controls -/

/-- Where a control is read: an element of `mMapControls`. -/
inductive ControlSource
  | control (i : ℕ)
  | controlBus (inBus : ℕ)
  | audioBus (offset : ℕ)
deriving DecidableEq

/-- The `World`'s buses and the parameter names of the synth definition. -/
structure ControlWorld where
  mNumControlBusChannels : ℕ
  mNumAudioBusChannels : ℕ
  mBufLength : ℕ
  mParamSpecTable : List Byte → Option Word

/-- The controls of a `Graph`; values are bit patterns. -/
structure Controls where
  mNumControls : ℕ
  mControls : ℕ → Word
  mMapControls : ℕ → ControlSource
  mControlRates : ℕ → ℕ

namespace Controls

/-- "initialize controls" -/
def init (mNumControls : ℕ) (mInitialControlValues : ℕ → Word) : Controls where
  mNumControls := mNumControls
  mControls := mInitialControlValues
  mMapControls := .control
  mControlRates := fun _ => 0

/-- `Graph_SetControl`. -/
def graphSetControl (g : Controls) (inIndex : Word) (inValue : Word) : Controls :=
  if g.mNumControls ≤ inIndex.toNat then g
  else { g with
    mControlRates := Function.update g.mControlRates inIndex.toNat 0
    mMapControls := Function.update g.mMapControls inIndex.toNat (.control inIndex.toNat)
    mControls := Function.update g.mControls inIndex.toNat inValue }

/-- A mapping of a control to a bus, or its end when the bus is negative. -/
def mapTo (g : Controls) (inIndex inBus : Word) (numBusChannels rate : ℕ)
    (source : ControlSource) : Controls :=
  if g.mNumControls ≤ inIndex.toNat then g
  else if 0x80000000#32 ≤ inBus then { g with
    mControlRates := Function.update g.mControlRates inIndex.toNat 0
    mMapControls := Function.update g.mMapControls inIndex.toNat (.control inIndex.toNat) }
  else if inBus.toNat < numBusChannels then { g with
    mControlRates := Function.update g.mControlRates inIndex.toNat rate
    mMapControls := Function.update g.mMapControls inIndex.toNat source }
  else g

/-- `Graph_MapControl`. -/
def graphMapControl (world : ControlWorld) (g : Controls) (inIndex inBus : Word) : Controls :=
  g.mapTo inIndex inBus world.mNumControlBusChannels 1 (.controlBus inBus.toNat)

/-- `Graph_MapAudioControl`. -/
def graphMapAudioControl (world : ControlWorld) (g : Controls) (inIndex inBus : Word) :
    Controls :=
  g.mapTo inIndex inBus world.mNumAudioBusChannels 2
    (.audioBus (inBus.toNat * world.mBufLength))

end Controls

/-- The key of an argument: a control index or a parameter name. -/
inductive ControlKey
  | index (n : Word)
  | name (s : List Byte)
deriving DecidableEq

/-- What is done to one control. -/
inductive ControlStore
  | set (value : Word)
  | map (bus : Word)
  | mapAudio (bus : Word)
deriving DecidableEq

/-- The index of the control that is `i` behind the key: `index + i`, or `spec->mIndex + inIndex`
when the definition has the name. -/
def ControlKey.at (world : ControlWorld) (i : ℤ) : ControlKey → Option Word
  | index n => some (n + BitVec.ofInt 32 i)
  | name s => (world.mParamSpecTable s).map (· + BitVec.ofInt 32 i)

/-- `Graph_SetControl`, `Graph_MapControl` and `Graph_MapAudioControl`, by index or name. -/
def Controls.store (world : ControlWorld) (key : ControlKey) (g : Controls) (i : ℤ)
    (store : ControlStore) : Controls :=
  match key.at world i with
  | none => g
  | some inIndex =>
    match store with
    | .set value => g.graphSetControl inIndex value
    | .map bus => g.graphMapControl world inIndex bus
    | .mapAudio bus => g.graphMapAudioControl world inIndex bus

/-! ## Mapping strings -/

/-- The loop of `sc_atoi`. -/
def atoiDigits : List Byte → Word → Word
  | [], value => value
  | b :: string, value =>
    let c := b - 48#8
    if c ≤ 9#8 then atoiDigits string (value * 10#32 + c.setWidth 32) else value

/-- `sc_atoi`. -/
def scAtoi (string : List Byte) : Word :=
  if string.isEmpty then -1#32 else atoiDigits string 0#32

/-- What a string in the place of a value asks for: `c` and `a` map to a bus. -/
def mapping : List Byte → Option ControlStore
  | [] => none
  | first :: string =>
    if first = chr 'c' then some (.map (scAtoi string))
    else if first = chr 'a' then some (.mapAudio (scAtoi string))
    else none

/-- `Graph_MapControl` or `Graph_MapAudioControl`, for a string in the place of a value. -/
def Controls.storeString (world : ControlWorld) (key : ControlKey) (g : Controls) (i : ℤ)
    (string : List Byte) : Controls :=
  (mapping string).elim g (g.store world key i)

/-! ## The two loops -/

/-- `nextTag`, with its default. -/
def MsgIter.nextTagOr (it : MsgIter) (defaultTag : Byte) : Option Byte :=
  match it.tags with
  | some _ => it.nextTag
  | none => some defaultTag

/-- The variables of the loop over the values of one key. -/
structure ValueLoop where
  it : MsgIter
  i : ℤ
  loop : ℤ
  g : Controls

variable (fpu : FloatUnit) (world : ControlWorld)

/-- One turn of `Graph_Ctor`'s loop over the values of a key. -/
def ctorTurn (key : ControlKey) (s : ValueLoop) : Option ValueLoop := do
  let tag ← s.it.nextTagOr (chr 'f')
  if tag = chr 'f' ∨ tag = chr 'i' then
    let (value, it) ← s.it.getf fpu 0#32
    return { s with it, g := s.g.store world key s.i (.set value), i := s.i + 1 }
  else if tag = chr 's' then
    let (string, it) ← s.it.gets none
    let string ← string
    return { s with it, g := s.g.storeString world key s.i string, i := s.i + 1 }
  else if tag = chr ']' then
    return { s with it := s.it.next, loop := s.loop - 1, i := s.i + 1 }
  else if tag = chr '[' then
    return { s with it := s.it.next, loop := s.loop + 1, i := s.i - 1 + 1 }
  else return { s with i := s.i + 1 }

/-- One turn of `meth_n_set`'s loop over the values of a key. -/
def nSetTurn (key : ControlKey) (s : ValueLoop) : Option ValueLoop := do
  let tag ← s.it.nextTagOr (chr 'f')
  if tag = chr 'f' ∨ tag = chr 'i' then
    let (value, it) ← s.it.getf fpu 0#32
    return { s with it, g := s.g.store world key s.i (.set value), i := s.i + 1 }
  else if tag = chr 's' then
    let (string, it) ← s.it.gets none
    let string ← string
    if (mapping string).isSome then
      return { s with it, g := s.g.storeString world key s.i string, i := s.i + 1 }
    else return { s with it }
  else if tag = chr ']' then return { s with it := s.it.next, loop := s.loop - 1 }
  else if tag = chr '[' then return { s with it := s.it.next, loop := s.loop + 1 }
  else return s

/-- `do … while (loop)`; there is no result when the turns do not suffice. -/
def doWhileLoop (turn : ValueLoop → Option ValueLoop) : ℕ → ValueLoop → Option ValueLoop
  | 0, _ => none
  | turns + 1, s => do
    let s ← turn s
    if s.loop = 0 then return s else doWhileLoop turn turns s

/-- The key of an argument. -/
def getKey (it : MsgIter) : Option (ControlKey × MsgIter) := do
  if (← it.nextTagOr (chr 'i')) = chr 's' then
    let (name, it) ← it.gets4 none
    return (.name (← name), it)
  else
    let (index, it) ← it.geti fpu 0#32
    return (.index index, it)

/-- `while (msg.remain() >= 8)`. -/
def argLoop (turn : ControlKey → ValueLoop → Option ValueLoop) :
    ℕ → MsgIter → Controls → Option (MsgIter × Controls)
  | 0, _, _ => none
  | turns + 1, it, g =>
    if 8 ≤ it.remain then do
      let (key, it) ← getKey fpu it
      let s ← doWhileLoop (turn key) turns { it, i := 0, loop := 0, g }
      argLoop turn turns s.it s.g
    else some (it, g)

/-- `Graph_Ctor`, for the arguments that `msg` stands in front of. -/
def graphCtor (turns mNumControls : ℕ) (mInitialControlValues : ℕ → Word) (msg : MsgIter) :
    Option (MsgIter × Controls) :=
  argLoop fpu (ctorTurn fpu world) turns msg (.init mNumControls mInitialControlValues)

/-- `meth_n_set`, for the arguments behind the node. -/
def methNSet (turns : ℕ) (msg : MsgIter) (g : Controls) : Option (MsgIter × Controls) :=
  argLoop fpu (nSetTurn fpu world) turns msg g

end PoopWorms.Server
