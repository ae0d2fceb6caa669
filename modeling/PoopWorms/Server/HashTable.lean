import PoopWorms.Lib.Octets
import Mathlib.Logic.Function.Basic

/-!
# The server's hash tables

`HashTable` and `IntHashTable` of `HashTable.h`, for tables that cannot resize. The two
classes differ in the type of their keys and in how keys are compared, so they are one
definition over the key type. `T` is the type of pointers to items, and the hash that an
item carries is the hash of its key. A probe loop that has not ended after `fuel` rounds
gives `none`.
-/

namespace PoopWorms.Server

open Octets

/-! ## Keys of words -/

/-- `kLASTCHAR`, on a little endian machine. -/
def kLASTCHAR : Word := 0xFF000000#32

/-- A string padded to whole words ends with the first word whose last octet is zero. -/
def IsStr4 : List Word → Prop
  | [] => False
  | [a] => a &&& kLASTCHAR = 0
  | a :: b :: as => a &&& kLASTCHAR ≠ 0 ∧ IsStr4 (b :: as)

instance decidableIsStr4 : ∀ as, Decidable (IsStr4 as)
  | [] => isFalse id
  | [a] => inferInstanceAs (Decidable (a &&& kLASTCHAR = 0))
  | _ :: b :: as => @instDecidableAnd _ _ _ (decidableIsStr4 (b :: as))

/-- The string behind an `int32*`. -/
structure Str4 where
  words : List Word
  ended : IsStr4 words
deriving DecidableEq

/-- `str4eq` on the words behind its two pointers. -/
def str4eq : List Word → List Word → Bool
  | a :: as, b :: bs =>
    if a ≠ b then false
    else if a &&& kLASTCHAR = 0 then true
    else str4eq as bs
  | _, _ => false

instance : BEq Str4 where
  beq a b := str4eq a.words b.words

/-! ## The table -/

structure HashTable (T : Type) where
  mNumItems : ℕ
  mMaxItems : ℕ
  mTableSize : ℕ
  mHashMask : ℕ
  mItems : ℕ → Option T

namespace HashTable

variable {T K : Type}

/-- The constructor, with `inCanResize` false. -/
def new (inMaxItems : ℕ) : HashTable T where
  mNumItems := 0
  mMaxItems := inMaxItems
  mTableSize := inMaxItems <<< 1
  mHashMask := (inMaxItems <<< 1) - 1
  mItems := fun _ => none

/-- Write one slot. -/
def setItem (t : HashTable T) (index : ℕ) (item : Option T) : HashTable T :=
  { t with mItems := Function.update t.mItems index item }

variable [BEq K] (GetKey : T → K) (Hash : K → Word)

/-- The loop of `IndexFor`, from a slot on. -/
def indexFrom (t : HashTable T) (inHashID : Word) (inKey : K) : ℕ → ℕ → Option ℕ
  | 0, _ => none
  | fuel + 1, index =>
    match t.mItems index with
    | none => some index
    | some item =>
      if Hash (GetKey item) = inHashID ∧ inKey == GetKey item then some index
      else indexFrom t inHashID inKey fuel ((index + 1) &&& t.mHashMask)

def indexFor (fuel : ℕ) (t : HashTable T) (inHashID : Word) (inKey : K) : Option ℕ :=
  t.indexFrom GetKey Hash inHashID inKey fuel (inHashID.toNat &&& t.mHashMask)

def get (fuel : ℕ) (t : HashTable T) (inKey : K) : Option (Option T) := do
  let index ← t.indexFor GetKey Hash fuel (Hash inKey) inKey
  return t.mItems index

/-- The loop of `FixCollisionsFrom`, behind a slot. -/
def fixCollisionsFrom (fuel : ℕ) : ℕ → HashTable T → ℕ → Option (HashTable T)
  | 0, _, _ => none
  | rounds + 1, t, inIndex =>
    let oldIndex := (inIndex + 1) &&& t.mHashMask
    match t.mItems oldIndex with
    | none => some t
    | some oldItem => do
      let newIndex ← t.indexFor GetKey Hash fuel (Hash (GetKey oldItem)) (GetKey oldItem)
      if oldIndex ≠ newIndex then
        fixCollisionsFrom fuel rounds
          ((t.setItem oldIndex (t.mItems newIndex)).setItem newIndex (some oldItem)) oldIndex
      else fixCollisionsFrom fuel rounds t oldIndex

variable [DecidableEq T]

def add (fuel : ℕ) (t : HashTable T) (inItem : T) : Option (HashTable T × Bool) :=
  if t.mNumItems ≥ t.mMaxItems then some (t, false)
  else do
    let index ← t.indexFor GetKey Hash fuel (Hash (GetKey inItem)) (GetKey inItem)
    match t.mItems index with
    | some item => return (t, decide (item = inItem))
    | none => return ({ t.setItem index (some inItem) with mNumItems := t.mNumItems + 1 }, true)

def remove (fuel : ℕ) (t : HashTable T) (inItem : T) : Option (HashTable T × Bool) := do
  let index ← t.indexFor GetKey Hash fuel (Hash (GetKey inItem)) (GetKey inItem)
  if t.mItems index ≠ some inItem then return (t, false)
  else do
    let t ← fixCollisionsFrom GetKey Hash fuel fuel (t.setItem index none) index
    return ({ t with mNumItems := t.mNumItems - 1 }, true)

def removeKey (fuel : ℕ) (t : HashTable T) (inKey : K) : Option (HashTable T × Bool) := do
  match ← t.get GetKey Hash fuel inKey with
  | none => return (t, false)
  | some item => t.remove GetKey Hash fuel item

end HashTable

/-! ## Calls -/

/-- A call of one of the four operations. -/
inductive TableCall (T K : Type)
  | add (inItem : T)
  | remove (inItem : T)
  | removeKey (inKey : K)
  | get (inKey : K)

/-- What a call returns. -/
inductive TableReply (T : Type)
  | done (ok : Bool)
  | item (found : Option T)
deriving DecidableEq

section Calls

variable {T K : Type} [DecidableEq T]

/-- One call on the table. -/
def HashTable.call [BEq K] (GetKey : T → K) (Hash : K → Word) (fuel : ℕ) (t : HashTable T) :
    TableCall T K → Option (HashTable T × TableReply T)
  | .add inItem => (t.add GetKey Hash fuel inItem).map fun r => (r.1, .done r.2)
  | .remove inItem => (t.remove GetKey Hash fuel inItem).map fun r => (r.1, .done r.2)
  | .removeKey inKey => (t.removeKey GetKey Hash fuel inKey).map fun r => (r.1, .done r.2)
  | .get inKey => (t.get GetKey Hash fuel inKey).map fun r => (t, .item r)

/-- Calls one after the other, with the replies in order. -/
def HashTable.calls [BEq K] (GetKey : T → K) (Hash : K → Word) (fuel : ℕ) :
    HashTable T → List (TableCall T K) → Option (HashTable T × List (TableReply T))
  | t, [] => some (t, [])
  | t, c :: cs => do
    let (t, reply) ← t.call GetKey Hash fuel c
    let (t, replies) ← HashTable.calls GetKey Hash fuel t cs
    return (t, reply :: replies)

/-! ## The abstract table

What the tables are for: a finite map of bounded size from keys to items. Its state is
the list of the items that were accepted and not yet removed. -/

variable [DecidableEq K] (GetKey : T → K) (capacity : ℕ)

/-- An item is refused by a full map and by a map with another item of its key. -/
def Refused (items : List T) (inItem : T) : Prop :=
  capacity ≤ items.length ∨ ∃ item ∈ items, item ≠ inItem ∧ GetKey item = GetKey inItem

instance (items : List T) (inItem : T) : Decidable (Refused GetKey capacity items inItem) :=
  inferInstanceAs (Decidable (_ ∨ _))

/-- One call on the finite map. -/
def mapCall (items : List T) : TableCall T K → List T × TableReply T
  | .add inItem =>
    if Refused GetKey capacity items inItem then (items, .done false)
    else (items.insert inItem, .done true)
  | .remove inItem => (items.erase inItem, .done (decide (inItem ∈ items)))
  | .removeKey inKey =>
    (items.filter fun item => GetKey item ≠ inKey, .done (items.any fun item => GetKey item = inKey))
  | .get inKey => (items, .item (items.find? fun item => GetKey item = inKey))

/-- Calls one after the other on the finite map. -/
def mapCalls : List T → List (TableCall T K) → List T × List (TableReply T)
  | items, [] => (items, [])
  | items, c :: cs =>
    let (items, reply) := mapCall GetKey capacity items c
    let (items, replies) := mapCalls items cs
    (items, reply :: replies)

end Calls

end PoopWorms.Server
