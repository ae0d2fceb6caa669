import PoopWorms.Server.HashTable

/-!
# The server's hash tables, with resizing

`Resize` allocates a larger table and adds the old items to it again. `IntHashTable` does this
before it has set the new size, and its loop reads the size that is being changed; the two
classes are otherwise alike. `fuel` bounds the turns of every loop and how deep `Add` and
`Resize` call each other.
-/

namespace PoopWorms.Server

open Octets

/-- A table whose `mCanResize` is set, with the number of slots behind `mItems`. -/
structure GrowingTable (T : Type) extends HashTable T where
  allocated : ℕ

namespace GrowingTable

variable {T K : Type}

/-- The constructor, with `inCanResize` true. -/
def new (inMaxItems : ℕ) : GrowingTable T where
  toHashTable := HashTable.new inMaxItems
  allocated := inMaxItems <<< 1

/-- `sc_max(mTableSize << 1, 32)`, of `int32` values. -/
def newSize (t : GrowingTable T) : ℕ := (max (BitVec.ofNat 32 (t.mTableSize <<< 1)).toInt 32).toNat

/-- `mItems = AllocTable(inTableSize)`. -/
def allocTable (t : GrowingTable T) (inTableSize : ℕ) : GrowingTable T :=
  { t with mItems := fun _ => none, allocated := inTableSize }

/-- The size, and what follows from it. -/
def setTableSize (t : GrowingTable T) (newSize : ℕ) : GrowingTable T :=
  { t with mTableSize := newSize, mMaxItems := newSize >>> 1, mHashMask := newSize - 1 }

/-- The loop of `Resize` from index `i` on, over the slots that `old` had. A read behind these
has no result. -/
def reAdd (Add : GrowingTable T → T → Option (GrowingTable T × Bool)) (old : GrowingTable T)
    (bound : GrowingTable T → ℕ) : ℕ → ℕ → GrowingTable T → Option (GrowingTable T)
  | 0, _, _ => none
  | rounds + 1, i, t =>
    if i < bound t then
      if old.allocated ≤ i then none
      else match old.mItems i with
        | none => reAdd Add old bound rounds (i + 1) t
        | some item => do
          let (t, _) ← Add t item
          reAdd Add old bound rounds (i + 1) t
    else some t

/-- `HashTable::Resize`. -/
def resize (fuel : ℕ) (Add : GrowingTable T → T → Option (GrowingTable T × Bool))
    (t : GrowingTable T) : Option (GrowingTable T) :=
  reAdd Add t (fun _ => t.mTableSize) fuel 0
    { (t.allocTable t.newSize).setTableSize t.newSize with mNumItems := 0 }

/-- `IntHashTable::Resize`. -/
def resizeInt (fuel : ℕ) (Add : GrowingTable T → T → Option (GrowingTable T × Bool))
    (t : GrowingTable T) : Option (GrowingTable T) :=
  (reAdd Add t (fun t => t.mTableSize) fuel 0 (t.allocTable t.newSize)).map
    (·.setTableSize t.newSize)

/-- One of the two functions above. -/
abbrev Resizing (T : Type) := ℕ → (GrowingTable T → T → Option (GrowingTable T × Bool)) →
  GrowingTable T → Option (GrowingTable T)

variable [BEq K] (Resize : Resizing T) (GetKey : T → K) (Hash : K → Word) [DecidableEq T]

/-- `Add`, once there is room. -/
def put (fuel : ℕ) (t : GrowingTable T) (inItem : T) : Option (GrowingTable T × Bool) := do
  let index ← t.indexFor GetKey Hash fuel (Hash (GetKey inItem)) (GetKey inItem)
  match t.mItems index with
  | some item => return (t, decide (item = inItem))
  | none =>
    return ({ t with
      toHashTable := { t.setItem index (some inItem) with mNumItems := t.mNumItems + 1 } }, true)

/-- `Add`, down to some depth. -/
def add (fuel : ℕ) : ℕ → GrowingTable T → T → Option (GrowingTable T × Bool)
  | 0, _, _ => none
  | depth + 1, t, inItem => do
    let t ← if t.mNumItems ≥ t.mMaxItems then Resize fuel (add fuel depth) t else some t
    t.put GetKey Hash fuel inItem

/-- One call on the table. Only `Add` allocates. -/
def call (fuel : ℕ) (t : GrowingTable T) : TableCall T K → Option (GrowingTable T × TableReply T)
  | .add inItem => (t.add Resize GetKey Hash fuel fuel inItem).map fun r => (r.1, .done r.2)
  | c => (t.toHashTable.call GetKey Hash fuel c).map fun r => ({ t with toHashTable := r.1 }, r.2)

/-- Calls one after the other, with the replies in order. -/
def calls (fuel : ℕ) :
    GrowingTable T → List (TableCall T K) → Option (GrowingTable T × List (TableReply T))
  | t, [] => some (t, [])
  | t, c :: cs => do
    let (t, reply) ← t.call Resize GetKey Hash fuel c
    let (t, replies) ← calls fuel t cs
    return (t, reply :: replies)

end GrowingTable

/-! ## The abstract table

A finite map without a bound. -/

section Map

variable {T K : Type} [DecidableEq T] [DecidableEq K] (GetKey : T → K)

/-- One call on a map that always has room. -/
def growingCall (items : List T) (c : TableCall T K) : List T × TableReply T :=
  mapCall GetKey (items.length + 1) items c

/-- Calls one after the other. -/
def growingCalls : List T → List (TableCall T K) → List T × List (TableReply T)
  | items, [] => (items, [])
  | items, c :: cs =>
    let (items, reply) := growingCall GetKey items c
    let (items, replies) := growingCalls items cs
    (items, reply :: replies)

end Map

end PoopWorms.Server
