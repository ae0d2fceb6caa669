import PoopWorms.Server.MsgFifoContents

/-!
# The life of a synth definition

Definitions are read by the non-real-time thread and defined by the audio thread, which also
makes and ends the synths that use them. A definition is freed by the non-real-time thread,
which gets it through `mDeleteGraphDefs`. The variants of a definition lie in one array of
their original, and every one has a reference count of its own.
-/

namespace PoopWorms.Server

/-- A pointer to a `GraphDef`: to the `u`-th definition that was read, or to one of its
variants. -/
inductive DefPtr
  | original (u : ℕ)
  | variant (u i : ℕ)
deriving DecidableEq

/-- `mOriginal`. -/
def DefPtr.mOriginal : DefPtr → ℕ
  | original u => u
  | variant u _ => u

/-- The names of a definition and its variants, as they are read. -/
structure DefNames (Name : Type) where
  mName : Name
  mVariants : List Name

/-- `mGraphDefLib` is the finite map that its hash table stores, `mDefs` has the definitions that
were read and are still to be defined, and `synths` has the definition of each living synth. A
definition is `freed` together with its variants. -/
structure GraphDefLib (Name : Type) (k : ℕ) where
  mRealTime : Bool
  mMaxGraphDefs : ℕ
  numRead : ℕ
  names : ℕ → DefNames Name
  mRefCount : DefPtr → ℤ
  mGraphDefLib : List DefPtr
  mDefs : List ℕ
  synths : List DefPtr
  mDeleteGraphDefs : MsgFifoNoFree DefPtr (2 ^ k)
  deleting : Bool
  freed : List ℕ

namespace GraphDefLib

variable {Name : Type} [DecidableEq Name] {k : ℕ}

def new (mRealTime : Bool) (mMaxGraphDefs : ℕ) (names : ℕ → DefNames Name) :
    GraphDefLib Name k where
  mRealTime := mRealTime
  mMaxGraphDefs := mMaxGraphDefs
  numRead := 0
  names := names
  mRefCount := fun _ => 0
  mGraphDefLib := []
  mDefs := []
  synths := []
  mDeleteGraphDefs := .new fun _ => .original 0
  deleting := false
  freed := []

/-- The memory of a `GraphDef` has been freed. -/
def isFreed (w : GraphDefLib Name k) (p : DefPtr) : Bool := w.freed.contains p.mOriginal

def nameOf (w : GraphDefLib Name k) : DefPtr → Option Name
  | .original u => some (w.names u).mName
  | .variant u i => (w.names u).mVariants[i]?

/-- A variant has no variants. -/
def variantsOf (w : GraphDefLib Name k) : DefPtr → List DefPtr
  | .original u => (List.range (w.names u).mVariants.length).map (.variant u)
  | .variant _ _ => []

/-- `World_GetGraphDef`. -/
def getGraphDef (w : GraphDefLib Name k) (name : Name) : Option DefPtr :=
  w.mGraphDefLib.find? fun p => w.nameOf p = some name

/-- `mGraphDefLib->Add`, which fails when the table is full or has the name. -/
def libAdd (w : GraphDefLib Name k) (p : DefPtr) : GraphDefLib Name k :=
  if w.mMaxGraphDefs ≤ w.mGraphDefLib.length then w
  else if w.mGraphDefLib.any fun q => w.nameOf q = w.nameOf p then w
  else { w with mGraphDefLib := w.mGraphDefLib ++ [p] }

/-- `World_AddGraphDef`. -/
def addGraphDef (w : GraphDefLib Name k) (p : DefPtr) : GraphDefLib Name k :=
  (w.variantsOf p).foldl libAdd (w.libAdd p)

/-- `World_RemoveGraphDef`. -/
def removeGraphDef (w : GraphDefLib Name k) (p : DefPtr) : GraphDefLib Name k :=
  { w with mGraphDefLib := (w.mGraphDefLib.diff (w.variantsOf p)).erase p }

/-- `GraphDef_DeleteMsg`, which does not look at what `Write` returns. -/
def deleteMsg (w : GraphDefLib Name k) (p : DefPtr) : GraphDefLib Name k :=
  match w.mDeleteGraphDefs.write p with
  | some fifo => { w with mDeleteGraphDefs := fifo }
  | none => w

/-- `GraphDef_Free`, which reads `mOriginal`: there is no result when the memory is freed. -/
def graphDefFree (w : GraphDefLib Name k) (p : DefPtr) : Option (GraphDefLib Name k) :=
  if w.isFreed p then none
  else match p with
    | .original u => some { w with freed := w.freed ++ [u] }
    | .variant _ _ => some w

/-- `--mRefCount`. -/
def decRef (w : GraphDefLib Name k) (p : DefPtr) : GraphDefLib Name k :=
  { w with mRefCount := Function.update w.mRefCount p (w.mRefCount p - 1) }

/-- What `GraphDef_Define` does with a previous definition, and `GraphDef_Remove` with the one it
finds. -/
def dropGraphDef (w : GraphDefLib Name k) (p : DefPtr) : Option (GraphDefLib Name k) :=
  if w.isFreed p then none
  else
    let w := (w.removeGraphDef p).decRef p
    if w.mRefCount p = 0 then some (w.deleteMsg p) else some w

/-- `GraphDef_Remove`. -/
def graphDefRemove (w : GraphDefLib Name k) (name : Name) : Option (GraphDefLib Name k) :=
  match w.getGraphDef name with
  | none => some w
  | some p => w.dropGraphDef p

/-- One turn of `GraphDef_Define`, for the definition `u`. -/
def graphDefDefine (w : GraphDefLib Name k) (u : ℕ) : Option (GraphDefLib Name k) := do
  let w ← w.graphDefRemove (w.names u).mName
  return w.addGraphDef (.original u)

/-- `GraphDefLib_Read`: `defs` are read, and then an exception may be thrown in the middle of the
next definition. What is read is kept if the caller uses the result and nothing is thrown. -/
def libRead (w : GraphDefLib Name k) (defs : List (DefNames Name)) (throws used : Bool) :
    GraphDefLib Name k :=
  let first := w.numRead
  let new := (List.range defs.length).map (first + ·)
  { w with
    numRead := first + defs.length + throws.toNat
    names := fun u => if first ≤ u then (defs[u - first]?).getD (w.names u) else w.names u
    mRefCount := fun p => if first ≤ p.mOriginal then 1 else w.mRefCount p
    mDefs := if throws || !used then w.mDefs else new.reverse ++ w.mDefs }

/-- The end of `Graph_Ctor`. -/
def graphNew (w : GraphDefLib Name k) (p : DefPtr) : GraphDefLib Name k :=
  { w with
    mRefCount := Function.update w.mRefCount p (w.mRefCount p + 1)
    synths := p :: w.synths }

/-- `Graph_Dtor`, for a synth that uses the definition `p`. -/
def graphDtor (w : GraphDefLib Name k) (p : DefPtr) : Option (GraphDefLib Name k) :=
  if w.isFreed p then none
  else
    let w := { w.decRef p with synths := w.synths.erase p }
    if w.mRefCount p ≤ 0 then
      if w.mRealTime then some (w.deleteMsg p) else w.graphDefFree p
    else some w

/-- `World_FreeAllGraphDefs`, with the definitions in the order of the table's slots. -/
def freeAllGraphDefs (w : GraphDefLib Name k) (slots : List DefPtr) :
    Option (GraphDefLib Name k) := do
  let w ← slots.foldlM graphDefFree w
  return { w with mGraphDefLib := [] }

end GraphDefLib

inductive DefEvent (Name : Type)
  -- of the non-real-time thread
  /-- one call of `GraphDefLib_Read` -/
  | read (defs : List (DefNames Name)) (throws used : Bool)
  /-- one turn of `mDeleteGraphDefs.Perform()`, in two steps -/
  | performDelete
  | advanceDelete
  -- of the audio thread
  | define (u : ℕ)
  | dFree (name : Name)
  | dFreeAll (slots : List DefPtr)
  | sNew (name : Name)
  | nodeDelete (p : DefPtr)

namespace GraphDefLib

variable {Name : Type} [DecidableEq Name] {k : ℕ}

/-- One event. An event that cannot happen changes nothing, and there is no result when freed
memory is used. -/
def next (w : GraphDefLib Name k) : DefEvent Name → Option (GraphDefLib Name k)
  | .read defs throws used => some (w.libRead defs throws used)
  | .performDelete =>
    if w.deleting || !w.mRealTime then some w
    else match w.mDeleteGraphDefs.next with
      | none => some w
      | some p => { w with deleting := true }.graphDefFree p
  | .advanceDelete =>
    if w.deleting then
      some { w with mDeleteGraphDefs := w.mDeleteGraphDefs.advance, deleting := false }
    else some w
  | .define u =>
    if w.mDefs.contains u then { w with mDefs := w.mDefs.erase u }.graphDefDefine u else some w
  | .dFree name => w.graphDefRemove name
  | .dFreeAll slots => if slots.isPerm w.mGraphDefLib then w.freeAllGraphDefs slots else some w
  | .sNew name =>
    match w.getGraphDef name with
    | none => some w
    | some p => if w.isFreed p then none else some (w.graphNew p)
  | .nodeDelete p => if w.synths.contains p then w.graphDtor p else some w

def run : GraphDefLib Name k → List (DefEvent Name) → Option (GraphDefLib Name k)
  | w, [] => some w
  | w, e :: es => (w.next e).bind fun w => w.run es

end GraphDefLib

end PoopWorms.Server
