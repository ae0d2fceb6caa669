import PoopWorms.Osc.MessageTheorems

/-!
# Adding a list of arguments

The category of `OSCMessage` that adds a list of arguments, in which an OSC array is an `NSArray`
of its own. Nothing checks the class of what is added, so the message is modelled as a store of
objects here, next to `OSCMessage`, which stores values.
-/

namespace PoopWorms.Osc

/-- An element of a list of arguments: a value, or an `NSArray` of values. -/
inductive Argument
  | value (v : OSCValue)
  | array (vs : List OSCValue)
deriving DecidableEq

namespace Argument

/-- The values of an argument, an array expanded in its place. -/
def values : Argument → List OSCValue
  | value v => [v]
  | array vs => vs

def isArray : Argument → Bool
  | value _ => false
  | array _ => true

/-- An array starts with `OSCValArrayOpen` and ends with `OSCValArrayClose`. -/
def wellFormed : Argument → Bool
  | value _ => true
  | array vs => vs.head? = some .arrayOpen ∧ vs.getLast? = some .arrayClose

end Argument

/-- What an `OSCMessage` stores, as objects of any class. -/
structure MessageStore where
  valueCount : ℕ
  value : Option Argument
  valueArray : Option (List Argument)
deriving DecidableEq

namespace MessageStore

def empty : MessageStore where
  valueCount := 0
  value := none
  valueArray := none

def addValue (m : MessageStore) (n : Argument) : MessageStore :=
  if m.valueCount = 0 then
    { m with value := some n, valueCount := m.valueCount + 1 }
  else
    match m.valueArray with
    | none => { m with
        valueArray := some (m.value.toList ++ [n]), value := none,
        valueCount := m.valueCount + 1 }
    | some a => { m with valueArray := some (a ++ [n]), valueCount := m.valueCount + 1 }

/-- What `bufferLength` and `writeToBuffer:` go through. -/
def values (m : MessageStore) : List Argument :=
  if m.valueCount < 2 ∧ m.value.isSome then m.value.toList else m.valueArray.getD []

/-- The assertion on an array, which reads its first object: an exception if it fails, or if
there is none. -/
def assertArray (array : List OSCValue) : Option Unit := do
  let first ← array[0]?
  if first = .arrayOpen ∧ array.getLast? = some .arrayClose then return () else failure

/-- The loop over the arguments. The loop over the elements of an array goes over `arguments`
again. -/
def addArgumentsFrom (arguments : List Argument) : List Argument → MessageStore →
    Option MessageStore
  | [], m => some m
  | .value v :: rest, m => addArgumentsFrom arguments rest (m.addValue (.value v))
  | .array array :: rest, m => do
    assertArray array
    addArgumentsFrom arguments rest (arguments.foldl addValue m)

def addArguments (m : MessageStore) (arguments : List Argument) : Option MessageStore :=
  addArgumentsFrom arguments arguments m

/-- The objects that `addArguments:` adds for one argument. -/
def added (arguments : List Argument) : Argument → List Argument
  | .value v => [.value v]
  | .array _ => arguments

/-- `m` stores the objects `os`. -/
structure Stores (m : MessageStore) (os : List Argument) : Prop where
  count : m.valueCount = os.length
  single : os.length < 2 → m.value = os.head? ∧ m.valueArray = none
  several : 2 ≤ os.length → m.value = none ∧ m.valueArray = some os

/-- What the arguments stand for: their values, left to right. -/
def flattened (arguments : List Argument) : List Argument :=
  (arguments.flatMap Argument.values).map .value

/-- The objects that are added are the values of the arguments. -/
def Flattens (m : MessageStore) (before arguments : List Argument) : Prop :=
  ∃ m', m.addArguments arguments = some m' ∧ m'.values = before ++ flattened arguments

/-! ## Storage -/

theorem stores_empty : empty.Stores [] where
  count := rfl
  single := fun _ => ⟨rfl, rfl⟩
  several := fun h => absurd h (by simp)

/-- Adding an object appends it to the objects stored. -/
theorem Stores.addValue {m : MessageStore} {os : List Argument} (h : m.Stores os)
    (n : Argument) : (m.addValue n).Stores (os ++ [n]) := by
  unfold MessageStore.addValue
  match os with
  | [] =>
    have hzero : m.valueCount = 0 := h.count
    rw [if_pos hzero]
    refine ⟨by simp [hzero], fun _ => ⟨rfl, (h.single (by simp)).2⟩, fun hlen => ?_⟩
    simp at hlen
  | [o] =>
    have hone : m.valueCount = 1 := h.count
    rcases h.single (by simp) with ⟨hvalue, harray⟩
    rw [if_neg (by omega), harray]
    refine ⟨by simp [hone], fun hlen => ?_, fun _ => ⟨rfl, by simp [hvalue]⟩⟩
    simp at hlen
  | o :: o' :: rest =>
    have hmany : m.valueCount = rest.length + 2 := h.count
    rcases h.several (by simp) with ⟨hvalue, harray⟩
    rw [if_neg (by omega), harray]
    refine ⟨by simp [hmany], fun hlen => ?_, fun _ => ⟨hvalue, rfl⟩⟩
    simp only [List.length_append, List.length_cons] at hlen
    omega

theorem Stores.foldl {m : MessageStore} {os : List Argument} (h : m.Stores os)
    (ns : List Argument) : (ns.foldl MessageStore.addValue m).Stores (os ++ ns) := by
  induction ns generalizing m os with
  | nil => simpa using h
  | cons n ns ih =>
    have hstep := ih (h.addValue n)
    rwa [List.append_assoc, List.singleton_append] at hstep

theorem Stores.values_eq {m : MessageStore} {os : List Argument} (h : m.Stores os) :
    m.values = os := by
  unfold values
  match os with
  | [] =>
    rcases h.single (by simp) with ⟨hvalue, harray⟩
    simp [hvalue, harray]
  | [o] =>
    rcases h.single (by simp) with ⟨hvalue, -⟩
    simp [hvalue, h.count]
  | o :: o' :: rest =>
    rcases h.several (by simp) with ⟨hvalue, harray⟩
    simp [hvalue, harray]

/-! ## The loops -/

theorem assertArray_of_wellFormed {array : List OSCValue}
    (h : (Argument.array array).wellFormed = true) : assertArray array = some () := by
  have hbounds : array.head? = some .arrayOpen ∧ array.getLast? = some .arrayClose := by
    simpa [Argument.wellFormed] using h
  unfold assertArray
  rw [← List.head?_eq_getElem?, hbounds.1]
  simp [hbounds.2]

/-- Each argument adds its objects, one after the other. -/
theorem addArgumentsFrom_stores {m : MessageStore} {os : List Argument} (h : m.Stores os)
    (arguments : List Argument) {rest : List Argument}
    (hrest : ∀ argument ∈ rest, argument.wellFormed = true) :
    ∃ m', addArgumentsFrom arguments rest m = some m' ∧
      m'.Stores (os ++ rest.flatMap (added arguments)) := by
  induction rest generalizing m os with
  | nil => exact ⟨m, rfl, by simpa using h⟩
  | cons argument rest ih =>
    have htail : ∀ argument ∈ rest, argument.wellFormed = true := fun argument hmem =>
      hrest argument (List.mem_cons_of_mem _ hmem)
    rw [List.flatMap_cons, ← List.append_assoc]
    cases argument with
    | value v => exact ih (h.addValue (.value v)) htail
    | array array =>
      rw [addArgumentsFrom, assertArray_of_wellFormed (hrest _ List.mem_cons_self)]
      exact ih (h.foldl arguments) htail

theorem added_eq_of_not_isArray {arguments : List Argument} {argument : Argument}
    (h : argument.isArray = false) :
    added arguments argument = argument.values.map .value := by
  cases argument with
  | value v => rfl
  | array array => cases h

/-- The values of a list of arguments are added, each in its place, exactly if none of the
arguments is an array: for an array the whole list is added, with the array in it as one
object. -/
theorem addArguments_flattens_iff (m : MessageStore) (before arguments : List Argument)
    (hm : m.Stores before) (h : ∀ argument ∈ arguments, argument.wellFormed = true) :
    m.Flattens before arguments ↔ ∀ argument ∈ arguments, argument.isArray = false := by
  obtain ⟨m', hrun, hstores⟩ := addArgumentsFrom_stores hm arguments h
  have hiff : m.Flattens before arguments ↔
      arguments.flatMap (added arguments) = flattened arguments := by
    unfold Flattens
    constructor
    · intro hflattens
      obtain ⟨m'', hrun', hvalues⟩ := hflattens
      have heq : m' = m'' := Option.some.inj (hrun.symm.trans hrun')
      rw [← heq, hstores.values_eq] at hvalues
      exact List.append_cancel_left hvalues
    · intro heq
      exact ⟨m', hrun, by rw [hstores.values_eq, heq]⟩
  rw [hiff]
  constructor
  · -- an array is added as an object, and no value is an array
    intro heq argument hmem
    by_contra harray
    rw [Bool.not_eq_false] at harray
    have hadded : argument ∈ arguments.flatMap (added arguments) := by
      rw [List.mem_flatMap]
      refine ⟨argument, hmem, ?_⟩
      cases argument with
      | value v => cases harray
      | array array => exact hmem
    rw [heq, flattened, List.mem_map] at hadded
    obtain ⟨v, -, hv⟩ := hadded
    rw [← hv] at harray
    cases harray
  · intro hvalues
    unfold flattened
    rw [List.map_flatMap]
    exact List.flatMap_congr fun argument hmem => added_eq_of_not_isArray (hvalues argument hmem)

theorem addArguments_flattens_two :
    empty.Flattens [] [.value (.int 1#32), .value (.int 2#32)] :=
  (addArguments_flattens_iff empty [] _ stores_empty (by decide)).mpr (by decide)

/-- An array between two values. -/
theorem addArguments_not_flattens :
    ¬ ∀ (m : MessageStore) (before arguments : List Argument), m.Stores before →
      (∀ argument ∈ arguments, argument.wellFormed = true) → m.Flattens before arguments := by
  intro h
  obtain ⟨m, hrun, hvalues⟩ := h empty []
    [.value (.int 1#32), .array [.arrayOpen, .int 2#32, .arrayClose], .value (.int 3#32)]
    stores_empty (by decide)
  rw [← Option.some.inj hrun] at hvalues
  revert hvalues
  decide

/-! ## The message -/

/-- A message as a store of objects. -/
def ofMessage (m : OSCMessage) : MessageStore where
  valueCount := m.valueCount
  value := m.value.map .value
  valueArray := m.valueArray.map (List.map .value)

theorem ofMessage_addValue (m : OSCMessage) (v : OSCValue) :
    ofMessage (m.addValue v) = (ofMessage m).addValue (.value v) := by
  unfold OSCMessage.addValue addValue
  by_cases hcount : m.valueCount = 0
  · simp [hcount, ofMessage]
  · cases harray : m.valueArray with
    | none => cases hvalue : m.value <;> simp [hcount, harray, hvalue, ofMessage]
    | some a => simp [hcount, harray, ofMessage]

/-- A list of values is added one after the other. -/
theorem addArguments_values (m : OSCMessage) (vs : List OSCValue) :
    (ofMessage m).addArguments (vs.map .value) = some (ofMessage (vs.foldl OSCMessage.addValue m)) := by
  unfold addArguments
  have hfrom : ∀ arguments, addArgumentsFrom arguments (vs.map .value) (ofMessage m) =
      some (ofMessage (vs.foldl OSCMessage.addValue m)) := by
    intro arguments
    induction vs generalizing m with
    | nil => rfl
    | cons v vs ih =>
      rw [List.map_cons, addArgumentsFrom, ← ofMessage_addValue]
      exact ih _
  exact hfrom _

end MessageStore

end PoopWorms.Osc
