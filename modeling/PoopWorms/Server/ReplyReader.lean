import PoopWorms.Lib.PreorderTrees
import PoopWorms.Server.ScPacketTheorems
import PoopWorms.Server.World

/-!
# Reading a reply

What a client can find out from the bytes of a reply: the address, the items that the tags tell
apart, and from the items of `/g_queryTree.reply` the tree. Nothing here is taken from the
server.
-/

namespace PoopWorms.Server

open Octets Osc ScPacket PreorderTrees

namespace Reply

/-! ## Messages -/

/-- A string, and what stands behind the word it ends in. -/
def readString (l : List Byte) : List Byte × List Byte :=
  (l.takeWhile (· ≠ 0#8), l.drop (((l.takeWhile (· ≠ 0#8)).length / 4 + 1) * 4))

/-- A word, and what stands behind it. -/
def readWord : List Byte → Option (Word × List Byte)
  | a :: b :: c :: d :: l => some (swap32 (leWord a b c d), l)
  | _ => none

/-- The item that a tag stands for. -/
def readItem (tag : Byte) (l : List Byte) : Option (Item × List Byte) :=
  if tag = chr 'i' then (readWord l).map fun x => (.int x.1, x.2)
  else if tag = chr 'f' then (readWord l).map fun x => (.float x.1, x.2)
  else if tag = chr 's' then some (.string (readString l).1, (readString l).2)
  else none

/-- One item for each tag, and nothing behind them. -/
def readItems : List Byte → List Byte → Option (List Item)
  | [], [] => some []
  | [], _ :: _ => none
  | tag :: tags, l => do
    let (x, l) ← readItem tag l
    let items ← readItems tags l
    return x :: items

/-- The address and the items of a message. -/
def readMessage (l : List Byte) : Option (List Byte × List Item) :=
  match readString (readString l).2 with
  | (comma :: tags, data) =>
    if comma = chr ',' then (readItems tags data).map fun items => ((readString l).1, items)
    else none
  | _ => none

theorem readString_padded {s : List Byte} (h : ∀ b ∈ s, b ≠ 0#8) (l : List Byte) :
    readString (padded s ++ l) = (s, l) := by
  have hlen : (s.length / 4 + 1) * 4 = (padded s).length := (length_padded s).symm
  unfold readString
  rw [takeWhile_padded h, hlen, List.drop_left]

theorem readWord_beBytes (u : Word) (l : List Byte) :
    readWord (OSCValue.beBytes u ++ l) = some (u, l) := by
  have hword : swap32 (leWord ((swap32 u).extractLsb' 0 8) ((swap32 u).extractLsb' 8 8)
      ((swap32 u).extractLsb' 16 8) ((swap32 u).extractLsb' 24 8)) = u := by
    rw [leWord_extract, swap32_swap32]
  exact congrArg (fun x => some (x, l)) hword

/-- No string has a NUL in it. -/
def Plain (items : List Item) : Prop := ∀ s, Item.string s ∈ items → ∀ b ∈ s, b ≠ 0#8

theorem readItem_data {x : Item} (h : Plain [x]) (l : List Byte) :
    readItem x.tag (x.data ++ l) = some (x, l) := by
  unfold readItem
  cases x with
  | int i =>
    rw [show (Item.int i).tag = chr 'i' from rfl, if_pos rfl]
    show (readWord (OSCValue.beBytes i ++ l)).map _ = _
    rw [readWord_beBytes]
    rfl
  | float f =>
    rw [show (Item.float f).tag = chr 'f' from rfl, if_neg (by decide), if_pos rfl]
    show (readWord (OSCValue.beBytes f ++ l)).map _ = _
    rw [readWord_beBytes]
    rfl
  | string s =>
    rw [show (Item.string s).tag = chr 's' from rfl, if_neg (by decide), if_neg (by decide),
      if_pos rfl]
    show some (Item.string (readString (padded s ++ l)).1, (readString (padded s ++ l)).2) = _
    rw [readString_padded (h s List.mem_cons_self)]

theorem readItems_itemBytes {items : List Item} (h : Plain items) :
    readItems (items.map Item.tag) (itemBytes items) = some items := by
  induction items with
  | nil => rfl
  | cons x items ih =>
    have hx : Plain [x] := fun s hs => h s (by simp at hs; simp [hs])
    have hitems : Plain items := fun s hs => h s (List.mem_cons_of_mem _ hs)
    simp only [List.map_cons, itemBytes_cons, readItems, readItem_data hx, ih hitems,
      Option.bind_eq_bind, Option.bind_some]
    rfl

theorem tag_ne_zero (x : Item) : x.tag ≠ 0#8 := by
  cases x with
  | int i => exact (by decide : chr 'i' ≠ 0#8)
  | float f => exact (by decide : chr 'f' ≠ 0#8)
  | string s => exact (by decide : chr 's' ≠ 0#8)

/-- The tags are those of the items: then all is read back. -/
theorem readMessage_encode {address : List Byte} (haddress : ∀ b ∈ address, b ≠ 0#8)
    {items : List Item} (h : Plain items) :
    readMessage (encode address (chr ',' :: items.map Item.tag) items) =
      some (address, items) := by
  have htags : ∀ b ∈ chr ',' :: items.map Item.tag, b ≠ 0#8 := by
    intro b hb
    rcases List.mem_cons.mp hb with rfl | hb
    · decide
    · obtain ⟨x, -, rfl⟩ := List.mem_map.mp hb
      exact tag_ne_zero x
  unfold readMessage encode
  rw [List.append_assoc, readString_padded haddress, readString_padded htags]
  simp only [if_true, readItems_itemBytes h]
  rfl

/-! ## Nodes -/

/-- What is reported of a node; a control has a name, or an index, and a value. -/
inductive Reported
  | group (mID : NodeID)
  | synth (mID : NodeID) (mName : List Byte) (controls : List (Item × Item))

def takeInt : List Item → Option (Word × List Item)
  | .int i :: items => some (i, items)
  | _ => none

def takeString : List Item → Option (List Byte × List Item)
  | .string s :: items => some (s, items)
  | _ => none

def takeControls : ℕ → List Item → Option (List (Item × Item) × List Item)
  | 0, items => some ([], items)
  | n + 1, name :: value :: items => do
    let (controls, items) ← takeControls n items
    return ((name, value) :: controls, items)
  | _ + 1, _ => none

/-- A node, with the number of its children; that of a synth is -1. -/
def takeNode (withControls : Bool) (items : List Item) :
    Option ((Reported × ℕ) × List Item) := do
  let (mID, items) ← takeInt items
  let (numChildren, items) ← takeInt items
  if numChildren = -1#32 then
    let (mName, items) ← takeString items
    if withControls then
      let (numControls, items) ← takeInt items
      let (controls, items) ← takeControls numControls.toNat items
      return ((.synth mID mName controls, 0), items)
    else return ((.synth mID mName [], 0), items)
  else return ((.group mID, numChildren.toNat), items)

def takeNodes (withControls : Bool) : ℕ → List Item → Option (List (Reported × ℕ))
  | _, [] => some []
  | 0, _ :: _ => none
  | fuel + 1, x :: items => do
    let (node, items) ← takeNode withControls (x :: items)
    let nodes ← takeNodes withControls fuel items
    return node :: nodes

/-- The tree that a reply describes, and whether it has the controls. -/
def readTree (l : List Byte) : Option (Bool × Trees Reported) := do
  let (address, items) ← readMessage l
  if address = (CString.ofString "/g_queryTree.reply").bytes then
    let (flag, items) ← takeInt items
    let nodes ← takeNodes (flag ≠ 0#32) items.length items
    let tree ← Trees.parse nodes
    return (flag ≠ 0#32, tree)
  else none

/-- The items of a node. -/
def nodeItems (withControls : Bool) : Reported × ℕ → List Item
  | (.group mID, n) => [.int mID, .int (BitVec.ofNat 32 n)]
  | (.synth mID mName controls, _) =>
    [.int mID, .int (-1#32), .string mName] ++
      if withControls then
        .int (BitVec.ofNat 32 controls.length) :: controls.flatMap fun c => [c.1, c.2]
      else []

/-- The numbers of a node are 32 bits wide, and controls are there only if they are asked for. -/
def Writable (withControls : Bool) : Reported × ℕ → Prop
  | (.group _, n) => n < 2 ^ 32 - 1
  | (.synth _ _ controls, n) =>
    n = 0 ∧ controls.length < 2 ^ 32 ∧ (withControls = false → controls = [])

theorem length_controls (controls : List (Item × Item)) :
    (controls.flatMap fun c => [c.1, c.2]).length = 2 * controls.length := by
  induction controls with
  | nil => rfl
  | cons c controls ih =>
    rw [List.flatMap_cons, List.length_append, ih]
    show 2 + 2 * controls.length = 2 * (controls.length + 1)
    omega

theorem takeControls_flatMap (controls : List (Item × Item)) (items : List Item) :
    takeControls controls.length ((controls.flatMap fun c => [c.1, c.2]) ++ items) =
      some (controls, items) := by
  induction controls with
  | nil => rfl
  | cons c controls ih =>
    rw [List.length_cons, List.flatMap_cons, List.append_assoc]
    show (takeControls controls.length ((controls.flatMap fun c => [c.1, c.2]) ++ items)).bind _ = _
    rw [ih]
    rfl

theorem takeNode_nodeItems {withControls : Bool} {node : Reported × ℕ}
    (h : Writable withControls node) (items : List Item) :
    takeNode withControls (nodeItems withControls node ++ items) = some (node, items) := by
  obtain ⟨report, n⟩ := node
  cases report with
  | group mID =>
    have hn : n < 2 ^ 32 - 1 := h
    have htoNat : (BitVec.ofNat 32 n).toNat = n := Nat.mod_eq_of_lt (by omega)
    have hne : BitVec.ofNat 32 n ≠ -1#32 := by
      intro heq
      have hnat := congrArg BitVec.toNat heq
      rw [htoNat, show (-1#32 : Word).toNat = 2 ^ 32 - 1 from rfl] at hnat
      omega
    simp only [takeNode, nodeItems, takeInt, List.cons_append, List.nil_append,
      Option.bind_eq_bind, Option.bind_some, if_neg hne, htoNat]
    rfl
  | synth mID mName controls =>
    obtain ⟨rfl, hlen, hnone⟩ := h
    cases withControls with
    | true =>
      have hread := takeControls_flatMap controls items
      simp [takeNode, nodeItems, takeInt, takeString, hread,
        Nat.mod_eq_of_lt (show controls.length < 4294967296 by omega)]
    | false =>
      rw [hnone rfl]
      simp [takeNode, nodeItems, takeInt, takeString]

theorem nodeItems_ne_nil (withControls : Bool) (node : Reported × ℕ) :
    ∃ x items, nodeItems withControls node = x :: items := by
  obtain ⟨report, n⟩ := node
  cases report with
  | group mID => exact ⟨_, _, rfl⟩
  | synth mID mName controls => exact ⟨_, _, rfl⟩

theorem takeNodes_flatMap {withControls : Bool} {nodes : List (Reported × ℕ)}
    (h : ∀ node ∈ nodes, Writable withControls node) (fuel : ℕ)
    (hfuel : (nodes.flatMap (nodeItems withControls)).length ≤ fuel) :
    takeNodes withControls fuel (nodes.flatMap (nodeItems withControls)) = some nodes := by
  induction nodes generalizing fuel with
  | nil => cases fuel <;> rfl
  | cons node nodes ih =>
    have htake := takeNode_nodeItems (h node List.mem_cons_self)
      (nodes.flatMap (nodeItems withControls))
    obtain ⟨x, items, hitems⟩ := nodeItems_ne_nil withControls node
    rw [List.flatMap_cons, List.length_append, hitems, List.length_cons] at hfuel
    rw [hitems] at htake
    cases fuel with
    | zero => omega
    | succ fuel =>
      rw [List.flatMap_cons, hitems, List.cons_append, takeNodes]
      rw [List.cons_append] at htake
      have hrest := ih (fun node hnode => h node (List.mem_cons_of_mem _ hnode)) fuel (by omega)
      simp only [htake, hrest, Option.bind_eq_bind, Option.bind_some]
      rfl

end Reply

end PoopWorms.Server
