import PoopWorms.Server.ChildLists
import PoopWorms.Server.NodeRuns

/-!
# The lists of children after `/n_order`

The command puts the first node in its place and every other one behind the one before it.
As a whole it takes the listed nodes out of their lists and puts them in that place as one
block. Beside the root there is no place: there the nodes are lost.
-/

namespace PoopWorms.Server

open Octets Osc Siblings World World.Surgery

namespace NOrder

variable {fpu : FloatUnit} {w w' w₁ : World} {kids : NodeID → List NodeID} {g n p s : NodeID}
  {done nodes ss : List NodeID} {place : Place NodeID} {it : MsgIter}

/-! ## The command -/

/-- The place that the add action and the target of `/n_order` stand for. -/
def orderPlace (addAction : Word) (target : NodeID) : Option (Place NodeID) :=
  if addAction = 0#32 then some (.head target)
  else if addAction = 1#32 then some (.tail target)
  else if addAction = 2#32 then some (.before target)
  else if addAction = 3#32 then some (.after target)
  else none

/-- The message asks for `nodes` to be put in `place`. -/
def Asks (w : World) (it : MsgIter) (place : Place NodeID) (nodes : List NodeID) : Prop :=
  ∃ (addAction targetID target : Word) (ids : List Word),
    it.At (.int addAction :: .int targetID :: ids.map .int) ∧
    w.getNode targetID = some target ∧ orderPlace addAction target = some place ∧
    ids.map w.getNode = nodes.map some

/-- The target is what the add action asks for. -/
def Takes (w : World) (place : Place NodeID) : Prop :=
  match place with
  | .head group => IsGroup w group
  | .tail group => IsGroup w group
  | .before target => target ∈ w.mNodeLib
  | .after target => target ∈ w.mNodeLib

/-- The listed nodes stand one behind the other in their place. -/
def StandIn (w : World) (place : Place NodeID) (nodes : List NodeID) : Prop :=
  match place with
  | .head group => IsGroup w group ∧ ∃ rest, w.children group = nodes ++ rest
  | .tail group => IsGroup w group ∧ ∃ rest, w.children group = rest ++ nodes
  | .before target => ∃ g l₁ l₂, IsGroup w g ∧ w.children g = l₁ ++ nodes ++ target :: l₂
  | .after target => ∃ g l₁ l₂, IsGroup w g ∧ w.children g = l₁ ++ target :: nodes ++ l₂

/-- From `w` to `w'` the listed nodes have come to their place, and the others are in the lists
and in the order they were in. -/
structure Ordered (w w' : World) (place : Place NodeID) (nodes : List NodeID) : Prop where
  tree : IsTree w'
  table : w'.mNodeLib = w.mNodeLib
  inPlace : nodes ≠ [] → StandIn w' place nodes
  others : ∀ g, IsGroup w' g → takeOut nodes (w'.children g) = takeOut nodes (w.children g)

def moveTo (w : World) (place : Place NodeID) (s : NodeID) : World :=
  match place with
  | .head group => w.moveToHead group s
  | .tail group => w.moveToTail group s
  | .before target => w.moveBefore s target
  | .after target => w.moveAfter s target

/-- The second loop of `/n_order`, on the nodes that it finds. -/
def orderNodes : World → NodeID → List NodeID → World
  | w, _, [] => w
  | w, prevNode, node :: nodes => orderNodes (w.moveAfter node prevNode) node nodes

/-- `/n_order` on the nodes that it finds, the first of which it puts by itself. -/
def orderAll (w : World) (put : World → NodeID → World) : List NodeID → World × SCErr
  | [] => (w, .nodeNotFound)
  | node :: nodes => (orderNodes (put w node) node nodes, .none)

theorem getNode_of_sameTable (h : SameTable w w') : w'.getNode = w.getNode := by
  funext inID
  unfold World.getNode
  rw [h.table, h.recent]

theorem length_le_size {ids : List Word} (h : it.At (ids.map .int)) : ids.length ≤ it.size := by
  have hlen : ∀ ids : List Word, (dataBlock (ids.map .int)).length = 4 * ids.length := by
    intro ids
    induction ids with
    | nil => rfl
    | cons id ids ih =>
      rw [List.map_cons, dataBlock_cons, List.length_append, ih, OSCValue.length_data,
        List.length_cons]
      show 4 + 4 * ids.length = 4 * (ids.length + 1)
      omega
  have hremain := h.remain_eq
  rw [hlen ids] at hremain
  unfold MsgIter.remain at hremain
  omega

theorem orderFrom_at {ids : List Word} (h : it.At (ids.map .int))
    (hids : ids.map w.getNode = nodes.map some) (fuel : ℕ) (hfuel : ids.length < fuel) :
    orderFrom fpu fuel w p it = some (orderNodes w p nodes) := by
  induction ids generalizing w p it nodes fuel with
  | nil =>
    obtain rfl := List.map_eq_nil_iff.mp hids.symm
    cases fuel with
    | zero => simp at hfuel
    | succ fuel => exact if_pos h.remain_nil
  | cons id ids ih =>
    cases fuel with
    | zero => simp at hfuel
    | succ fuel =>
      cases nodes with
      | nil => cases hids
      | cons node nodes =>
        obtain ⟨hid, hrest⟩ := List.cons.inj hids
        have hremain : ¬ it.remain = 0 := fun heq => h.remain_pos (Nat.zero_lt_succ 3) heq.le
        have hsame := getNode_of_sameTable (sameTable_moveAfter w node p)
        rw [orderFrom, if_neg hremain, msgGetNode_at h, hid]
        exact ih h.advance_int (by rw [hsame]; exact hrest) fuel
          (by rw [List.length_cons] at hfuel; omega)

theorem firstNode_at {id : Word} {vs : List OSCValue} (h : it.At (.int id :: vs))
    (hid : w.getNode id = some s) (fuel : ℕ) :
    firstNode fpu w (fuel + 1) it = some (some s, (it.skip 4).next) := by
  have hremain : ¬ it.remain = 0 := fun heq => h.remain_pos (Nat.zero_lt_succ 3) heq.le
  rw [firstNode, if_neg hremain, msgGetNode_at h, hid]
  rfl

/-- What the four cases of `/n_order` share. -/
theorem nOrderAt_at {ids : List Word} {target : NodeID} {notFound : SCErr}
    {put : World → NodeID → NodeID → World} (h : it.At (ids.map .int))
    (hids : ids.map w.getNode = nodes.map some) (hput : ∀ s, SameTable w (put w target s)) :
    nOrderAt fpu w (some target) notFound put it =
      some (orderAll w (fun w s => put w target s) nodes) := by
  cases nodes with
  | nil =>
    obtain rfl := List.map_eq_nil_iff.mp hids
    have hfirst : firstNode fpu w (it.size + 1) it = some (none, it) := if_pos h.remain_nil
    unfold nOrderAt
    dsimp only
    rw [hfirst]
    rfl
  | cons node nodes =>
    cases ids with
    | nil => cases hids
    | cons id ids =>
      obtain ⟨hid, hrest⟩ := List.cons.inj hids
      have hnext : ((it.skip 4).next).At (ids.map .int) := h.advance_int
      have horder : orderFrom fpu (((it.skip 4).next).size + 1) (put w target node) node
          ((it.skip 4).next) = some (orderNodes (put w target node) node nodes) := by
        apply orderFrom_at hnext
        · rw [getNode_of_sameTable (hput node)]
          exact hrest
        · have hsize := length_le_size hnext
          omega
      unfold nOrderAt
      dsimp only
      rw [firstNode_at h hid]
      simp only [Option.bind_eq_bind, Option.bind_some, horder]
      rfl

theorem sameTable_moveTo (w : World) (place : Place NodeID) (s : NodeID) :
    SameTable w (moveTo w place s) := by
  cases place with
  | head group => exact sameTable_moveToHead w group s
  | tail group => exact sameTable_moveToTail w group s
  | before target => exact sameTable_moveBefore w s target
  | after target => exact sameTable_moveAfter w s target

theorem getGroup_eq_filter (hget : w.getNode n = some g) :
    w.getGroup n = if (w.mNode g).mIsGroup then some g else none := by
  unfold World.getGroup
  rw [hget]

/-- The command does to the table what it does to the nodes that the message lists. -/
theorem methNOrder_asks (hasks : Asks w it place nodes) (htakes : Takes w place) :
    methNOrder fpu w it = some (orderAll w (fun w s => moveTo w place s) nodes) := by
  obtain ⟨addAction, targetID, target, ids, h, htarget, hplace, hids⟩ := hasks
  have h₁ : ((it.skip 4).next).At (.int targetID :: ids.map .int) := h.advance_int
  have h₂ : ((((it.skip 4).next).skip 4).next).At (ids.map .int) := h₁.advance_int
  have hput := sameTable_moveTo w place
  unfold orderPlace at hplace
  unfold methNOrder
  rw [h.geti]
  simp only [Option.bind_eq_bind, Option.bind_some]
  split_ifs at hplace with h0 h1 h2 h3
  · obtain rfl := Option.some.inj hplace
    rw [if_pos h0, msgGetGroup_at h₁, getGroup_eq_filter htarget, if_pos htakes.2]
    show nOrderAt fpu w (some target) .groupNotFound moveToHead _ = _
    exact nOrderAt_at h₂ hids hput
  · obtain rfl := Option.some.inj hplace
    rw [if_neg h0, if_pos h1, msgGetGroup_at h₁, getGroup_eq_filter htarget, if_pos htakes.2]
    show nOrderAt fpu w (some target) .groupNotFound moveToTail _ = _
    exact nOrderAt_at h₂ hids hput
  · obtain rfl := Option.some.inj hplace
    rw [if_neg h0, if_neg h1, if_pos h2, msgGetNode_at h₁, htarget]
    show nOrderAt fpu w (some target) .targetNodeNotFound (fun w t s => w.moveBefore s t) _ = _
    exact nOrderAt_at h₂ hids hput
  · obtain rfl := Option.some.inj hplace
    rw [if_neg h0, if_neg h1, if_neg h2, if_pos h3, msgGetNode_at h₁, htarget]
    show nOrderAt fpu w (some target) .targetNodeNotFound (fun w t s => w.moveAfter s t) _ = _
    exact nOrderAt_at h₂ hids hput

/-! ## The lists -/

/-- The place is beside the root, which is in no list. -/
def BesideRoot (place : Place NodeID) : Prop := place = .before 0#32 ∨ place = .after 0#32

/-- In `w₁` the nodes `done` have been taken out of their lists in `w` and put in their place. -/
structure Ordering (w w₁ : World) (place : Place NodeID) (done : List NodeID) : Prop where
  tree : IsTree w₁
  same : SameTable w w₁
  lists : ∀ g, IsGroup w g → w₁.children g = place.put done g (takeOut done (w.children g))

theorem isGroup_iff (h : SameTable w w') (g : NodeID) : IsGroup w' g ↔ IsGroup w g := by
  unfold IsGroup
  rw [h.table, h.group]

theorem mParent_ne_none (h : IsTree w) (hn : n ∈ w.mNodeLib) (hn0 : n ≠ 0#32) :
    (w.mNode n).mParent ≠ none := by
  obtain ⟨kids, all, h⟩ := h
  obtain ⟨p, l₁, l₂, hkids⟩ := h.exists_cut hn hn0
  rw [(h.mem p n (by simp [hkids])).2.2]
  simp

theorem ordering_of_refines {op : Surgery} (hrefines : op.Refines w w₁) (htree : IsTree w₁)
    (hsame : SameTable w w₁) (hlist : ∀ g l, op.onList w g l = place.put [s] g (takeOut [s] l)) :
    Ordering w w₁ place [s] := by
  refine ⟨htree, hsame, fun g hg => ?_⟩
  rw [hrefines.lists g ((isGroup_iff hsame g).mpr hg), hlist]

/-- The first node comes to its place. -/
theorem ordering_moveTo (h : IsTree w) (htakes : Takes w place) (hroot : ¬ BesideRoot place)
    (hs : s ∈ w.mNodeLib) (hwithin : ¬ w.Within s place.target) :
    Ordering w (moveTo w place s) place [s] := by
  have hsame := sameTable_moveTo w place s
  have htree := h
  obtain ⟨kids, all, hrooted⟩ := h
  cases place with
  | head group =>
    exact ordering_of_refines (groupAddHead_refines (.inl htree) hs htakes hwithin)
      (hrooted.groupAddHead htakes.1 htakes.2 hs (.inr hwithin)) hsame fun _ _ => rfl
  | tail group =>
    exact ordering_of_refines (groupAddTail_refines (.inl htree) hs htakes hwithin)
      (hrooted.groupAddTail htakes.1 htakes.2 hs (.inr hwithin)) hsame fun _ _ => rfl
  | before target =>
    have htarget : target ≠ 0#32 := by
      rintro rfl
      exact hroot (.inl rfl)
    exact ordering_of_refines (nodeAddBefore_refines (.inl htree)
      ⟨hs, htakes, mParent_ne_none htree htakes htarget, hwithin⟩)
      (hrooted.nodeAddBefore hs htakes (.inr ⟨htarget, hwithin⟩)) hsame fun _ _ => rfl
  | after target =>
    have htarget : target ≠ 0#32 := by
      rintro rfl
      exact hroot (.inr rfl)
    exact ordering_of_refines (nodeAddAfter_refines (.inl htree)
      ⟨hs, htakes, mParent_ne_none htree htakes htarget, hwithin⟩)
      (hrooted.nodeAddAfter hs htakes (.inr ⟨htarget, hwithin⟩)) hsame fun _ _ => rfl

theorem Takes.mem (h : Takes w place) : place.target ∈ w.mNodeLib := by
  cases place with
  | head group => exact h.1
  | tail group => exact h.1
  | before target => exact h
  | after target => exact h

section Step

variable (h : IsTree w) (hord : Ordering w w₁ place done) (htakes : Takes w place)
  (hdone : ∀ d ∈ done, d ∈ w.mNodeLib ∧ ¬ w.Within d place.target)

include h hord

/-- A node that is not listed keeps its parent. -/
theorem Ordering.mParent_iff (hn : n ∈ w.mNodeLib) (hnd : n ∉ done) :
    (w₁.mNode n).mParent = some g ↔ (w.mNode n).mParent = some g := by
  rw [hord.tree.mParent_eq_some_iff (hord.same.table ▸ hn), h.mParent_eq_some_iff hn,
    isGroup_iff hord.same]
  apply and_congr_right
  intro hg
  rw [hord.lists g hg, Place.mem_put, mem_takeOut]
  simp [hnd]

include hdone in
/-- What was above the target is all that is above it now. -/
theorem Ordering.within_target (htarget : place.target ∈ w.mNodeLib)
    (hwithin : w₁.Within s place.target) : w.Within s place.target := by
  have hchain : s ∈ w.mNodeLib ∧ w.Within s place.target := by
    induction hwithin with
    | refl => exact ⟨htarget, .refl⟩
    | @tail x y _ hparent ih =>
      obtain ⟨hx, hxt⟩ := ih
      have hxd : x ∉ done := fun hmem => (hdone x hmem).2 hxt
      have hparent' := (hord.mParent_iff h hx hxd).mp hparent
      exact ⟨((h.mParent_eq_some_iff hx).mp hparent').1.1, hxt.tail hparent'⟩
  exact hchain.2

include hdone htakes in
/-- No other node is above a listed one that stands in its place, but what is above the target. -/
theorem Ordering.not_within (hp : p ∈ done) (hs : s ∉ done) (hwithin : ¬ w.Within s place.target) :
    ¬ w₁.Within s p := by
  intro hps
  have hplib := (hdone p hp).1
  rcases hps.cases_head with rfl | ⟨q, hparent, hqs⟩
  · exact hs hp
  · apply hwithin
    apply hord.within_target h hdone htakes.mem
    obtain ⟨hq, hpq⟩ := (hord.tree.mParent_eq_some_iff (hord.same.table ▸ hplib)).mp hparent
    rw [isGroup_iff hord.same] at hq
    rw [hord.lists q hq, Place.mem_put, mem_takeOut] at hpq
    -- the place is in the list of the parent
    have hin := (hpq.resolve_left fun hmem => hmem.2 hp).2
    have htd : place.target ∉ done := fun hmem => (hdone _ hmem).2 .refl
    have hnext : place.target ∈ takeOut done (w.children q) → w₁.Within s place.target := by
      intro hmem
      have hparent' : (w.mNode place.target).mParent = some q :=
        (h.mParent_eq_some_iff htakes.mem).mpr ⟨hq, (mem_takeOut.mp hmem).1⟩
      exact .head ((hord.mParent_iff h htakes.mem htd).mpr hparent') hqs
    cases place with
    | head group => exact hin ▸ hqs
    | tail group => exact hin ▸ hqs
    | before target => exact hnext hin
    | after target => exact hnext hin

end Step

/-- The next node comes behind the one before it. -/
theorem Ordering.step (h : IsTree w) (hord : Ordering w w₁ place (done ++ [p]))
    (htakes : Takes w place)
    (hdone : ∀ d ∈ done ++ [p], d ∈ w.mNodeLib ∧ ¬ w.Within d place.target) (hpd : p ∉ done)
    (hs : s ∈ w.mNodeLib) (hsd : s ∉ done ++ [p]) (hwithin : ¬ w.Within s place.target) :
    Ordering w (w₁.moveAfter s p) place (done ++ [p] ++ [s]) := by
  have hp : p ∈ done ++ [p] := by simp
  have hs₁ : s ∈ w₁.mNodeLib := hord.same.table ▸ hs
  have hp₁ : p ∈ w₁.mNodeLib := hord.same.table ▸ (hdone p hp).1
  have hwithin₁ := hord.not_within h htakes hdone hp hsd hwithin
  have hp0 : p ≠ 0#32 := by
    rintro rfl
    exact absurd rfl (ne_root_of_not_within (.inl h) htakes.mem (hdone _ hp).2)
  have hrefines := nodeAddAfter_refines (.inl hord.tree)
    ⟨hs₁, hp₁, mParent_ne_none hord.tree hp₁ hp0, hwithin₁⟩
  have hmove := sameTable_moveAfter w₁ s p
  have hsame : SameTable w (w₁.moveAfter s p) :=
    ⟨hmove.table.trans hord.same.table, hmove.hidden.trans hord.same.hidden,
      fun n => (hmove.group n).trans (hord.same.group n), hmove.recent.trans hord.same.recent⟩
  obtain ⟨kids₁, all₁, hrooted⟩ := hord.tree
  refine ⟨hrooted.nodeAddAfter hs₁ hp₁ (.inr ⟨hp0, hwithin₁⟩), hsame, fun g hg => ?_⟩
  have hlist : (w₁.moveAfter s p).children g = insertAfter p [s] (takeOut [s] (w₁.children g)) :=
    hrefines.lists g ((isGroup_iff hsame g).mpr hg)
  have htarget : place.target ∉ [s] := by
    rw [List.mem_singleton]
    intro heq
    exact hwithin (heq ▸ .refl)
  have hblock : ∀ x ∈ done ++ [p], x ∉ [s] := by
    intro x hx hxs
    exact hsd (List.mem_singleton.mp hxs ▸ hx)
  rw [hlist, hord.lists g hg, Place.takeOut_put hblock htarget, takeOut_takeOut,
    Place.insertAfter_put (by simp) hpd, List.append_assoc]
  rfl

/-- All nodes come to their place. -/
theorem Ordering.run (h : IsTree w) (htakes : Takes w place)
    (hord : Ordering w w₁ place (done ++ [p])) (hnodup : (done ++ p :: ss).Nodup)
    (hall : ∀ s ∈ done ++ p :: ss, s ∈ w.mNodeLib ∧ ¬ w.Within s place.target) :
    Ordering w (orderNodes w₁ p ss) place (done ++ p :: ss) := by
  induction ss generalizing w₁ done p with
  | nil => exact hord
  | cons s ss ih =>
    have hcons : done ++ p :: s :: ss = (done ++ [p]) ++ s :: ss := by simp
    rw [hcons] at hnodup hall ⊢
    have hfirst : ∀ d ∈ done ++ [p], d ∈ w.mNodeLib ∧ ¬ w.Within d place.target :=
      fun d hd => hall d (List.mem_append_left _ hd)
    obtain ⟨hnd, -, hdisjoint⟩ := List.nodup_append.mp hnodup
    have hpd : p ∉ done := fun hmem => (List.nodup_append.mp hnd).2.2 p hmem p (by simp) rfl
    have hsd : s ∉ done ++ [p] := fun hmem => hdisjoint s hmem s (by simp) rfl
    obtain ⟨hs, hwithin⟩ := hall s (by simp)
    exact ih (hord.step h htakes hfirst hpd hs hsd hwithin) hnodup hall

/-- A target that has a parent is in one list, once. -/
theorem exists_children_cut (h : IsTree w) (hn : n ∈ w.mNodeLib) (hn0 : n ≠ 0#32) :
    ∃ g l₁ l₂, IsGroup w g ∧ w.children g = l₁ ++ n :: l₂ ∧ n ∉ l₁ ∧ n ∉ l₂ := by
  obtain ⟨kids, all, h⟩ := h
  obtain ⟨g, l₁, l₂, hkids⟩ := h.exists_cut hn hn0
  have hg := h.parent_mem hkids
  have hnd := h.nodup g
  rw [hkids, List.nodup_middle, List.nodup_cons, List.mem_append, not_or] at hnd
  exact ⟨g, l₁, l₂, hg, (h.toTree.children_eq hg.1 hg.2).trans hkids, hnd.1⟩

theorem Ordering.ordered (h : IsTree w) (hord : Ordering w w₁ place nodes) (htakes : Takes w place)
    (hroot : ¬ BesideRoot place) (htarget : place.target ∉ nodes) : Ordered w w₁ place nodes := by
  refine ⟨hord.tree, hord.same.table, fun _ => ?_, fun g hg => ?_⟩
  · cases place with
    | head group =>
      exact ⟨(isGroup_iff hord.same group).mpr htakes, _,
        (hord.lists group htakes).trans (if_pos rfl)⟩
    | tail group =>
      exact ⟨(isGroup_iff hord.same group).mpr htakes, _,
        (hord.lists group htakes).trans (if_pos rfl)⟩
    | before target =>
      have htarget0 : target ≠ 0#32 := by
        rintro rfl
        exact hroot (.inl rfl)
      have hlisted : target ∉ nodes := htarget
      obtain ⟨g, l₁, l₂, hg, hcut, h₁, h₂⟩ := exists_children_cut h htakes htarget0
      refine ⟨g, takeOut nodes l₁, takeOut nodes l₂, (isGroup_iff hord.same g).mpr hg, ?_⟩
      rw [hord.lists g hg, hcut, takeOut_append, takeOut_cons_of_notMem hlisted, List.append_assoc]
      exact insertBefore_cut (by simp [h₁]) (by simp [h₂])
    | after target =>
      have htarget0 : target ≠ 0#32 := by
        rintro rfl
        exact hroot (.inr rfl)
      have hlisted : target ∉ nodes := htarget
      obtain ⟨g, l₁, l₂, hg, hcut, h₁, h₂⟩ := exists_children_cut h htakes htarget0
      refine ⟨g, takeOut nodes l₁, takeOut nodes l₂, (isGroup_iff hord.same g).mpr hg, ?_⟩
      rw [hord.lists g hg, hcut, takeOut_append, takeOut_cons_of_notMem hlisted]
      exact insertAfter_cut (by simp [h₁]) (by simp [h₂])
  · have hkept : takeOut nodes (takeOut nodes (w.children g)) = takeOut nodes (w.children g) :=
      takeOut_of_notMem fun x hx => (mem_takeOut.mp hx).2
    rw [hord.lists g ((isGroup_iff hord.same g).mp hg), Place.takeOut_put_self fun _ hx => hx,
      hkept]

/-! ## Beside the root -/

theorem mParent_nodeRemove_self (w : World) (s : NodeID) :
    ((w.nodeRemove s).mNode s).mParent = none := by
  unfold World.nodeRemove
  dsimp only
  rw [mNode_unlink_self]

/-- Behind a node that has no parent no other is put. -/
theorem moveAfter_of_loose (hp : (w.mNode p).mParent = none) (hps : p ≠ s) :
    w.moveAfter s p = w.nodeRemove s := by
  unfold moveAfter World.nodeAddAfter
  rw [mParent_nodeRemove w hps, hp]

theorem moveTo_besideRoot (h : Tree w kids) (hroot : BesideRoot place) (hs : s ≠ 0#32) :
    moveTo w place s = w.nodeRemove s := by
  rcases hroot with rfl | rfl
  · show (w.nodeRemove s).nodeAddBefore s 0#32 = w.nodeRemove s
    unfold World.nodeAddBefore
    rw [mParent_nodeRemove w hs.symm, h.root.2.2]
  · exact moveAfter_of_loose h.root.2.2 hs.symm

/-- Each node is unlinked and stays so. -/
theorem orderNodes_loose (h : Tree w kids) (hp : (w.mNode p).mParent = none)
    (hnodup : (p :: ss).Nodup) (hss : ∀ s ∈ ss, s ∈ w.mNodeLib ∧ (w.mNode s).mParent ≠ none) :
    ∃ kids', Tree (orderNodes w p ss) kids' := by
  induction ss generalizing w p kids with
  | nil => exact ⟨kids, h⟩
  | cons s ss ih =>
    obtain ⟨hps, hnd⟩ := List.nodup_cons.mp hnodup
    obtain ⟨hs, hparent⟩ := hss s List.mem_cons_self
    have hps' : p ≠ s := fun heq => hps (heq ▸ List.mem_cons_self)
    rw [orderNodes, moveAfter_of_loose hp hps']
    refine ih (h.nodeRemove hs hparent) (mParent_nodeRemove_self w s) hnd fun x hx => ?_
    have hxs : x ≠ s := by
      rintro rfl
      exact (List.nodup_cons.mp hnd).1 hx
    rw [mParent_nodeRemove w hxs, ((sameTable_refl w).nodeRemove s).table]
    exact hss x (List.mem_cons_of_mem _ hx)

/-- Beside the root nothing stands. -/
theorem not_standIn_besideRoot (h : Tree w kids) (hroot : BesideRoot place) :
    ¬ StandIn w place nodes := by
  have hnone : ∀ g, IsGroup w g → 0#32 ∉ w.children g := by
    intro g hg hmem
    rw [h.children_eq hg.1 hg.2] at hmem
    exact (h.mem g _ hmem).2.1 rfl
  rcases hroot with rfl | rfl
  · rintro ⟨g, l₁, l₂, hg, hcut⟩
    exact hnone g hg (by simp [hcut])
  · rintro ⟨g, l₁, l₂, hg, hcut⟩
    exact hnone g hg (by simp [hcut])

/-! ## The command as a whole -/

theorem Asks.mem (hasks : Asks w it place nodes) (hs : s ∈ nodes) : s ∈ w.mNodeLib := by
  obtain ⟨-, -, -, ids, -, -, -, hids⟩ := hasks
  have hmem : some s ∈ ids.map w.getNode := by
    rw [hids]
    exact List.mem_map_of_mem hs
  obtain ⟨id, -, hid⟩ := List.mem_map.mp hmem
  exact getNode_mem hid

section Command

variable (h : IsTree w) (hasks : Asks w it place nodes) (htakes : Takes w place)
  (hnodup : nodes.Nodup) (hwithin : ∀ s ∈ nodes, ¬ w.Within s place.target)

include h hasks htakes hnodup hwithin

theorem methNOrder_ordered (hplace : nodes = [] ∨ ¬ BesideRoot place) :
    ∃ w' err, methNOrder fpu w it = some (w', err) ∧ Ordered w w' place nodes := by
  rw [methNOrder_asks hasks htakes]
  refine ⟨_, _, rfl, ?_⟩
  cases nodes with
  | nil => exact ⟨h, rfl, fun hne => absurd rfl hne, fun _ _ => rfl⟩
  | cons s ss =>
    have hroot := hplace.resolve_left (List.cons_ne_nil s ss)
    have hfirst := ordering_moveTo h htakes hroot (hasks.mem List.mem_cons_self)
      (hwithin s List.mem_cons_self)
    have hrun : Ordering w (orderNodes (moveTo w place s) s ss) place ([] ++ s :: ss) :=
      Ordering.run h htakes hfirst hnodup fun x hx => ⟨hasks.mem hx, hwithin x hx⟩
    exact hrun.ordered h htakes hroot fun hmem => hwithin _ hmem .refl

/-- Beside the root the command loses the nodes that it lists. -/
theorem methNOrder_not_ordered (hnodes : nodes ≠ []) (hroot : BesideRoot place) {err : SCErr}
    (hrun : methNOrder fpu w it = some (w', err)) : ¬ Ordered w w' place nodes := by
  intro hordered
  rw [methNOrder_asks hasks htakes] at hrun
  have hne : ∀ s ∈ nodes, s ≠ 0#32 := fun s hs =>
    ne_root_of_not_within (.inl h) htakes.mem (hwithin s hs)
  have hparents : ∀ s ∈ nodes, s ∈ w.mNodeLib ∧ (w.mNode s).mParent ≠ none := fun s hs =>
    ⟨hasks.mem hs, mParent_ne_none h (hasks.mem hs) (hne s hs)⟩
  obtain ⟨kids, all, hrooted⟩ := h
  cases nodes with
  | nil => exact hnodes rfl
  | cons s ss =>
    obtain rfl : orderNodes (moveTo w place s) s ss = w' :=
      congrArg Prod.fst (Option.some.inj hrun)
    rw [moveTo_besideRoot hrooted.toTree hroot (hne s List.mem_cons_self)] at hordered
    obtain ⟨hs, hparent⟩ := hparents s List.mem_cons_self
    obtain ⟨kids', htree⟩ := orderNodes_loose (hrooted.toTree.nodeRemove hs hparent)
      (mParent_nodeRemove_self w s) hnodup fun x hx => by
        have hxs : x ≠ s := by
          rintro rfl
          exact (List.nodup_cons.mp hnodup).1 hx
        rw [mParent_nodeRemove w hxs, ((sameTable_refl w).nodeRemove s).table]
        exact hparents x (List.mem_cons_of_mem _ hx)
    exact not_standIn_besideRoot htree hroot (hordered.inPlace hnodes)

end Command

/-- The root group with one synth. -/
def oneSynth : World :=
  ((World.new kDefaultWorldOptions []).register 1#32 [] false).groupAddHead 0#32 1#32

theorem isTree_oneSynth : IsTree oneSynth := by
  have hroot : (0#32 : NodeID) ∈ (World.new kDefaultWorldOptions []).mNodeLib ∧
      ((World.new kDefaultWorldOptions []).mNode 0#32).mIsGroup = true :=
    ⟨Finset.mem_singleton_self _, rfl⟩
  exact (placing_head (World.new kDefaultWorldOptions []) [] false 1#32 0#32 (kept_new _ _)
    (by decide) hroot).tree

theorem root_mem_oneSynth : (0#32 : NodeID) ∈ oneSynth.mNodeLib := by decide

theorem not_within_oneSynth : ¬ oneSynth.Within 1#32 0#32 := by
  intro hwithin
  rcases hwithin.cases_head with heq | ⟨p, hparent, -⟩
  · cases heq
  · have hnone : (oneSynth.mNode 0#32).mParent = none := by decide
    rw [hnone] at hparent
    cases hparent

/-- A message that lists the synth, with the root as its target. -/
theorem asks_oneSynth (addAction : Word) (place : Place NodeID)
    (hplace : orderPlace addAction 0#32 = some place) :
    ∃ it, openMessage (packetOf "/n_order" [.int addAction, .int 0#32, .int 1#32]) = some it ∧
      Asks oneSynth it place [1#32] := by
  rcases openMessage_ofValues (.ofString "/n_order") [.int addAction, .int 0#32, .int 1#32] rfl with
    ⟨packet, it, hp, hopen, hat, -⟩
  refine ⟨it, ?_, addAction, 0#32, 0#32, [1#32], hat, ?_, hplace, ?_⟩
  · unfold packetOf
    rw [hp]
    exact hopen
  · decide
  · decide

end NOrder

end PoopWorms.Server
