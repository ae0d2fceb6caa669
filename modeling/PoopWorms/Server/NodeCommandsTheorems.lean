import PoopWorms.Server.NodeCommands
import PoopWorms.Server.NodeTree

/-!
# The node tree under its commands

Every command keeps the node tree a tree, as long as it moves no node to a place below
itself and puts none beside the root. Where the commands do not look at this, a node is cut
off from the tree.
-/

namespace PoopWorms.Server

open Octets Osc

namespace World

variable {w w' : World} {kids : NodeID → List NodeID} {g n s : NodeID} {all : List NodeID}

/-! ## What the moves leave alone -/

section Moves

variable (w : World)

theorem sameTable_moveBefore (s n : NodeID) : SameTable w (w.moveBefore s n) :=
  ((sameTable_refl w).nodeRemove s).nodeAddBefore ..

theorem sameTable_moveAfter (s n : NodeID) : SameTable w (w.moveAfter s n) :=
  ((sameTable_refl w).nodeRemove s).nodeAddAfter ..

theorem sameTable_moveToHead (g s : NodeID) : SameTable w (w.moveToHead g s) :=
  ((sameTable_refl w).nodeRemove s).groupAddHead ..

theorem sameTable_moveToTail (g s : NodeID) : SameTable w (w.moveToTail g s) :=
  ((sameTable_refl w).nodeRemove s).groupAddTail ..

end Moves

/-! ## The counter of hidden IDs -/

section Hidden

variable (w : World)

theorem mHiddenID_deleteFrom (fuel : ℕ) (child : Option NodeID) :
    (deleteFrom fuel w child).mHiddenID = w.mHiddenID := by
  induction fuel generalizing w child with
  | zero => rfl
  | succ fuel ih =>
    cases child with
    | none => rfl
    | some child =>
      rw [deleteFrom, ih]
      split_ifs
      · rfl
      · exact ((sameTable_refl _).nodeRemove _).hidden.trans (ih _ _)
      · exact ((sameTable_refl _).nodeRemove _).hidden

theorem mHiddenID_nodeDelete (n : NodeID) : (w.nodeDelete n).mHiddenID = w.mHiddenID := by
  unfold nodeDelete
  split_ifs
  · rfl
  · exact ((sameTable_refl _).nodeRemove _).hidden.trans (mHiddenID_deleteFrom ..)
  · exact ((sameTable_refl _).nodeRemove _).hidden

theorem mHiddenID_deepFreeFrom (fuel : ℕ) (child : Option NodeID) :
    (deepFreeFrom fuel w child).mHiddenID = w.mHiddenID := by
  induction fuel generalizing w child with
  | zero => rfl
  | succ fuel ih =>
    cases child with
    | none => rfl
    | some child =>
      rw [deepFreeFrom, ih]
      split_ifs
      · exact ih _ _
      · exact (mHiddenID_nodeDelete ..).trans ((sameTable_refl _).nodeRemove _).hidden

theorem mHiddenID_nodeReplace (s n : NodeID) : (w.nodeReplace s n).mHiddenID = w.mHiddenID := by
  unfold nodeReplace
  split
  · rfl
  · split_ifs
    · rfl
    · apply (mHiddenID_nodeDelete ..).trans
      exact (((sameTable_refl _).linkNext ..).linkPrev ..).hidden

end Hidden

/-! ## New nodes -/

/-- What every command keeps: a tree, and a counter that does not reach `-1`. -/
structure Kept (w : World) : Prop where
  tree : IsTree w
  hidden : w.mHiddenID.toNat % 8 = 0

/-- The next hidden ID. -/
theorem hidden_mod (h : w.mHiddenID.toNat % 8 = 0) :
    ((w.mHiddenID - 8#32) ||| 0x80000000#32).toNat % 8 = 0 := by
  have hsub : (w.mHiddenID - 8#32).toNat % 2 ^ 3 = 0 := by
    rw [BitVec.toNat_sub, BitVec.toNat_ofNat]
    omega
  rw [BitVec.toNat_or]
  show _ % 2 ^ 3 = 0
  rw [Nat.or_mod_two_pow, hsub]
  decide

theorem Kept.withHidden (h : Kept w) {hidden : NodeID} (hhidden : hidden.toNat % 8 = 0) :
    Kept { w with mHiddenID := hidden } := by
  obtain ⟨⟨kids, all, htree⟩, -⟩ := h
  refine ⟨⟨kids, all, ⟨⟨htree.root, htree.mem, htree.group, htree.complete, htree.nodup,
    htree.linked, htree.ends⟩, htree.spans, htree.once, htree.registered, htree.alone⟩⟩, hhidden⟩

/-- `Node_New` enters a node that is not in the table, or changes nothing but the counter. -/
theorem nodeNew_cases_of_hidden (h : w.mHiddenID.toNat % 8 = 0) (mDef : List Byte) (inID : NodeID) :
    (∃ hidden n, hidden.toNat % 8 = 0 ∧ n ∉ w.mNodeLib ∧ w.nodeNew mDef inID =
        .ok ({ w with mHiddenID := hidden }.register n mDef false, n)) ∨
      ∃ err hidden, hidden.toNat % 8 = 0 ∧
        w.nodeNew mDef inID = .error (err, { w with mHiddenID := hidden }) := by
  unfold nodeNew
  by_cases hreserved : inID.toInt < 0 ∧ inID ≠ -1#32
  · rw [if_pos hreserved]
    exact .inr ⟨_, w.mHiddenID, h, rfl⟩
  · rw [if_neg hreserved]
    -- the ID and the counter that the rest works with
    obtain ⟨hidden, id, hhidden, hid, hworld, hidEq⟩ : ∃ hidden id : NodeID, hidden.toNat % 8 = 0 ∧
        id ≠ -1#32 ∧
        (if inID = -1#32 then
          { w with mHiddenID := (w.mHiddenID - 8#32) ||| 0x80000000#32 } else w) =
          { w with mHiddenID := hidden } ∧
        (if inID = -1#32 then (w.mHiddenID - 8#32) ||| 0x80000000#32 else inID) = id := by
      by_cases hminus : inID = -1#32
      · refine ⟨_, _, hidden_mod h, ?_, if_pos hminus, if_pos hminus⟩
        intro heq
        have hmod := hidden_mod h
        rw [heq] at hmod
        exact absurd hmod (by decide)
      · exact ⟨w.mHiddenID, inID, h, hminus, if_neg hminus, if_neg hminus⟩
    dsimp only
    rw [hworld, hidEq]
    have hget : ({ w with mHiddenID := hidden } : World).getNode id =
        if id ∈ w.mNodeLib then some id else none := by
      unfold getNode
      dsimp only
      rw [if_neg hid]
    rw [hget]
    by_cases hmem : id ∈ w.mNodeLib
    · rw [if_pos hmem]
      exact .inr ⟨_, hidden, hhidden, rfl⟩
    · rw [if_neg hmem]
      dsimp only
      by_cases hfull : w.mMaxNodes ≤ w.mNodeLib.card
      · have hnone : (({ w with mHiddenID := hidden } : World).modify id fun _ =>
            ⟨mDef, false, none, none, none, none, none⟩).addNode id = none := if_pos hfull
        rw [hnone]
        exact .inr ⟨.tooManyNodes, hidden, hhidden, rfl⟩
      · have hsome : (({ w with mHiddenID := hidden } : World).modify id fun _ =>
            ⟨mDef, false, none, none, none, none, none⟩).addNode id = some _ := if_neg hfull
        rw [hsome]
        exact .inl ⟨hidden, id, hhidden, hmem, rfl⟩

theorem nodeNew_cases (h : Kept w) (mDef : List Byte) (inID : NodeID) :
    (∃ hidden n, hidden.toNat % 8 = 0 ∧ n ∉ w.mNodeLib ∧ w.nodeNew mDef inID =
        .ok ({ w with mHiddenID := hidden }.register n mDef false, n)) ∨
      ∃ err hidden, hidden.toNat % 8 = 0 ∧
        w.nodeNew mDef inID = .error (err, { w with mHiddenID := hidden }) :=
  nodeNew_cases_of_hidden h.hidden mDef inID

/-- The same for a group. -/
theorem groupNew_cases_of_hidden (h : w.mHiddenID.toNat % 8 = 0) (inID : NodeID) :
    (∃ hidden n, hidden.toNat % 8 = 0 ∧ n ∉ w.mNodeLib ∧ w.groupNew inID =
        .ok (({ w with mHiddenID := hidden } : World).register n groupDefName true, n)) ∨
      ∃ err hidden, hidden.toNat % 8 = 0 ∧
        w.groupNew inID = .error (err, { w with mHiddenID := hidden }) := by
  unfold groupNew
  rcases nodeNew_cases_of_hidden h groupDefName inID with
    ⟨hidden, n, hhidden, hn, hok⟩ | ⟨err, hidden, hhidden, herr⟩
  · left
    refine ⟨hidden, n, hhidden, hn, ?_⟩
    rw [hok]
    dsimp only
    congr 2
    refine World.ext (funext fun x => ?_) rfl rfl rfl rfl rfl
    rw [mNode_modify]
    show (if x = n then _ else Function.update w.mNode n _ x) = Function.update w.mNode n _ x
    by_cases hx : x = n
    · have hself : (({ w with mHiddenID := hidden } : World).register n groupDefName false).mNode n =
          ⟨groupDefName, false, none, none, none, none, none⟩ := Function.update_self ..
      rw [if_pos hx, hx, Function.update_self, hself]
    · rw [if_neg hx, Function.update_of_ne hx, Function.update_of_ne hx]
  · right
    refine ⟨err, hidden, hhidden, ?_⟩
    rw [herr]

theorem groupNew_cases (h : Kept w) (inID : NodeID) :
    (∃ hidden n, hidden.toNat % 8 = 0 ∧ n ∉ w.mNodeLib ∧ w.groupNew inID =
        .ok (({ w with mHiddenID := hidden } : World).register n groupDefName true, n)) ∨
      ∃ err hidden, hidden.toNat % 8 = 0 ∧
        w.groupNew inID = .error (err, { w with mHiddenID := hidden }) :=
  groupNew_cases_of_hidden h.hidden inID

/-- A way of placing a new node that keeps the tree, next to the targets that `fits` admits. -/
def Placing (fits : World → NodeID → Prop) (place : World → NodeID → NodeID → World) : Prop :=
  ∀ (w : World) (mDef : List Byte) (mIsGroup : Bool) (s target : NodeID), Kept w →
    s ∉ w.mNodeLib → fits w target → Kept (place (w.register s mDef mIsGroup) target s)

theorem Kept.ne_root (h : Kept w) (hn : n ∉ w.mNodeLib) : n ≠ 0#32 := by
  obtain ⟨⟨kids, all, htree⟩, -⟩ := h
  rintro rfl
  exact hn htree.root.1

theorem mParent_register (w : World) (s : NodeID) (mDef : List Byte) (mIsGroup : Bool) :
    ((w.register s mDef mIsGroup).mNode s).mParent = none := by
  show (Function.update w.mNode s _ s).mParent = none
  rw [Function.update_self]

theorem placing_head : Placing (fun w g => g ∈ w.mNodeLib ∧ (w.mNode g).mIsGroup = true)
    World.groupAddHead := by
  intro w mDef mIsGroup s g h hs ⟨hg, hgroup⟩
  have hs0 := h.ne_root hs
  obtain ⟨⟨kids, all, htree⟩, hhidden⟩ := h
  have hsg : s ≠ g := by
    rintro rfl
    exact hs hg
  refine ⟨?_, ((sameTable_refl _).groupAddHead g s).hidden.symm ▸ hhidden⟩
  have hnode : (w.register s mDef mIsGroup).mNode g = w.mNode g := Function.update_of_ne hsg.symm ..
  have hparent := mParent_register w s mDef mIsGroup
  rw [groupAddHead_eq (htree.toTree.register hs mDef mIsGroup) (Finset.mem_insert_of_mem hg)
    (by rw [hnode]; exact hgroup) hs0 hsg hparent]
  exact htree.enter hs hs0 (List.nil_append _).symm hg hgroup mDef mIsGroup

theorem placing_tail : Placing (fun w g => g ∈ w.mNodeLib ∧ (w.mNode g).mIsGroup = true)
    World.groupAddTail := by
  intro w mDef mIsGroup s g h hs ⟨hg, hgroup⟩
  have hs0 := h.ne_root hs
  obtain ⟨⟨kids, all, htree⟩, hhidden⟩ := h
  have hsg : s ≠ g := by
    rintro rfl
    exact hs hg
  refine ⟨?_, ((sameTable_refl _).groupAddTail g s).hidden.symm ▸ hhidden⟩
  have hnode : (w.register s mDef mIsGroup).mNode g = w.mNode g := Function.update_of_ne hsg.symm ..
  have hparent := mParent_register w s mDef mIsGroup
  rw [groupAddTail_eq (htree.toTree.register hs mDef mIsGroup) (Finset.mem_insert_of_mem hg)
    (by rw [hnode]; exact hgroup) hs0 hsg hparent]
  exact htree.enter hs hs0 (List.append_nil _).symm hg hgroup mDef mIsGroup

theorem placing_before : Placing (fun w n => n ∈ w.mNodeLib ∧ n ≠ 0#32)
    (fun w target s => w.nodeAddBefore s target) := by
  intro w mDef mIsGroup s n h hs ⟨hn, hn0⟩
  have hs0 := h.ne_root hs
  obtain ⟨⟨kids, all, htree⟩, hhidden⟩ := h
  refine ⟨?_, ((sameTable_refl _).nodeAddBefore s n).hidden.symm ▸ hhidden⟩
  obtain ⟨g, l₁, l₂, hkids⟩ := htree.exists_cut hn hn0
  obtain ⟨hg, hgroup⟩ := htree.parent_mem hkids
  have hparent := mParent_register w s mDef mIsGroup
  show IsTree ((w.register s mDef mIsGroup).nodeAddBefore s n)
  rw [nodeAddBefore_eq (htree.toTree.register hs mDef mIsGroup) hkids hs0 hparent]
  exact htree.enter hs hs0 hkids hg hgroup mDef mIsGroup

theorem placing_after : Placing (fun w n => n ∈ w.mNodeLib ∧ n ≠ 0#32)
    (fun w target s => w.nodeAddAfter s target) := by
  intro w mDef mIsGroup s n h hs ⟨hn, hn0⟩
  have hs0 := h.ne_root hs
  obtain ⟨⟨kids, all, htree⟩, hhidden⟩ := h
  refine ⟨?_, ((sameTable_refl _).nodeAddAfter s n).hidden.symm ▸ hhidden⟩
  obtain ⟨g, l₁, l₂, hkids⟩ := htree.exists_cut hn hn0
  obtain ⟨hg, hgroup⟩ := htree.parent_mem hkids
  have hparent := mParent_register w s mDef mIsGroup
  have hkids' : kids g = (l₁ ++ [n]) ++ l₂ := by
    rw [hkids]
    simp
  show IsTree ((w.register s mDef mIsGroup).nodeAddAfter s n)
  rw [nodeAddAfter_eq (htree.toTree.register hs mDef mIsGroup) hkids hs0 hparent]
  exact htree.enter hs hs0 hkids' hg hgroup mDef mIsGroup

theorem placing_replace : Placing (fun w n => n ∈ w.mNodeLib ∧ n ≠ 0#32)
    (fun w target s => w.nodeReplace s target) := by
  intro w mDef mIsGroup s n h hs ⟨hn, hn0⟩
  have hs0 := h.ne_root hs
  obtain ⟨⟨kids, all, htree⟩, hhidden⟩ := h
  refine ⟨?_, (mHiddenID_nodeReplace _ s n).symm ▸ hhidden⟩
  obtain ⟨g, l₁, l₂, hkids⟩ := htree.exists_cut hn hn0
  exact htree.replace hs hs0 hkids mDef mIsGroup

end World

end PoopWorms.Server
