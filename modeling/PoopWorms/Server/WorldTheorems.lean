import PoopWorms.Lib.LinkedList
import PoopWorms.Server.World

/-!
# The node tree

`Tree w kids` says that the pointers of `w` link the children of every group `g` into the
list `kids g`. Every surgery changes the list of one group; `Tree.setKids` reduces what has
to be shown to the nodes of that list.
-/

namespace PoopWorms.Server

open Octets LinkedList

namespace World

variable {w w' : World} {kids : NodeID → List NodeID} {g n s : NodeID} {l₁ l₂ : List NodeID}

theorem mNode_modify (w : World) (n : NodeID) (f : Node → Node) (m : NodeID) :
    (w.modify n f).mNode m = if m = n then f (w.mNode m) else w.mNode m := by
  unfold modify
  by_cases h : m = n
  · subst h
    simp
  · simp [h]

section Fields

variable (w : World) (n : NodeID) (f : Node → Node) (m : NodeID)

@[simp] theorem mDef_modify : ((w.modify n f).mNode m).mDef
    = if m = n then (f (w.mNode m)).mDef else (w.mNode m).mDef := by
  rw [mNode_modify, apply_ite Node.mDef]

@[simp] theorem mIsGroup_modify : ((w.modify n f).mNode m).mIsGroup
    = if m = n then (f (w.mNode m)).mIsGroup else (w.mNode m).mIsGroup := by
  rw [mNode_modify, apply_ite Node.mIsGroup]

@[simp] theorem mParent_modify : ((w.modify n f).mNode m).mParent
    = if m = n then (f (w.mNode m)).mParent else (w.mNode m).mParent := by
  rw [mNode_modify, apply_ite Node.mParent]

@[simp] theorem mPrev_modify : ((w.modify n f).mNode m).mPrev
    = if m = n then (f (w.mNode m)).mPrev else (w.mNode m).mPrev := by
  rw [mNode_modify, apply_ite Node.mPrev]

@[simp] theorem mNext_modify : ((w.modify n f).mNode m).mNext
    = if m = n then (f (w.mNode m)).mNext else (w.mNode m).mNext := by
  rw [mNode_modify, apply_ite Node.mNext]

@[simp] theorem mHead_modify : ((w.modify n f).mNode m).mHead
    = if m = n then (f (w.mNode m)).mHead else (w.mNode m).mHead := by
  rw [mNode_modify, apply_ite Node.mHead]

@[simp] theorem mTail_modify : ((w.modify n f).mNode m).mTail
    = if m = n then (f (w.mNode m)).mTail else (w.mNode m).mTail := by
  rw [mNode_modify, apply_ite Node.mTail]

end Fields

/-- Only `mNext` of the neighbour or `mHead` of the group is written. -/
theorem linkNext_eq (w : World) (prev group x : Option NodeID) :
    w.linkNext prev group x = { w with mNode := fun m => { w.mNode m with
      mNext := if prev = some m then x else (w.mNode m).mNext
      mHead := if prev = none ∧ group = some m then x else (w.mNode m).mHead } } := by
  unfold linkNext
  cases prev with
  | some y =>
    refine World.ext (funext fun m => ?_) rfl rfl rfl rfl rfl
    by_cases h : m = y
    · simp [mNode_modify, h]
    · simp [mNode_modify, h, Ne.symm h]
  | none =>
    cases group with
    | none => simp
    | some y =>
      refine World.ext (funext fun m => ?_) rfl rfl rfl rfl rfl
      by_cases h : m = y
      · simp [mNode_modify, h]
      · simp [mNode_modify, h, Ne.symm h]

/-- Only `mPrev` of the neighbour or `mTail` of the group is written. -/
theorem linkPrev_eq (w : World) (next group x : Option NodeID) :
    w.linkPrev next group x = { w with mNode := fun m => { w.mNode m with
      mPrev := if next = some m then x else (w.mNode m).mPrev
      mTail := if next = none ∧ group = some m then x else (w.mNode m).mTail } } := by
  unfold linkPrev
  cases next with
  | some y =>
    refine World.ext (funext fun m => ?_) rfl rfl rfl rfl rfl
    by_cases h : m = y
    · simp [mNode_modify, h]
    · simp [mNode_modify, h, Ne.symm h]
  | none =>
    cases group with
    | none => simp
    | some y =>
      refine World.ext (funext fun m => ?_) rfl rfl rfl rfl rfl
      by_cases h : m = y
      · simp [mNode_modify, h]
      · simp [mNode_modify, h, Ne.symm h]

@[simp] theorem mNodeLib_modify (w : World) (n : NodeID) (f : Node → Node) :
    (w.modify n f).mNodeLib = w.mNodeLib := rfl

@[simp] theorem mMaxNodes_modify (w : World) (n : NodeID) (f : Node → Node) :
    (w.modify n f).mMaxNodes = w.mMaxNodes := rfl

@[simp] theorem mGraphDefLib_modify (w : World) (n : NodeID) (f : Node → Node) :
    (w.modify n f).mGraphDefLib = w.mGraphDefLib := rfl

/-- The pointers of `w` make `kids g` the children of `g`, for every node `g`. -/
structure Tree (w : World) (kids : NodeID → List NodeID) : Prop where
  root : 0#32 ∈ w.mNodeLib ∧ (w.mNode 0#32).mIsGroup ∧ (w.mNode 0#32).mParent = none
  mem : ∀ g, ∀ n ∈ kids g, n ∈ w.mNodeLib ∧ n ≠ 0#32 ∧ (w.mNode n).mParent = some g
  group : ∀ g, kids g ≠ [] → g ∈ w.mNodeLib ∧ (w.mNode g).mIsGroup
  complete : ∀ n ∈ w.mNodeLib, ∀ g, (w.mNode n).mParent = some g → n ∈ kids g
  nodup : ∀ g, (kids g).Nodup
  linked : ∀ g, Linked (fun n => (w.mNode n).mPrev) (fun n => (w.mNode n).mNext) none
    (kids g) none
  ends : ∀ g ∈ w.mNodeLib, (w.mNode g).mIsGroup →
    (w.mNode g).mHead = (kids g).head? ∧ (w.mNode g).mTail = (kids g).getLast?

/-- One group gets another list of children: nodes may leave the table or the list, and
nodes without a parent may join. -/
theorem Tree.setKids (h : Tree w kids) {l : List NodeID}
    (hlib : ∀ x ∈ w'.mNodeLib, x ∈ w.mNodeLib ∧ (w'.mNode x).mIsGroup = (w.mNode x).mIsGroup)
    (hroot : 0#32 ∈ w'.mNodeLib) (hg : g ∈ w'.mNodeLib) (hgroup : (w.mNode g).mIsGroup)
    (hparent : ∀ x ∈ w'.mNodeLib, (w'.mNode x).mParent =
      if x ∈ l then some g else if x ∈ kids g then none else (w.mNode x).mParent)
    (hfar : ∀ x, x ∉ kids g → x ∉ l →
      (w'.mNode x).mPrev = (w.mNode x).mPrev ∧ (w'.mNode x).mNext = (w.mNode x).mNext)
    (hends : ∀ x, x ≠ g →
      (w'.mNode x).mHead = (w.mNode x).mHead ∧ (w'.mNode x).mTail = (w.mNode x).mTail)
    (hl : l.Nodup) (hmem : ∀ x ∈ l, x ∈ w'.mNodeLib ∧ x ≠ 0#32 ∧
      (x ∈ kids g ∨ (w.mNode x).mParent = none))
    (hgone : ∀ x ∈ w.mNodeLib, x ∉ w'.mNodeLib →
      (x ∈ kids g ∨ (w.mNode x).mParent = none) ∧ kids x = [])
    (hlinked : Linked (fun n => (w'.mNode n).mPrev) (fun n => (w'.mNode n).mNext) none l none)
    (hgends : (w'.mNode g).mHead = l.head? ∧ (w'.mNode g).mTail = l.getLast?) :
    Tree w' (Function.update kids g l) := by
  -- a child of another group is none of the nodes concerned
  have hother : ∀ x p, p ≠ g → x ∈ kids p →
      x ∉ kids g ∧ (w.mNode x).mParent ≠ none ∧ x ∉ l ∧ x ∈ w'.mNodeLib := by
    intro x p hp hx
    have hxp := (h.mem p x hx).2.2
    have hxg : x ∉ kids g := by
      intro hx'
      exact hp (Option.some.inj (hxp.symm.trans (h.mem g x hx').2.2))
    have hnone : (w.mNode x).mParent ≠ none := by simp [hxp]
    refine ⟨hxg, hnone, fun hxl => ?_, ?_⟩
    · rcases (hmem x hxl).2.2 with hx' | hx'
      · exact hxg hx'
      · exact hnone hx'
    · by_contra hgo
      rcases (hgone x (h.mem p x hx).1 hgo).1 with hx' | hx'
      · exact hxg hx'
      · exact hnone hx'
  refine ⟨?_, ?_, ?_, ?_, ?_, ?_, ?_⟩
  · -- the root has no parent, so it is in no list
    have hzero : ∀ p, 0#32 ∉ kids p := fun p hp => (h.mem p _ hp).2.1 rfl
    have hzero' : 0#32 ∉ l := fun hp => (hmem _ hp).2.1 rfl
    refine ⟨hroot, ?_, ?_⟩
    · rw [(hlib _ hroot).2]
      exact h.root.2.1
    · rw [hparent _ hroot, if_neg hzero', if_neg (hzero g)]
      exact h.root.2.2
  · intro p x hx
    by_cases hp : p = g
    · subst hp
      rw [Function.update_self] at hx
      exact ⟨(hmem x hx).1, (hmem x hx).2.1, by rw [hparent x (hmem x hx).1, if_pos hx]⟩
    · rw [Function.update_of_ne hp] at hx
      rcases hother x p hp hx with ⟨hxg, -, hxl, hxlib⟩
      refine ⟨hxlib, (h.mem p x hx).2.1, ?_⟩
      rw [hparent x hxlib, if_neg hxl, if_neg hxg]
      exact (h.mem p x hx).2.2
  · intro p hp
    by_cases hpg : p = g
    · subst hpg
      exact ⟨hg, by rw [(hlib _ hg).2]; exact hgroup⟩
    · rw [Function.update_of_ne hpg] at hp
      have hplib : p ∈ w'.mNodeLib := by
        by_contra hgo
        exact hp (hgone p (h.group p hp).1 hgo).2
      exact ⟨hplib, by rw [(hlib _ hplib).2]; exact (h.group p hp).2⟩
  · intro x hx p hxp
    rw [hparent x hx] at hxp
    split_ifs at hxp with hxl hxg
    · have hpg : g = p := Option.some.inj hxp
      rw [← hpg, Function.update_self]
      exact hxl
    · have hxp' := h.complete x (hlib x hx).1 p hxp
      have hpg : p ≠ g := by
        intro hpg
        subst hpg
        exact hxg hxp'
      rwa [Function.update_of_ne hpg]
  · intro p
    by_cases hp : p = g
    · subst hp
      rwa [Function.update_self]
    · rw [Function.update_of_ne hp]
      exact h.nodup p
  · intro p
    by_cases hp : p = g
    · subst hp
      rwa [Function.update_self]
    · rw [Function.update_of_ne hp]
      refine (h.linked p).congr (fun x hx => ?_) (fun x hx => ?_)
      · exact (hfar x (hother x p hp hx).1 (hother x p hp hx).2.2.1).1
      · exact (hfar x (hother x p hp hx).1 (hother x p hp hx).2.2.1).2
  · intro p hp hpgroup
    by_cases hpg : p = g
    · subst hpg
      rwa [Function.update_self]
    · rw [Function.update_of_ne hpg, (hends p hpg).1, (hends p hpg).2]
      exact h.ends p (hlib p hp).1 (by rw [← (hlib p hp).2]; exact hpgroup)

/-- The neighbours of a child in its list. -/
theorem Tree.neighbours (h : Tree w kids) (hkids : kids g = l₁ ++ s :: l₂) :
    (w.mNode s).mParent = some g ∧ (w.mNode s).mPrev = l₁.getLast? ∧
      (w.mNode s).mNext = l₂.head? := by
  have hlinked := h.linked g
  rw [hkids] at hlinked
  have hcut := (linked_append.mp hlinked).2
  refine ⟨(h.mem g s (by simp [hkids])).2.2, ?_, ?_⟩
  · simpa using hcut.1
  · simpa using hcut.2.1

/-- A node without a parent is in no list. -/
theorem Tree.notMem (h : Tree w kids) (hparent : (w.mNode s).mParent = none) (g : NodeID) :
    s ∉ kids g := by
  intro hmem
  have hsome := (h.mem g s hmem).2.2
  rw [hparent] at hsome
  cases hsome

/-! ## Surgery on the list of one group -/

/-- `s` joins the group `g` between `l₁` and `l₂`. -/
def insertAt (w : World) (g s : NodeID) (l₁ l₂ : List NodeID) : World :=
  { w with mNode := fun x => { w.mNode x with
      mParent := if x = s then some g else (w.mNode x).mParent
      mPrev := if x = s then l₁.getLast?
        else if l₂.head? = some x then some s else (w.mNode x).mPrev
      mNext := if x = s then l₂.head?
        else if l₁.getLast? = some x then some s else (w.mNode x).mNext
      mHead := if x = g then (l₁ ++ s :: l₂).head? else (w.mNode x).mHead
      mTail := if x = g then (l₁ ++ s :: l₂).getLast? else (w.mNode x).mTail } }

/-- `s` leaves the group `g`, where it stood between `l₁` and `l₂`. -/
def eraseAt (w : World) (g s : NodeID) (l₁ l₂ : List NodeID) : World :=
  { w with mNode := fun x => { w.mNode x with
      mParent := if x = s then none else (w.mNode x).mParent
      mPrev := if x = s then none
        else if l₂.head? = some x then l₁.getLast? else (w.mNode x).mPrev
      mNext := if x = s then none
        else if l₁.getLast? = some x then l₂.head? else (w.mNode x).mNext
      mHead := if x = g then (l₁ ++ l₂).head? else (w.mNode x).mHead
      mTail := if x = g then (l₁ ++ l₂).getLast? else (w.mNode x).mTail } }

/-- Joining a group is joining its list of children. -/
theorem Tree.insertAt (h : Tree w kids) (hg : g ∈ w.mNodeLib) (hgroup : (w.mNode g).mIsGroup)
    (hs : s ∈ w.mNodeLib) (hs0 : s ≠ 0#32) (hparent : (w.mNode s).mParent = none)
    (hkids : kids g = l₁ ++ l₂) :
    Tree (w.insertAt g s l₁ l₂) (Function.update kids g (l₁ ++ s :: l₂)) := by
  have hsg : s ∉ l₁ ++ l₂ := hkids ▸ h.notMem hparent g
  have hnd : (l₁ ++ l₂).Nodup := hkids ▸ h.nodup g
  have hlinked := h.linked g
  rw [hkids] at hlinked
  have hne : ∀ y ∈ l₁ ++ l₂, y ≠ s := fun y hy hys => hsg (hys ▸ hy)
  refine h.setKids (fun x hx => ⟨hx, rfl⟩) h.root.1 hg hgroup ?_ ?_ ?_ ?_ ?_ ?_ ?_ ?_
  · intro x hx
    simp only [World.insertAt, hkids, List.mem_append, List.mem_cons]
    by_cases hxs : x = s
    · simp [hxs]
    · by_cases hx₁ : x ∈ l₁ ∨ x ∈ l₂
      · have hxg : x ∈ kids g := by rw [hkids]; exact List.mem_append.mpr hx₁
        have hxp := (h.mem g x hxg).2.2
        rcases hx₁ with hx₁ | hx₁ <;> simp [hxs, hx₁, hxp]
      · have hxl : ¬ (x ∈ l₁ ∨ x = s ∨ x ∈ l₂) := by tauto
        rw [if_neg hxs, if_neg hxl, if_neg hx₁]
  · intro x hxk hxl
    have hxs : x ≠ s := fun hxs => hxl (by simp [hxs])
    have hhead : l₂.head? ≠ some x := by
      intro heq
      exact hxl (by simp [List.mem_of_head? heq])
    have hlast : l₁.getLast? ≠ some x := by
      intro heq
      exact hxl (by simp [List.mem_of_getLast? heq])
    simp [World.insertAt, hxs, hhead, hlast]
  · intro x hx
    simp [World.insertAt, hx]
  · have hperm : (l₁ ++ s :: l₂).Perm (s :: (l₁ ++ l₂)) := List.perm_middle
    exact hperm.nodup_iff.mpr (List.nodup_cons.mpr ⟨hsg, hnd⟩)
  · intro x hx
    by_cases hxs : x = s
    · subst hxs
      exact ⟨hs, hs0, Or.inr hparent⟩
    · have hxg : x ∈ kids g := by
        rw [hkids]
        simp only [List.mem_append, List.mem_cons, hxs, false_or] at hx
        exact List.mem_append.mpr hx
      exact ⟨(h.mem g x hxg).1, (h.mem g x hxg).2.1, Or.inl hxg⟩
  · exact fun x hx hgo => absurd hx hgo
  · refine hlinked.insert hnd ?_ ?_ (fun y hy => ?_) (fun y hy => ?_)
    · simp [World.insertAt]
    · simp [World.insertAt]
    · simp [World.insertAt, hne y hy]
    · simp [World.insertAt, hne y hy]
  · simp [World.insertAt]

/-- Leaving a group is leaving its list of children. -/
theorem Tree.eraseAt (h : Tree w kids) (hkids : kids g = l₁ ++ s :: l₂) :
    Tree (w.eraseAt g s l₁ l₂) (Function.update kids g (l₁ ++ l₂)) := by
  have hmem : ∀ x ∈ l₁ ++ s :: l₂, x ∈ kids g := fun x hx => hkids ▸ hx
  have hgne : kids g ≠ [] := by simp [hkids]
  have hnd := h.nodup g
  rw [hkids] at hnd
  have hlinked := h.linked g
  rw [hkids] at hlinked
  have hnd' : (s :: (l₁ ++ l₂)).Nodup := List.perm_middle.nodup_iff.mp hnd
  have hsl : s ∉ l₁ ++ l₂ := (List.nodup_cons.mp hnd').1
  have hne : ∀ y ∈ l₁ ++ l₂, y ≠ s := fun y hy hys => hsl (hys ▸ hy)
  rcases h.neighbours hkids with ⟨-, hsprev, hsnext⟩
  refine h.setKids (fun x hx => ⟨hx, rfl⟩) h.root.1 (h.group g hgne).1 (h.group g hgne).2
    ?_ ?_ ?_ (List.nodup_cons.mp hnd').2 ?_ ?_ ?_ ?_
  · intro x hx
    simp only [World.eraseAt]
    by_cases hxs : x = s
    · subst hxs
      have hxg : x ∈ kids g := by simp [hkids]
      rw [if_pos rfl, if_neg hsl, if_pos hxg]
    · by_cases hxl : x ∈ l₁ ++ l₂
      · have hxg : x ∈ kids g := hmem x (by
          simp only [List.mem_append, List.mem_cons] at hxl ⊢
          tauto)
        rw [if_neg hxs, if_pos hxl, (h.mem g x hxg).2.2]
      · have hxg : x ∉ kids g := by
          rw [hkids]
          simp only [List.mem_append, List.mem_cons] at hxl ⊢
          tauto
        rw [if_neg hxs, if_neg hxl, if_neg hxg]
  · intro x hxk hxl
    have hxs : x ≠ s := fun hxs => hxk (hmem x (by simp [hxs]))
    have hhead : l₂.head? ≠ some x := by
      intro heq
      exact hxl (by simp [List.mem_of_head? heq])
    have hlast : l₁.getLast? ≠ some x := by
      intro heq
      exact hxl (by simp [List.mem_of_getLast? heq])
    simp [World.eraseAt, hxs, hhead, hlast]
  · intro x hx
    simp [World.eraseAt, hx]
  · intro x hx
    have hxg : x ∈ kids g := hmem x (by
      simp only [List.mem_append, List.mem_cons] at hx ⊢
      tauto)
    exact ⟨(h.mem g x hxg).1, (h.mem g x hxg).2.1, Or.inl hxg⟩
  · exact fun x hx hgo => absurd hx hgo
  · refine hlinked.erase hnd (fun y hy => ?_) (fun y hy => ?_)
    · simp [World.eraseAt, hne y hy, hsprev]
    · simp [World.eraseAt, hne y hy, hsnext]
  · simp [World.eraseAt]

/-! ## The node table -/

/-- A node without links is entered in the table. -/
def register (w : World) (n : NodeID) (mDef : List Byte) (mIsGroup : Bool) : World :=
  { w with
    mNode := Function.update w.mNode n ⟨mDef, mIsGroup, none, none, none, none, none⟩
    mNodeLib := insert n w.mNodeLib
    mRecentID := n }

/-- A node is taken out of the table. -/
def deregister (w : World) (n : NodeID) : World :=
  { w with mNodeLib := w.mNodeLib.erase n }

theorem Tree.kids_eq_nil (h : Tree w kids) (hn : n ∉ w.mNodeLib) : kids n = [] := by
  by_contra hne
  exact hn (h.group n hne).1

/-- A new node is in no list and has no children. -/
theorem Tree.register (h : Tree w kids) (hn : n ∉ w.mNodeLib) (mDef : List Byte)
    (mIsGroup : Bool) : Tree (w.register n mDef mIsGroup) kids := by
  have hnode : ∀ x ∈ w.mNodeLib, (w.register n mDef mIsGroup).mNode x = w.mNode x := by
    intro x hx
    have hxn : x ≠ n := fun hxn => hn (hxn ▸ hx)
    exact Function.update_of_ne hxn _ _
  have hself : (w.register n mDef mIsGroup).mNode n
      = ⟨mDef, mIsGroup, none, none, none, none, none⟩ := Function.update_self _ _ _
  have hkids := h.kids_eq_nil hn
  refine ⟨?_, ?_, ?_, ?_, h.nodup, ?_, ?_⟩
  · rw [hnode _ h.root.1]
    exact ⟨Finset.mem_insert_of_mem h.root.1, h.root.2⟩
  · intro g x hx
    rcases h.mem g x hx with ⟨hlib, h0, hparent⟩
    rw [hnode x hlib]
    exact ⟨Finset.mem_insert_of_mem hlib, h0, hparent⟩
  · intro g hg
    rcases h.group g hg with ⟨hlib, hgroup⟩
    rw [hnode g hlib]
    exact ⟨Finset.mem_insert_of_mem hlib, hgroup⟩
  · intro x hx g hxg
    rcases Finset.mem_insert.mp hx with rfl | hx
    · rw [hself] at hxg
      cases hxg
    · rw [hnode x hx] at hxg
      exact h.complete x hx g hxg
  · intro g
    refine (h.linked g).congr (fun x hx => ?_) (fun x hx => ?_) <;>
      rw [hnode x (h.mem g x hx).1]
  · intro g hg hgroup
    rcases Finset.mem_insert.mp hg with rfl | hg
    · rw [hself, hkids]
      exact ⟨rfl, rfl⟩
    · rw [hnode g hg] at hgroup ⊢
      exact h.ends g hg hgroup

/-- A node without parent and children is in no list either. -/
theorem Tree.deregister (h : Tree w kids) (hn0 : n ≠ 0#32) (hparent : (w.mNode n).mParent = none)
    (hkids : kids n = []) : Tree (w.deregister n) kids := by
  have hmem : ∀ x ∈ w.mNodeLib, x ≠ n → x ∈ (w.deregister n).mNodeLib :=
    fun x hx hxn => Finset.mem_erase.mpr ⟨hxn, hx⟩
  have hsub : ∀ x ∈ (w.deregister n).mNodeLib, x ∈ w.mNodeLib :=
    fun x hx => Finset.mem_of_mem_erase hx
  refine ⟨⟨hmem _ h.root.1 hn0.symm, h.root.2⟩, ?_, ?_, ?_, h.nodup, h.linked, ?_⟩
  · intro g x hx
    have hxn : x ≠ n := fun hxn => h.notMem hparent g (hxn ▸ hx)
    exact ⟨hmem x (h.mem g x hx).1 hxn, (h.mem g x hx).2⟩
  · intro g hg
    have hgn : g ≠ n := fun hgn => hg (hgn ▸ hkids)
    exact ⟨hmem g (h.group g hg).1 hgn, (h.group g hg).2⟩
  · exact fun x hx g hxg => h.complete x (hsub x hx) g hxg
  · exact fun g hg hgroup => h.ends g (hsub g hg) hgroup

/-! ## The operations of the server -/

/-- `Node_New` with an ID that is free, in a table with room. -/
theorem nodeNew_eq_ok (mDef : List Byte) {inID : NodeID} (hpos : 0 ≤ inID.toInt)
    (hfree : inID ∉ w.mNodeLib) (hroom : w.mNodeLib.card < w.mMaxNodes) :
    w.nodeNew mDef inID = .ok (w.register inID mDef false, inID) := by
  have hne : inID ≠ -1#32 := by
    intro heq
    subst heq
    exact absurd hpos (by decide)
  have hget : w.getNode inID = none := by
    unfold getNode
    simp only [if_neg hne, if_neg hfree]
  unfold nodeNew
  rw [if_neg (by omega)]
  simp only [if_neg hne, hget]
  unfold addNode
  rw [mNodeLib_modify, mMaxNodes_modify, if_neg (by omega)]
  rfl

/-- `Node_New` of an ID that is reserved for the server. -/
theorem nodeNew_reserved (mDef : List Byte) {inID : NodeID} (hneg : inID.toInt < 0)
    (hne : inID ≠ -1#32) : w.nodeNew mDef inID = .error (.reservedNodeID, w) := if_pos ⟨hneg, hne⟩

/-- `Node_New` in a full table. -/
theorem nodeNew_eq_error (mDef : List Byte) {inID : NodeID} (hpos : 0 ≤ inID.toInt)
    (hfree : inID ∉ w.mNodeLib) (hroom : w.mMaxNodes ≤ w.mNodeLib.card) :
    w.nodeNew mDef inID = .error (.tooManyNodes, w) := by
  have hne : inID ≠ -1#32 := by
    intro heq
    subst heq
    exact absurd hpos (by decide)
  have hget : w.getNode inID = none := by
    unfold getNode
    simp only [if_neg hne, if_neg hfree]
  unfold nodeNew
  rw [if_neg (by omega)]
  simp only [if_neg hne, hget]
  unfold addNode
  rw [mNodeLib_modify, mMaxNodes_modify, if_pos hroom]

/-- `Group_AddHead` puts the child in front. -/
theorem groupAddHead_eq (h : Tree w kids) (hg : g ∈ w.mNodeLib) (hgroup : (w.mNode g).mIsGroup)
    (hs0 : s ≠ 0#32) (hsg : s ≠ g) (hparent : (w.mNode s).mParent = none) :
    w.groupAddHead g s = w.insertAt g s [] (kids g) := by
  have hends := h.ends g hg hgroup
  have hskids := h.notMem hparent g
  unfold groupAddHead
  rw [if_neg hs0]
  cases hk : kids g with
  | nil =>
    rw [hk] at hends
    simp only [List.head?_nil, List.getLast?_nil] at hends
    simp only [mHead_modify, hends.1, if_neg hsg.symm]
    refine World.ext (funext fun x => Node.ext ?_ ?_ ?_ ?_ ?_ ?_ ?_) rfl rfl rfl rfl rfl
    all_goals
      simp only [World.insertAt, mDef_modify, mIsGroup_modify, mParent_modify, mPrev_modify,
        mNext_modify, mHead_modify, mTail_modify]
      split_ifs <;> simp_all
  | cons c cs =>
    rw [hk] at hends hskids
    simp only [List.head?_cons] at hends
    have hsc : c ≠ s := fun hcs => hskids (by simp [hcs])
    simp only [mHead_modify, hends.1, if_neg hsg.symm]
    refine World.ext (funext fun x => Node.ext ?_ ?_ ?_ ?_ ?_ ?_ ?_) rfl rfl rfl rfl rfl
    all_goals
      simp only [World.insertAt, mDef_modify, mIsGroup_modify, mParent_modify, mPrev_modify,
        mNext_modify, mHead_modify, mTail_modify]
      split_ifs <;> simp_all

/-- `Group_AddTail` puts the child at the end. -/
theorem groupAddTail_eq (h : Tree w kids) (hg : g ∈ w.mNodeLib) (hgroup : (w.mNode g).mIsGroup)
    (hs0 : s ≠ 0#32) (hsg : s ≠ g) (hparent : (w.mNode s).mParent = none) :
    w.groupAddTail g s = w.insertAt g s (kids g) [] := by
  have hends := h.ends g hg hgroup
  have hskids := h.notMem hparent g
  unfold groupAddTail
  rw [if_neg hs0]
  rcases List.eq_nil_or_concat (kids g) with hk | ⟨cs, c, hk⟩
  · rw [hk] at hends ⊢
    simp only [List.head?_nil, List.getLast?_nil] at hends
    simp only [mTail_modify, hends.2, if_neg hsg.symm]
    refine World.ext (funext fun x => Node.ext ?_ ?_ ?_ ?_ ?_ ?_ ?_) rfl rfl rfl rfl rfl
    all_goals
      simp only [World.insertAt, mDef_modify, mIsGroup_modify, mParent_modify, mPrev_modify,
        mNext_modify, mHead_modify, mTail_modify]
      split_ifs <;> simp_all
  · rw [hk] at hends hskids ⊢
    have hlast : (w.mNode g).mTail = some c := by simpa using hends.2
    have hhead : (cs.concat c ++ [s]).head? = (w.mNode g).mHead := by
      rw [hends.1, List.head?_append_of_ne_nil _ (by simp)]
    have hsc : c ≠ s := fun hcs => hskids (by simp [hcs])
    simp only [mTail_modify, hlast, if_neg hsg.symm]
    refine World.ext (funext fun x => Node.ext ?_ ?_ ?_ ?_ ?_ ?_ ?_) rfl rfl rfl rfl rfl
    all_goals
      simp only [World.insertAt, mDef_modify, mIsGroup_modify, mParent_modify, mPrev_modify,
        mNext_modify, mHead_modify, mTail_modify, hhead]
      split_ifs <;> simp_all

/-- `Node_AddBefore` puts the node in front of its target. -/
theorem nodeAddBefore_eq (h : Tree w kids) (hkids : kids g = l₁ ++ n :: l₂)
    (hs0 : s ≠ 0#32) (hparent : (w.mNode s).mParent = none) :
    w.nodeAddBefore s n = w.insertAt g s l₁ (n :: l₂) := by
  rcases h.neighbours hkids with ⟨hnparent, hnprev, hnnext⟩
  have hgroup := h.group g (by simp [hkids])
  have hends := h.ends g hgroup.1 hgroup.2
  have hskids := h.notMem hparent g
  rw [hkids] at hskids hends
  have hsn : n ≠ s := fun hns => hskids (by simp [hns])
  have hhead : (l₁ ++ s :: n :: l₂).head?
      = if l₁.getLast? = none then some s else (w.mNode g).mHead := by
    rw [hends.1]
    cases l₁ with
    | nil => simp
    | cons a as => simp [List.getLast?_cons]
  have htail : (l₁ ++ s :: n :: l₂).getLast? = (w.mNode g).mTail := by
    rw [hends.2]
    simp [List.getLast?_append, List.getLast?_cons_cons]
  have hlast : l₁.getLast? ≠ some s := by
    intro hl
    exact hskids (by simp [List.mem_of_getLast? hl])
  unfold nodeAddBefore
  simp only [hnparent, if_neg hs0, mParent_modify, mPrev_modify, if_neg hsn, if_true, hnprev,
    linkNext_eq]
  refine World.ext (funext fun x => Node.ext ?_ ?_ ?_ ?_ ?_ ?_ ?_) rfl rfl rfl rfl rfl
  all_goals
    simp only [World.insertAt, mDef_modify, mIsGroup_modify, mParent_modify, mPrev_modify,
      mNext_modify, mHead_modify, mTail_modify, hhead, htail]
    clear hhead htail hends hskids
    split_ifs <;> simp_all

/-- `Node_AddAfter` puts the node behind its target. -/
theorem nodeAddAfter_eq (h : Tree w kids) (hkids : kids g = l₁ ++ n :: l₂)
    (hs0 : s ≠ 0#32) (hparent : (w.mNode s).mParent = none) :
    w.nodeAddAfter s n = w.insertAt g s (l₁ ++ [n]) l₂ := by
  rcases h.neighbours hkids with ⟨hnparent, hnprev, hnnext⟩
  have hgroup := h.group g (by simp [hkids])
  have hends := h.ends g hgroup.1 hgroup.2
  have hskids := h.notMem hparent g
  rw [hkids] at hskids hends
  have hsn : n ≠ s := fun hns => hskids (by simp [hns])
  have hhead : (l₁ ++ [n] ++ s :: l₂).head? = (w.mNode g).mHead := by
    rw [hends.1]
    simp
  have htail : (l₁ ++ [n] ++ s :: l₂).getLast?
      = if l₂.head? = none then some s else (w.mNode g).mTail := by
    rw [hends.2]
    cases l₂ with
    | nil => simp
    | cons a as => simp [List.getLast?_append, List.getLast?_cons_cons]
  have hlast : (l₁ ++ [n]).getLast? = some n := by simp
  have hfirst : l₂.head? ≠ some s := by
    intro hl
    exact hskids (by simp [List.mem_of_head? hl])
  unfold nodeAddAfter
  simp only [hnparent, if_neg hs0, mParent_modify, mNext_modify, if_neg hsn, if_true, hnnext,
    linkPrev_eq]
  refine World.ext (funext fun x => Node.ext ?_ ?_ ?_ ?_ ?_ ?_ ?_) rfl rfl rfl rfl rfl
  all_goals
    simp only [World.insertAt, mDef_modify, mIsGroup_modify, mParent_modify, mPrev_modify,
      mNext_modify, mHead_modify, mTail_modify, hhead, htail, hlast]
    clear hhead htail hends hskids
    split_ifs <;> simp_all

/-- `Node_Remove` takes the node out of the list of its group. -/
theorem nodeRemove_eq (h : Tree w kids) (hkids : kids g = l₁ ++ s :: l₂) :
    w.nodeRemove s = w.eraseAt g s l₁ l₂ := by
  rcases h.neighbours hkids with ⟨hparent, hprev, hnext⟩
  have hgroup := h.group g (by simp [hkids])
  have hends := h.ends g hgroup.1 hgroup.2
  have hnd := h.nodup g
  rw [hkids] at hends hnd
  have hs : s ∉ l₁ ++ l₂ :=
    (List.nodup_cons.mp (List.perm_middle.nodup_iff.mp hnd)).1
  have hlast : l₁.getLast? ≠ some s := by
    intro hl
    exact hs (by simp [List.mem_of_getLast? hl])
  have hfirst : l₂.head? ≠ some s := by
    intro hl
    exact hs (by simp [List.mem_of_head? hl])
  have hhead : (l₁ ++ l₂).head? = if l₁.getLast? = none then l₂.head? else (w.mNode g).mHead := by
    rw [hends.1]
    cases l₁ with
    | nil => simp
    | cons a as => simp [List.getLast?_cons]
  have htail : (l₁ ++ l₂).getLast?
      = if l₂.head? = none then l₁.getLast? else (w.mNode g).mTail := by
    rw [hends.2]
    cases l₂ with
    | nil => simp
    | cons a as => simp [List.getLast?_append, List.getLast?_cons_cons]
  unfold nodeRemove unlink
  simp only [hparent, hprev, hnext, linkNext_eq, linkPrev_eq, if_neg hlast]
  refine World.ext (funext fun x => Node.ext ?_ ?_ ?_ ?_ ?_ ?_ ?_) rfl rfl rfl rfl rfl
  all_goals
    simp only [World.eraseAt, mDef_modify, mIsGroup_modify, mParent_modify, mPrev_modify,
      mNext_modify, mHead_modify, mTail_modify, hhead, htail]
  all_goals
    clear hhead htail hends hnd hs
    split_ifs <;> simp_all

theorem nodeRemove_of_unlinked (hparent : (w.mNode s).mParent = none)
    (hprev : (w.mNode s).mPrev = none) (hnext : (w.mNode s).mNext = none) :
    w.nodeRemove s = w := by
  unfold nodeRemove unlink
  simp only [hparent, hprev, hnext, linkNext_eq, linkPrev_eq]
  refine World.ext (funext fun x => Node.ext ?_ ?_ ?_ ?_ ?_ ?_ ?_) rfl rfl rfl rfl rfl
  all_goals by_cases hx : x = s <;> simp [hx, hparent, hprev, hnext]

/-- A node that is in no group is only taken out of the table. -/
theorem nodeDtor_of_unlinked (hparent : (w.mNode s).mParent = none)
    (hprev : (w.mNode s).mPrev = none) (hnext : (w.mNode s).mNext = none) :
    w.nodeDtor s = w.deregister s := by
  unfold nodeDtor
  rw [nodeRemove_of_unlinked hparent hprev hnext]
  rfl

/-- `Node_Delete` of a synth in a group. -/
theorem nodeDelete_eq (h : Tree w kids) (hkids : kids g = l₁ ++ s :: l₂)
    (hsynth : (w.mNode s).mIsGroup = false) :
    w.nodeDelete s = (w.eraseAt g s l₁ l₂).deregister s := by
  have hs0 := (h.mem g s (by simp [hkids])).2.1
  unfold nodeDelete nodeDtor
  rw [if_neg hs0, if_neg (by simp [hsynth]), nodeRemove_eq h hkids]
  rfl

/-- A synth has no children. -/
theorem Tree.kids_eq_nil_of_synth (h : Tree w kids) (hsynth : (w.mNode s).mIsGroup = false) :
    kids s = [] := by
  by_contra hne
  rw [(h.group s hne).2] at hsynth
  cases hsynth

theorem Tree.nodeDelete (h : Tree w kids) (hkids : kids g = l₁ ++ s :: l₂)
    (hsynth : (w.mNode s).mIsGroup = false) :
    Tree (w.nodeDelete s) (Function.update kids g (l₁ ++ l₂)) := by
  have hnil := h.kids_eq_nil_of_synth hsynth
  have hsg : s ≠ g := by
    intro hsg
    rw [hsg, hkids] at hnil
    simp at hnil
  rw [nodeDelete_eq h hkids hsynth]
  refine (h.eraseAt hkids).deregister (h.mem g s (by simp [hkids])).2.1 ?_ ?_
  · simp [World.eraseAt]
  · rw [Function.update_of_ne hsg, hnil]

/-- The pointers that `Node_Replace` sets: the node takes the place of the replaced one. -/
theorem replaceLinks_eq (h : Tree w kids) (hkids : kids g = l₁ ++ n :: l₂)
    (hparent : (w.mNode s).mParent = none) :
    let w₁ := w.modify s fun m => { m with
      mParent := some g, mPrev := (w.mNode n).mPrev, mNext := (w.mNode n).mNext }
    let w₂ := w₁.linkNext (w₁.mNode s).mPrev g (some s)
    (w₂.linkPrev (w₂.mNode s).mNext g (some s)).unlink n =
      (w.eraseAt g n l₁ l₂).insertAt g s l₁ l₂ := by
  rcases h.neighbours hkids with ⟨hnparent, hnprev, hnnext⟩
  have hgroup := h.group g (by simp [hkids])
  have hends := h.ends g hgroup.1 hgroup.2
  have hskids := h.notMem hparent g
  have hnd := h.nodup g
  rw [hkids] at hskids hends hnd
  have hsn : n ≠ s := fun hns => hskids (by simp [hns])
  have hn' : n ∉ l₁ ++ l₂ :=
    (List.nodup_cons.mp (List.perm_middle.nodup_iff.mp hnd)).1
  have hlast : l₁.getLast? ≠ some s ∧ l₁.getLast? ≠ some n :=
    ⟨fun hl => hskids (by simp [List.mem_of_getLast? hl]),
      fun hl => hn' (by simp [List.mem_of_getLast? hl])⟩
  have hfirst : l₂.head? ≠ some s ∧ l₂.head? ≠ some n :=
    ⟨fun hl => hskids (by simp [List.mem_of_head? hl]),
      fun hl => hn' (by simp [List.mem_of_head? hl])⟩
  have hhead : (l₁ ++ s :: l₂).head?
      = if l₁.getLast? = none then some s else (w.mNode g).mHead := by
    rw [hends.1]
    cases l₁ with
    | nil => simp
    | cons a as => simp [List.getLast?_cons]
  have htail : (l₁ ++ s :: l₂).getLast?
      = if l₂.head? = none then some s else (w.mNode g).mTail := by
    rw [hends.2]
    cases l₂ with
    | nil => simp
    | cons a as => simp [List.getLast?_append, List.getLast?_cons_cons]
  unfold unlink
  simp only [mPrev_modify, mNext_modify, if_true, hnprev, hnnext, linkNext_eq, linkPrev_eq,
    if_neg hlast.1]
  refine World.ext (funext fun x => Node.ext ?_ ?_ ?_ ?_ ?_ ?_ ?_) rfl rfl rfl rfl rfl
  all_goals
    simp only [World.eraseAt, World.insertAt, mDef_modify, mIsGroup_modify, mParent_modify,
      mPrev_modify, mNext_modify, mHead_modify, mTail_modify, hhead, htail]
    clear hhead htail hends hnd hn' hskids
    split_ifs <;> simp_all

/-- The replaced node is in no list when it is deleted. -/
theorem nodeReplace_links (h : Tree w kids) (hkids : kids g = l₁ ++ n :: l₂)
    (hs0 : s ≠ 0#32) (hparent : (w.mNode s).mParent = none) :
    w.nodeReplace s n = ((w.eraseAt g n l₁ l₂).insertAt g s l₁ l₂).nodeDelete n ∧
      (((w.eraseAt g n l₁ l₂).insertAt g s l₁ l₂).mNode n).mParent = none ∧
      (((w.eraseAt g n l₁ l₂).insertAt g s l₁ l₂).mNode n).mPrev = none ∧
      (((w.eraseAt g n l₁ l₂).insertAt g s l₁ l₂).mNode n).mNext = none := by
  have hnparent := (h.neighbours hkids).1
  have hskids := h.notMem hparent g
  have hnd := h.nodup g
  rw [hkids] at hskids hnd
  have hsn : n ≠ s := fun hns => hskids (by simp [hns])
  have hn' : n ∉ l₁ ++ l₂ :=
    (List.nodup_cons.mp (List.perm_middle.nodup_iff.mp hnd)).1
  have hlast : l₁.getLast? ≠ some n := fun hl => hn' (by simp [List.mem_of_getLast? hl])
  have hfirst : l₂.head? ≠ some n := fun hl => hn' (by simp [List.mem_of_head? hl])
  refine ⟨?_, ?_, ?_, ?_⟩
  · unfold nodeReplace
    simp only [hnparent, if_neg hs0]
    rw [replaceLinks_eq h hkids hparent]
  · simp [World.insertAt, World.eraseAt, hsn]
  · simp [World.insertAt, World.eraseAt, hsn, hfirst]
  · simp [World.insertAt, World.eraseAt, hsn, hlast]

/-- `Node_Replace` of a synth: it leaves the list, the node takes its place, and it is taken
out of the table. -/
theorem nodeReplace_eq (h : Tree w kids) (hkids : kids g = l₁ ++ n :: l₂)
    (hsynth : (w.mNode n).mIsGroup = false) (hs0 : s ≠ 0#32)
    (hparent : (w.mNode s).mParent = none) :
    w.nodeReplace s n = ((w.eraseAt g n l₁ l₂).insertAt g s l₁ l₂).deregister n := by
  have hn0 := (h.mem g n (by simp [hkids])).2.1
  obtain ⟨hlinks, hnparent, hnprev, hnnext⟩ := nodeReplace_links h hkids hs0 hparent
  rw [hlinks]
  unfold World.nodeDelete
  have hsynth' : ((((w.eraseAt g n l₁ l₂).insertAt g s l₁ l₂)).mNode n).mIsGroup = false := hsynth
  rw [if_neg hn0, if_neg (by simp [hsynth'])]
  exact nodeDtor_of_unlinked hnparent hnprev hnnext

theorem Tree.nodeReplace (h : Tree w kids) (hkids : kids g = l₁ ++ n :: l₂)
    (hsynth : (w.mNode n).mIsGroup = false) (hs : s ∈ w.mNodeLib) (hs0 : s ≠ 0#32)
    (hparent : (w.mNode s).mParent = none) :
    Tree (w.nodeReplace s n) (Function.update kids g (l₁ ++ s :: l₂)) := by
  have hn := h.mem g n (by simp [hkids])
  have hgroup := h.group g (by simp [hkids])
  have hnil := h.kids_eq_nil_of_synth hsynth
  have hng : n ≠ g := by
    intro hng
    rw [hng, hkids] at hnil
    simp at hnil
  have hskids := h.notMem hparent g
  have hsn : n ≠ s := fun hns => hskids (by simp [hkids, hns])
  rw [nodeReplace_eq h hkids hsynth hs0 hparent]
  have herase := h.eraseAt hkids
  have hplace : Function.update kids g (l₁ ++ l₂) g = l₁ ++ l₂ := Function.update_self ..
  have hinsert := herase.insertAt hgroup.1 hgroup.2 hs hs0
    (by simp [World.eraseAt, hsn.symm, hparent]) hplace
  rw [Function.update_idem] at hinsert
  refine hinsert.deregister hn.2.1 ?_ ?_
  · simp [World.insertAt, World.eraseAt, hsn]
  · rw [Function.update_of_ne hng, hnil]

/-! ## Groups of synths -/

/-- The nodes of `l` are cut off and taken out of the table. -/
def free (w : World) (l : List NodeID) : World :=
  { w with
    mNode := fun x => if x ∈ l
      then { w.mNode x with mPrev := none, mNext := none, mParent := none } else w.mNode x
    mNodeLib := w.mNodeLib \ l.toFinset }

/-- The loop of `Group_DeleteAll` over a list of synths, with a turn to spare. -/
theorem deleteFrom_synths {l : List NodeID} (hnd : l.Nodup) (fuel : ℕ) (hfuel : l.length < fuel)
    {p : Option NodeID} (w : World)
    (hlinked : Linked (fun n => (w.mNode n).mPrev) (fun n => (w.mNode n).mNext) p l none)
    (hl : ∀ x ∈ l, x ≠ 0#32 ∧ (w.mNode x).mIsGroup = false) :
    deleteFrom fuel w l.head? = w.free l := by
  induction l generalizing w p fuel with
  | nil =>
    cases fuel with
    | zero => simp at hfuel
    | succ fuel =>
      refine World.ext (funext fun x => ?_) ?_ rfl rfl rfl rfl
      · simp [deleteFrom, free]
      · simp [deleteFrom, free]
  | cons c cs ih =>
    cases fuel with
    | zero => simp at hfuel
    | succ fuel =>
      rcases List.nodup_cons.mp hnd with ⟨hc, hcs⟩
      rcases hlinked with ⟨-, hnext, hrest⟩
      rcases hl c (by simp) with ⟨hc0, hsynth⟩
      have hnext' : (w.mNode c).mNext = cs.head? := by simpa using hnext
      have hdtor : (w.unlink c).nodeDtor c = (w.unlink c).deregister c :=
        nodeDtor_of_unlinked (by simp [unlink]) (by simp [unlink]) (by simp [unlink])
      have hother : ∀ x ∈ cs, ((w.unlink c).deregister c).mNode x = w.mNode x := by
        intro x hx
        have hxc : x ≠ c := fun hxc => hc (hxc ▸ hx)
        simp [unlink, World.deregister, mNode_modify, hxc]
      have hrec := ih hcs fuel (by simp at hfuel; omega) ((w.unlink c).deregister c)
        (p := some c)
        (hrest.congr (fun x hx => by rw [hother x hx]) (fun x hx => by rw [hother x hx]))
        (fun x hx => by rw [hother x hx]; exact hl x (by simp [hx]))
      have hturn : deleteFrom (fuel + 1) w (c :: cs).head?
          = deleteFrom fuel ((w.unlink c).deregister c) cs.head? := by
        rw [List.head?_cons, deleteFrom]
        simp only [hnext', if_neg hc0, hdtor]
        rw [if_neg (by simp [unlink, hsynth])]
      rw [hturn, hrec]
      refine World.ext (funext fun x => ?_) ?_ rfl rfl rfl rfl
      · by_cases hxc : x = c
        · simp [free, World.deregister, unlink, mNode_modify, hxc, hc]
        · simp [free, World.deregister, unlink, mNode_modify, hxc]
      · ext x
        simp [free, World.deregister, unlink, mNodeLib_modify]
        tauto

/-- A list of children is no longer than the table. -/
theorem Tree.length_kids_le (h : Tree w kids) (g : NodeID) :
    (kids g).length ≤ w.mNodeLib.card := by
  rw [← List.toFinset_card_of_nodup (h.nodup g)]
  refine Finset.card_le_card (fun x hx => ?_)
  exact (h.mem g x (List.mem_toFinset.mp hx)).1

/-- `Group_DeleteAll` of a group that holds only synths. -/
theorem groupDeleteAll_eq (h : Tree w kids) (hg : g ∈ w.mNodeLib) (hgroup : (w.mNode g).mIsGroup)
    (hsynths : ∀ x ∈ kids g, (w.mNode x).mIsGroup = false) :
    w.groupDeleteAll g = (w.free (kids g)).modify g fun g => { g with mHead := none, mTail := none } := by
  have hlen := h.length_kids_le g
  unfold groupDeleteAll
  rw [(h.ends g hg hgroup).1, deleteFrom_synths (h.nodup g) _ (by omega) w (h.linked g)
    (fun x hx => ⟨(h.mem g x hx).2.1, hsynths x hx⟩)]

theorem Tree.groupDeleteAll (h : Tree w kids) (hg : g ∈ w.mNodeLib)
    (hgroup : (w.mNode g).mIsGroup) (hsynths : ∀ x ∈ kids g, (w.mNode x).mIsGroup = false) :
    Tree (w.groupDeleteAll g) (Function.update kids g []) := by
  have hgk : g ∉ kids g := by
    intro hmem
    rw [hsynths g hmem] at hgroup
    cases hgroup
  have hzero : 0#32 ∉ kids g := fun hmem => (h.mem g _ hmem).2.1 rfl
  rw [groupDeleteAll_eq h hg hgroup hsynths]
  refine h.setKids ?_ ?_ ?_ hgroup ?_ ?_ ?_ List.nodup_nil ?_ ?_ trivial ?_
  · intro x hx
    have hx' : x ∈ w.mNodeLib ∧ x ∉ kids g := by simpa [free] using hx
    exact ⟨hx'.1, by simp [free, hx'.2]⟩
  · simp [free, h.root.1, hzero]
  · simp [free, hg, hgk]
  · intro x hx
    have hx' : x ∈ w.mNodeLib ∧ x ∉ kids g := by simpa [free] using hx
    simp [free, hx'.2]
  · intro x hx _
    simp [free, hx]
  · intro x hx
    by_cases hxk : x ∈ kids g <;> simp [free, hx, hxk]
  · simp
  · intro x hx hgo
    have hxk : x ∈ kids g := by
      by_contra hxk
      exact hgo (by simp [free, hx, hxk])
    exact ⟨Or.inl hxk, h.kids_eq_nil_of_synth (hsynths x hxk)⟩
  · simp

/-- `Node_Delete` of a group without children. -/
theorem nodeDelete_group_eq {p : NodeID} (h : Tree w kids) (hkids : kids p = l₁ ++ g :: l₂)
    (hgroup : (w.mNode g).mIsGroup) (hempty : kids g = []) :
    w.nodeDelete g = (w.eraseAt p g l₁ l₂).deregister g := by
  have hg := h.mem p g (by simp [hkids])
  have hends := h.ends g hg.1 hgroup
  rw [hempty] at hends
  have hall : w.groupDeleteAll g = w := by
    rw [groupDeleteAll_eq h hg.1 hgroup (by simp [hempty]), hempty]
    refine World.ext (funext fun x => Node.ext ?_ ?_ ?_ ?_ ?_ ?_ ?_) ?_ rfl rfl rfl rfl
    · simp [free]
    · simp [free]
    · simp [free]
    · simp [free]
    · simp [free]
    · by_cases hx : x = g <;> simp [free, hx, hends]
    · by_cases hx : x = g <;> simp [free, hx, hends]
    · simp [free]
  unfold nodeDelete groupDtor
  rw [if_neg hg.2.1, if_pos hgroup, hall]
  unfold nodeDtor
  rw [nodeRemove_eq h hkids]
  rfl

/-! ## The children that a cycle meets -/

theorem siblingsFrom_eq {l : List NodeID} {p : Option NodeID}
    (hlinked : Linked (fun n => (w.mNode n).mPrev) (fun n => (w.mNode n).mNext) p l none)
    (fuel : ℕ) (hfuel : l.length ≤ fuel) : w.siblingsFrom fuel l.head? = l := by
  induction l generalizing p fuel with
  | nil => cases fuel <;> rfl
  | cons c cs ih =>
    cases fuel with
    | zero => simp at hfuel
    | succ fuel =>
      rcases hlinked with ⟨-, hnext, hrest⟩
      have hnext' : (w.mNode c).mNext = cs.head? := by simpa using hnext
      rw [List.head?_cons, siblingsFrom, hnext', ih hrest fuel (by simpa using hfuel)]

/-- A cycle meets the children in the order of their list. -/
theorem Tree.children_eq (h : Tree w kids) (hg : g ∈ w.mNodeLib) (hgroup : (w.mNode g).mIsGroup) :
    w.children g = kids g := by
  unfold children
  rw [(h.ends g hg hgroup).1]
  exact siblingsFrom_eq (h.linked g) _ (h.length_kids_le g)

end World

end PoopWorms.Server
