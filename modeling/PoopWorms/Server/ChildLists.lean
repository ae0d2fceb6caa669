import PoopWorms.Lib.Siblings
import PoopWorms.Server.NodeTree

/-!
# The list surgery as operations on lists

Each primitive of `SC_Node.cpp` and `SC_Group.cpp` that changes the links of a well-formed
tree does to the list of children of every group what the list operation of that name does.
-/

namespace PoopWorms.Server

open Forest Siblings

namespace World

variable {w w' : World} {kids kids' : NodeID → List NodeID} {g n s : NodeID}
  {l all b : List NodeID}

/-- Beside the tree hangs `s`, with all that is below it. -/
def HangsBeside (w : World) (s : NodeID) : Prop := ∃ kids all b, Beside w kids s all b

/-- The surgery on the lists of children. A node that is put somewhere is unlinked first. -/
inductive Surgery
  | nodeRemove (s : NodeID)
  | nodeAddBefore (s beforeThisOne : NodeID)
  | nodeAddAfter (s afterThisOne : NodeID)
  | nodeReplace (s replaceThisOne : NodeID)
  | groupAddHead (s child : NodeID)
  | groupAddTail (s child : NodeID)
  | groupDeleteAll (inGroup : NodeID)
  | groupDeepFreeGraphs (inGroup : NodeID)

def perform (w : World) : Surgery → World
  | .nodeRemove s => w.nodeRemove s
  | .nodeAddBefore s beforeThisOne => (w.nodeRemove s).nodeAddBefore s beforeThisOne
  | .nodeAddAfter s afterThisOne => (w.nodeRemove s).nodeAddAfter s afterThisOne
  | .nodeReplace s replaceThisOne => (w.nodeRemove s).nodeReplace s replaceThisOne
  | .groupAddHead s child => (w.nodeRemove child).groupAddHead s child
  | .groupAddTail s child => (w.nodeRemove child).groupAddTail s child
  | .groupDeleteAll inGroup => w.groupDeleteAll inGroup
  | .groupDeepFreeGraphs inGroup => w.groupDeepFreeGraphs inGroup

namespace Surgery

/-- The node that is put somewhere, or removed. -/
def node : Surgery → Option NodeID
  | nodeRemove s => some s
  | nodeAddBefore s _ => some s
  | nodeAddAfter s _ => some s
  | nodeReplace s _ => some s
  | groupAddHead _ child => some child
  | groupAddTail _ child => some child
  | groupDeleteAll _ => none
  | groupDeepFreeGraphs _ => none

/-- The table is a well-formed tree; the node that is put somewhere may hang beside it. -/
def WellFormed (w : World) (op : Surgery) : Prop :=
  IsTree w ∨ ∃ s, op.node = some s ∧ HangsBeside w s

/-- A node of the table, next to a target that has a parent, and that is neither the node nor
below it. -/
def Joins (w : World) (s target : NodeID) : Prop :=
  s ∈ w.mNodeLib ∧ target ∈ w.mNodeLib ∧ (w.mNode target).mParent ≠ none ∧ ¬ w.Within s target

def IsGroup (w : World) (group : NodeID) : Prop :=
  group ∈ w.mNodeLib ∧ (w.mNode group).mIsGroup

def Fits (w : World) : Surgery → Prop
  | nodeRemove s => s ∈ w.mNodeLib
  | nodeAddBefore s beforeThisOne => Joins w s beforeThisOne
  | nodeAddAfter s afterThisOne => Joins w s afterThisOne
  | nodeReplace s replaceThisOne => Joins w s replaceThisOne
  | groupAddHead s child => child ∈ w.mNodeLib ∧ IsGroup w s ∧ ¬ w.Within child s
  | groupAddTail s child => child ∈ w.mNodeLib ∧ IsGroup w s ∧ ¬ w.Within child s
  | groupDeleteAll inGroup => IsGroup w inGroup
  | groupDeepFreeGraphs inGroup => IsGroup w inGroup

open Classical in
/-- What becomes of the list `l` of the children of `g`. -/
noncomputable def onList (w : World) (op : Surgery) (g : NodeID) (l : List NodeID) : List NodeID :=
  match op with
  | nodeRemove s => takeOut [s] l
  | nodeAddBefore s beforeThisOne => insertBefore beforeThisOne [s] (takeOut [s] l)
  | nodeAddAfter s afterThisOne => insertAfter afterThisOne [s] (takeOut [s] l)
  | nodeReplace s replaceThisOne => substitute replaceThisOne s (takeOut [s] l)
  | groupAddHead s child => if g = s then child :: takeOut [child] l else takeOut [child] l
  | groupAddTail s child => if g = s then takeOut [child] l ++ [child] else takeOut [child] l
  | groupDeleteAll inGroup => if g = inGroup then [] else l
  | groupDeepFreeGraphs inGroup =>
    if w.Within inGroup g then l.filter fun n => (w.mNode n).mIsGroup else l

/-- The nodes that leave the table. -/
def Frees (w : World) (op : Surgery) (n : NodeID) : Prop :=
  match op with
  | nodeReplace s replaceThisOne => (w.nodeRemove s).Within replaceThisOne n
  | groupDeleteAll inGroup => n ≠ inGroup ∧ w.Within inGroup n
  | groupDeepFreeGraphs inGroup => (w.mNode n).mIsGroup = false ∧ w.Within inGroup n
  | _ => False

/-- The list `l` of the children of `g` is one that the surgery is about. -/
def Touches (w : World) (op : Surgery) (g : NodeID) (l : List NodeID) : Prop :=
  match op with
  | nodeRemove s => s ∈ l
  | nodeAddBefore s beforeThisOne => s ∈ l ∨ beforeThisOne ∈ l
  | nodeAddAfter s afterThisOne => s ∈ l ∨ afterThisOne ∈ l
  | nodeReplace s replaceThisOne => s ∈ l ∨ replaceThisOne ∈ l
  | groupAddHead s child => child ∈ l ∨ g = s
  | groupAddTail s child => child ∈ l ∨ g = s
  | groupDeleteAll inGroup => g = inGroup
  | groupDeepFreeGraphs inGroup => w.Within inGroup g

/-- Every other list stays. -/
theorem onList_of_not_touches (w : World) (op : Surgery) (h : ¬ op.Touches w g l) :
    op.onList w g l = l := by
  cases op with
  | nodeRemove s => exact takeOut_singleton_of_notMem h
  | nodeAddBefore s n =>
    obtain ⟨hs, hn⟩ := not_or.mp h
    have hl := takeOut_singleton_of_notMem hs
    exact (congrArg _ hl).trans (insertAround_of_notMem hn)
  | nodeAddAfter s n =>
    obtain ⟨hs, hn⟩ := not_or.mp h
    have hl := takeOut_singleton_of_notMem hs
    exact (congrArg _ hl).trans (insertAround_of_notMem hn)
  | nodeReplace s n =>
    obtain ⟨hs, hn⟩ := not_or.mp h
    have hl := takeOut_singleton_of_notMem hs
    exact (congrArg _ hl).trans (substitute_of_notMem hn)
  | groupAddHead s child =>
    obtain ⟨hchild, hg⟩ := not_or.mp h
    exact (if_neg hg).trans (takeOut_singleton_of_notMem hchild)
  | groupAddTail s child =>
    obtain ⟨hchild, hg⟩ := not_or.mp h
    exact (if_neg hg).trans (takeOut_singleton_of_notMem hchild)
  | groupDeleteAll inGroup => exact if_neg h
  | groupDeepFreeGraphs inGroup => exact if_neg h

/-- From `w` to `w'` the lists of children change as the surgery says, and nothing else does. -/
structure Refines (w : World) (op : Surgery) (w' : World) : Prop where
  wellFormed : op.WellFormed w'
  table : ∀ n, n ∈ w'.mNodeLib ↔ n ∈ w.mNodeLib ∧ ¬ op.Frees w n
  kinds : ∀ n, (w'.mNode n).mIsGroup = (w.mNode n).mIsGroup
  lists : ∀ g, IsGroup w' g → w'.children g = op.onList w g (w.children g)
  others : ∀ g, IsGroup w' g → ¬ op.Touches w g (w.children g) → w'.children g = w.children g

/-- The lists of children may be those that the pointers link. -/
theorem refines_of_tree {op : Surgery} (h : Tree w kids) (h' : Tree w' kids')
    (hwf : op.WellFormed w') (htable : ∀ n, n ∈ w'.mNodeLib ↔ n ∈ w.mNodeLib ∧ ¬ op.Frees w n)
    (hkinds : ∀ n, (w'.mNode n).mIsGroup = (w.mNode n).mIsGroup)
    (hlists : ∀ g ∈ w'.mNodeLib, kids' g = op.onList w g (kids g)) : Refines w op w' := by
  have hgroups : ∀ g, IsGroup w' g → w'.children g = op.onList w g (w.children g) := by
    rintro g ⟨hg, hgroup⟩
    have hg' := ((htable g).mp hg).1
    rw [h'.children_eq hg hgroup, hlists g hg, h.children_eq hg' (hkinds g ▸ hgroup)]
  refine ⟨hwf, htable, hkinds, hgroups, fun g hg htouches => ?_⟩
  rw [hgroups g hg, onList_of_not_touches w op htouches]

end Surgery

open Surgery

/-! ## Unlinking -/

/-- A node that is not below another one is not the root. -/
theorem ne_root_of_not_within (h : IsTree w ∨ HangsBeside w s) (hn : n ∈ w.mNodeLib)
    (hwithin : ¬ w.Within s n) : s ≠ 0#32 := by
  rintro rfl
  rcases h with ⟨kids, all, h⟩ | ⟨kids, all, b, h⟩
  · obtain ⟨b, hb, -⟩ := h.exists_below h.root.1
    have hall := h.spans.unique hb.singleton
    exact hwithin ((h.toTree.within_iff hb hn).mpr (hall ▸ (h.registered n).mpr hn))
  · exact h.ne_root rfl

/-- A node leaves the one list that it is in. -/
theorem Tree.update_eq_takeOut {l₁ l₂ : List NodeID} (h : Tree w kids)
    (hkids : kids g = l₁ ++ s :: l₂) :
    Function.update kids g (l₁ ++ l₂) = fun x => takeOut [s] (kids x) := by
  have hnd := h.nodup g
  rw [hkids, List.nodup_middle, List.nodup_cons, List.mem_append, not_or] at hnd
  funext x
  by_cases hx : x = g
  · subst hx
    rw [Function.update_self, hkids, takeOut_cut hnd.1.1 hnd.1.2]
  · rw [Function.update_of_ne hx, takeOut_singleton_of_notMem]
    intro hmem
    have hparent := (h.mem x s hmem).2.2
    rw [(h.mem g s (by simp [hkids])).2.2] at hparent
    exact hx (Option.some.inj hparent).symm

theorem Tree.nodeRemove (h : Tree w kids) (hs : s ∈ w.mNodeLib)
    (hparent : (w.mNode s).mParent ≠ none) :
    Tree (w.nodeRemove s) fun g => takeOut [s] (kids g) := by
  obtain ⟨g, hg⟩ := Option.ne_none_iff_exists'.mp hparent
  obtain ⟨l₁, l₂, hcut⟩ := List.append_of_mem (h.complete s hs g hg)
  rw [nodeRemove_eq h hcut, ← h.update_eq_takeOut hcut]
  exact h.eraseAt hcut

/-- A node that has been unlinked hangs beside the tree, and is in no list. -/
theorem exists_beside (h : IsTree w ∨ HangsBeside w s) (hs : s ∈ w.mNodeLib) (hs0 : s ≠ 0#32) :
    ∃ kids all b, Tree w kids ∧ Spans kids (kids s) b ∧
      Beside (w.nodeRemove s) (fun g => takeOut [s] (kids g)) s all b := by
  rcases h with ⟨kids, all, h⟩ | ⟨kids, all, b, h⟩
  · obtain ⟨p, l₁, l₂, hkids⟩ := h.exists_cut hs hs0
    obtain ⟨b, hb, -⟩ := h.exists_below hs
    obtain ⟨all', hbeside⟩ := h.eraseAt hkids hb
    rw [h.toTree.update_eq_takeOut hkids, ← nodeRemove_eq h.toTree hkids] at hbeside
    exact ⟨kids, all', b, h.toTree, hb, hbeside⟩
  · have hlists : (fun g => takeOut [s] (kids g)) = kids := by
      funext g
      exact takeOut_singleton_of_notMem (h.toTree.notMem h.unlinked.1 g)
    refine ⟨kids, all, b, h.toTree, h.hanging, ?_⟩
    rw [h.nodeRemove, hlists]
    exact h

/-- One list changes. -/
theorem update_eq_lists {f : NodeID → List NodeID → List NodeID} {m : List NodeID}
    (hm : f g (kids g) = m) (hfar : ∀ x ≠ g, f x (kids x) = kids x) :
    Function.update kids g m = fun x => f x (kids x) := by
  funext x
  by_cases hx : x = g
  · subst hx
    rw [Function.update_self, hm]
  · rw [Function.update_of_ne hx, hfar x hx]

/-- A target next to which the node may go stands in one list of the tree, once. -/
theorem Beside.exists_cut (h : Beside w' kids' s all b) (hn : n ∈ all)
    (hparent : (w'.mNode n).mParent ≠ none) : ∃ g l₁ l₂, kids' g = l₁ ++ n :: l₂ ∧ n ∉ l₁ ∧
      n ∉ l₂ ∧ g ∈ all ∧ (w'.mNode g).mIsGroup ∧ ∀ x ≠ g, n ∉ kids' x := by
  obtain ⟨g, hg⟩ := Option.ne_none_iff_exists'.mp hparent
  obtain ⟨hlib, hns⟩ := (h.mem_all_iff n).mp hn
  have hkid := h.complete n hlib g hg
  obtain ⟨l₁, l₂, hcut⟩ := List.append_of_mem hkid
  have hnd := h.nodup g
  rw [hcut, List.nodup_middle, List.nodup_cons, List.mem_append, not_or] at hnd
  obtain ⟨hglib, hgroup⟩ := h.group g (List.ne_nil_of_mem hkid)
  refine ⟨g, l₁, l₂, hcut, hnd.1.1, hnd.1.2, (h.mem_all_iff g).mpr ⟨hglib, ?_⟩, hgroup, ?_⟩
  · -- what is below the node has all its children there
    intro hgs
    apply hns
    rcases List.mem_cons.mp hgs with rfl | hgb
    · exact List.mem_cons_of_mem _ (h.hanging.mem_of_root hkid)
    · exact List.mem_cons_of_mem _ (h.hanging.mem_of_kid hgb hkid)
  · intro x hx hmem
    have hparentx := (h.mem x n hmem).2.2
    rw [hg] at hparentx
    exact hx (Option.some.inj hparentx).symm

/-- A node unlinked for a target that is not below it. -/
theorem exists_unlinked (h : IsTree w ∨ HangsBeside w s) (hs : s ∈ w.mNodeLib)
    (hn : n ∈ w.mNodeLib) (hwithin : ¬ w.Within s n) :
    ∃ kids all b, Tree w kids ∧ Beside (w.nodeRemove s) (fun g => takeOut [s] (kids g)) s all b ∧
      n ∈ all ∧ n ≠ s := by
  have hs0 := ne_root_of_not_within h hn hwithin
  obtain ⟨kids, all, b, htree, hb, hbeside⟩ := exists_beside h hs hs0
  refine ⟨kids, all, b, htree, hbeside, (hbeside.mem_all_iff n).mpr ⟨?_, ?_⟩, ?_⟩
  · exact ((sameTable_refl w).nodeRemove s).table ▸ hn
  · exact mt (htree.within_iff hb hn).mpr hwithin
  · rintro rfl
    exact hwithin .refl

/-- Unlinking a node leaves the parents of the others. -/
theorem mParent_nodeRemove (w : World) (hn : n ≠ s) :
    ((w.nodeRemove s).mNode n).mParent = (w.mNode n).mParent := by
  unfold nodeRemove unlink
  rw [mParent_modify, if_neg hn, linkPrev_eq, linkNext_eq]

/-- The pointers to the parents are the lists of children, the other way round. -/
theorem IsTree.mParent_eq_some_iff (h : IsTree w) (hn : n ∈ w.mNodeLib) :
    (w.mNode n).mParent = some g ↔ Surgery.IsGroup w g ∧ n ∈ w.children g := by
  obtain ⟨kids, all, h⟩ := h
  constructor
  · intro hparent
    have hkid := h.complete n hn g hparent
    have hg := h.group g (List.ne_nil_of_mem hkid)
    rw [h.toTree.children_eq hg.1 hg.2]
    exact ⟨hg, hkid⟩
  · rintro ⟨hg, hmem⟩
    rw [h.toTree.children_eq hg.1 hg.2] at hmem
    exact (h.mem g n hmem).2.2

namespace Surgery

section Sides

variable (h : IsTree w ∨ HangsBeside w s)

include h

/-- What the surgery next to a node has in common. -/
theorem Joins.exists_cut (hjoins : Joins w s n) :
    ∃ kids all b g l₁ l₂, Tree w kids ∧
      Beside (w.nodeRemove s) (fun g => takeOut [s] (kids g)) s all b ∧ n ∈ all ∧
      takeOut [s] (kids g) = l₁ ++ n :: l₂ ∧ n ∉ l₁ ∧ n ∉ l₂ ∧ g ∈ all ∧
      ((w.nodeRemove s).mNode g).mIsGroup ∧ ∀ x ≠ g, n ∉ takeOut [s] (kids x) := by
  obtain ⟨hs, hn, hparent, hwithin⟩ := hjoins
  obtain ⟨kids, all, b, htree, hbeside, hnall, hns⟩ := exists_unlinked h hs hn hwithin
  have hparent' : ((w.nodeRemove s).mNode n).mParent ≠ none := by
    rw [mParent_nodeRemove w hns]
    exact hparent
  obtain ⟨g, l₁, l₂, hcut⟩ := hbeside.exists_cut hnall hparent'
  exact ⟨kids, all, b, g, l₁, l₂, htree, hbeside, hnall, hcut⟩

theorem nodeAddBefore_refines (hjoins : Joins w s n) :
    Refines w (nodeAddBefore s n) ((w.nodeRemove s).nodeAddBefore s n) := by
  obtain ⟨kids, all, b, g, l₁, l₂, htree, hbeside, -, hcut, h₁, h₂, hg, hgroup, hfar⟩ :=
    hjoins.exists_cut h
  have hsame := ((sameTable_refl w).nodeRemove s).nodeAddBefore s n
  rw [nodeAddBefore_eq hbeside.toTree hcut hbeside.ne_root hbeside.unlinked.1] at hsame ⊢
  obtain ⟨all', htree'⟩ := hbeside.insertAt hcut hg hgroup
  rw [update_eq_lists (f := fun _ => insertBefore n [s]) ?_ ?_] at htree'
  · exact refines_of_tree htree htree'.toTree (.inl ⟨_, _, htree'⟩) (by simp [hsame.table, Frees])
      hsame.group fun g _ => rfl
  · rw [hcut]
    exact insertBefore_cut h₁ h₂
  · exact fun x hx => insertAround_of_notMem (hfar x hx)

theorem nodeAddAfter_refines (hjoins : Joins w s n) :
    Refines w (nodeAddAfter s n) ((w.nodeRemove s).nodeAddAfter s n) := by
  obtain ⟨kids, all, b, g, l₁, l₂, htree, hbeside, -, hcut, h₁, h₂, hg, hgroup, hfar⟩ :=
    hjoins.exists_cut h
  have hcut' : takeOut [s] (kids g) = (l₁ ++ [n]) ++ l₂ := by
    rw [hcut]
    simp
  have hsame := ((sameTable_refl w).nodeRemove s).nodeAddAfter s n
  rw [nodeAddAfter_eq hbeside.toTree hcut hbeside.ne_root hbeside.unlinked.1] at hsame ⊢
  obtain ⟨all', htree'⟩ := hbeside.insertAt hcut' hg hgroup
  rw [update_eq_lists (f := fun _ => insertAfter n [s]) ?_ ?_] at htree'
  · exact refines_of_tree htree htree'.toTree (.inl ⟨_, _, htree'⟩) (by simp [hsame.table, Frees])
      hsame.group fun g _ => rfl
  · rw [hcut]
    exact (insertAfter_cut h₁ h₂).trans (by simp)
  · exact fun x hx => insertAround_of_notMem (hfar x hx)

theorem nodeReplace_refines (hjoins : Joins w s n) :
    Refines w (nodeReplace s n) ((w.nodeRemove s).nodeReplace s n) := by
  obtain ⟨kids, all, b, g, l₁, l₂, htree, hbeside, hn, hcut, h₁, h₂, hg, hgroup, hfar⟩ :=
    hjoins.exists_cut h
  obtain ⟨A, b', B, -, hb'⟩ := hbeside.spans.exists_below hn
  obtain ⟨all', htree', hall'⟩ := hbeside.nodeReplace hcut hg hb'
  rw [update_eq_lists (f := fun _ => substitute n s) ?_ ?_] at htree'
  · have hlib : ∀ x, x ∈ ((w.nodeRemove s).nodeReplace s n).mNodeLib ↔
        x ∈ w.mNodeLib ∧ x ∉ n :: b' := by
      intro x
      rw [← htree'.registered x, hall' x, ((sameTable_refl w).nodeRemove s).table]
    refine refines_of_tree htree htree'.toTree (.inl ⟨_, _, htree'⟩) (fun x => ?_) (fun x => ?_)
      fun x hx => ?_
    · rw [hlib x]
      apply and_congr_right
      intro hx
      have hx' : x ∈ (w.nodeRemove s).mNodeLib := ((sameTable_refl w).nodeRemove s).table ▸ hx
      exact not_congr (hbeside.toTree.within_iff hb' hx').symm
    · rw [mIsGroup_nodeReplace]
      exact ((sameTable_refl w).nodeRemove s).group x
    · -- what is left has its list
      have hx' := ((hlib x).mp hx).2
      rw [List.mem_cons] at hx'
      exact if_neg hx'
  · rw [hcut]
    exact substitute_cut h₁ h₂
  · exact fun x hx => substitute_of_notMem (hfar x hx)

end Sides

section Ends

variable (h : IsTree w ∨ HangsBeside w s) (hs : s ∈ w.mNodeLib) (hg : IsGroup w g)
  (hwithin : ¬ w.Within s g)

include h hs hg hwithin

theorem groupAddHead_refines :
    Refines w (groupAddHead g s) ((w.nodeRemove s).groupAddHead g s) := by
  obtain ⟨kids, all, b, htree, hbeside, hgall, hgs⟩ := exists_unlinked h hs hg.1 hwithin
  have hunlinked := (sameTable_refl w).nodeRemove s
  have hgroup : ((w.nodeRemove s).mNode g).mIsGroup := (hunlinked.group g).trans hg.2
  have hsame := hunlinked.groupAddHead g s
  rw [groupAddHead_eq hbeside.toTree (hunlinked.table ▸ hg.1) hgroup hbeside.ne_root hgs.symm
    hbeside.unlinked.1] at hsame ⊢
  obtain ⟨all', htree'⟩ := hbeside.insertAt (List.nil_append _).symm hgall hgroup
  rw [update_eq_lists (f := fun x l => if x = g then s :: l else l) ?_ ?_] at htree'
  · exact refines_of_tree htree htree'.toTree (.inl ⟨_, _, htree'⟩) (by simp [hsame.table, Frees])
      hsame.group fun g _ => rfl
  · exact if_pos rfl
  · exact fun x hx => if_neg hx

theorem groupAddTail_refines :
    Refines w (groupAddTail g s) ((w.nodeRemove s).groupAddTail g s) := by
  obtain ⟨kids, all, b, htree, hbeside, hgall, hgs⟩ := exists_unlinked h hs hg.1 hwithin
  have hunlinked := (sameTable_refl w).nodeRemove s
  have hgroup : ((w.nodeRemove s).mNode g).mIsGroup := (hunlinked.group g).trans hg.2
  have hsame := hunlinked.groupAddTail g s
  rw [groupAddTail_eq hbeside.toTree (hunlinked.table ▸ hg.1) hgroup hbeside.ne_root hgs.symm
    hbeside.unlinked.1] at hsame ⊢
  obtain ⟨all', htree'⟩ := hbeside.insertAt (List.append_nil _).symm hgall hgroup
  rw [update_eq_lists (f := fun x l => if x = g then l ++ [s] else l) ?_ ?_] at htree'
  · exact refines_of_tree htree htree'.toTree (.inl ⟨_, _, htree'⟩) (by simp [hsame.table, Frees])
      hsame.group fun g _ => rfl
  · exact if_pos rfl
  · exact fun x hx => if_neg hx

end Ends

/-- The root is in no list, and stays as it is. -/
theorem nodeRemove_refines (h : IsTree w ∨ HangsBeside w s) (hs : s ∈ w.mNodeLib) :
    Refines w (nodeRemove s) (w.nodeRemove s) := by
  have hsame := (sameTable_refl w).nodeRemove s
  have htable : ∀ n, n ∈ (w.nodeRemove s).mNodeLib ↔ n ∈ w.mNodeLib ∧ ¬ False := by
    simp [hsame.table]
  by_cases hs0 : s = 0#32
  · subst hs0
    rcases h with ⟨kids, all, h⟩ | ⟨kids, all, b, h⟩
    · rw [h.nodeRemove_root] at hsame htable ⊢
      refine refines_of_tree h.toTree h.toTree (.inl ⟨kids, all, h⟩) htable hsame.group ?_
      intro g _
      exact (takeOut_singleton_of_notMem (h.toTree.notMem h.root.2.2 g)).symm
    · exact absurd rfl h.ne_root
  · obtain ⟨kids, all, b, htree, -, hbeside⟩ := exists_beside h hs hs0
    exact refines_of_tree htree hbeside.toTree (.inr ⟨s, rfl, _, _, _, hbeside⟩) htable hsame.group
      fun g _ => rfl

/-! ## Freeing -/

theorem groupDeleteAll_refines (h : IsTree w) (hg : IsGroup w g) :
    Refines w (groupDeleteAll g) (w.groupDeleteAll g) := by
  obtain ⟨kids, all, h⟩ := h
  obtain ⟨b, hb, hndb, hgb⟩ := h.exists_below hg.1
  obtain ⟨all', htree'⟩ := h.groupDeleteAll hg.1 hg.2 hb
  have hlib : ∀ x, x ∈ (w.groupDeleteAll g).mNodeLib ↔ x ∈ w.mNodeLib ∧ x ∉ b := by
    intro x
    rw [groupDeleteAll_eq_freeAll h.toTree hb hg.1 hg.2 hndb]
    show x ∈ w.mNodeLib \ b.toFinset ↔ _
    rw [Finset.mem_sdiff, List.mem_toFinset]
  refine refines_of_tree h.toTree htree'.toTree (.inl ⟨_, _, htree'⟩) (fun x => ?_)
    (mIsGroup_groupDeleteAll w g) fun x hx => ?_
  · rw [hlib x]
    apply and_congr_right
    intro hx
    show x ∉ b ↔ ¬ (x ≠ g ∧ w.Within g x)
    rw [h.toTree.within_iff hb hx, List.mem_cons]
    have hne : x ∈ b → x ≠ g := by
      rintro hxb rfl
      exact hgb hxb
    tauto
  · have hxb := ((hlib x).mp hx).2
    show (if x = g ∨ x ∈ b then [] else kids x) = if x = g then [] else kids x
    by_cases hxg : x = g
    · rw [if_pos (.inl hxg), if_pos hxg]
    · rw [if_neg (not_or.mpr ⟨hxg, hxb⟩), if_neg hxg]

theorem groupDeepFreeGraphs_refines (h : IsTree w) (hg : IsGroup w g) :
    Refines w (groupDeepFreeGraphs g) (w.groupDeepFreeGraphs g) := by
  obtain ⟨kids, all, h⟩ := h
  obtain ⟨b, hb, -⟩ := h.exists_below hg.1
  obtain ⟨kids', all', htree', hbelow, hfar, hkinds, htable⟩ :=
    h.groupDeepFreeGraphs_lists hg.1 hg.2 hb
  refine refines_of_tree h.toTree htree'.toTree (.inl ⟨_, _, htree'⟩) (fun x => ?_) hkinds
    fun x hx => ?_
  · rw [htable x]
    apply and_congr_right
    intro hx
    show (x ∈ b → (w.mNode x).mIsGroup) ↔ ¬ ((w.mNode x).mIsGroup = false ∧ w.Within g x)
    rw [h.toTree.within_iff hb hx, List.mem_cons]
    have hgx : x = g → (w.mNode x).mIsGroup = true := by
      rintro rfl
      exact hg.2
    cases hxgroup : (w.mNode x).mIsGroup with
    | true => simp
    | false =>
      rw [hxgroup] at hgx
      have hne : x ≠ g := fun heq => absurd (hgx heq) (by simp)
      simp [hne]
  · have hwithin := h.toTree.within_iff hb ((htable x).mp hx).1
    by_cases hxb : x ∈ g :: b
    · exact (hbelow x hxb).trans (if_pos (hwithin.mpr hxb)).symm
    · exact (hfar x hxb).trans (if_neg (mt hwithin.mp hxb)).symm

end Surgery

/-- The list primitives refine operations on ordered lists of children. -/
theorem perform_refines (w : World) (op : Surgery) (hwf : op.WellFormed w) (hfits : op.Fits w) :
    op.Refines w (w.perform op) := by
  have hnode : ∀ s, op.node = some s → IsTree w ∨ HangsBeside w s := by
    intro s hs
    rcases hwf with htree | ⟨s', hs', hbeside⟩
    · exact .inl htree
    · rw [hs] at hs'
      exact .inr (Option.some.inj hs' ▸ hbeside)
  have hnone : op.node = none → IsTree w := by
    intro hop
    rcases hwf with htree | ⟨s', hs', -⟩
    · exact htree
    · rw [hop] at hs'
      cases hs'
  cases op with
  | nodeRemove s => exact nodeRemove_refines (hnode s rfl) hfits
  | nodeAddBefore s n => exact nodeAddBefore_refines (hnode s rfl) hfits
  | nodeAddAfter s n => exact nodeAddAfter_refines (hnode s rfl) hfits
  | nodeReplace s n => exact nodeReplace_refines (hnode s rfl) hfits
  | groupAddHead g s => exact groupAddHead_refines (hnode s rfl) hfits.1 hfits.2.1 hfits.2.2
  | groupAddTail g s => exact groupAddTail_refines (hnode s rfl) hfits.1 hfits.2.1 hfits.2.2
  | groupDeleteAll g => exact groupDeleteAll_refines (hnone rfl) hfits
  | groupDeepFreeGraphs g => exact groupDeepFreeGraphs_refines (hnone rfl) hfits

/-- A new synth goes to the head of the root group. -/
theorem perform_refines_newSynth : Refines
    ((World.new kDefaultWorldOptions []).register 1#32 [] false) (.groupAddHead 0#32 1#32)
    (((World.new kDefaultWorldOptions []).register 1#32 [] false).perform
      (.groupAddHead 0#32 1#32)) := by
  have hnew : (1#32 : NodeID) ∉ (World.new kDefaultWorldOptions []).mNodeLib := by decide
  apply perform_refines
  · exact .inr ⟨1#32, rfl, _, _, _, (rooted_new _ _).register hnew (by decide) _ _⟩
  · refine ⟨Finset.mem_insert_self .., ⟨?_, rfl⟩, ?_⟩
    · exact Finset.mem_insert_of_mem (rooted_new _ _).root.1
    · intro hwithin
      rcases hwithin.cases_head with heq | ⟨p, hparent, -⟩
      · cases heq
      · cases hparent

end World

end PoopWorms.Server
