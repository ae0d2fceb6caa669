import PoopWorms.Lib.Forest
import PoopWorms.Server.WorldTheorems

/-!
# The tree below the root group

`Rooted w kids all` says that the lists of children that the pointers of `w` link make a
finite tree below the root group, and that `all` lists in preorder the nodes of the table,
each once. Nodes join the tree, leave it with all that is below them, and move in it.
-/

namespace PoopWorms.Server

open Forest LinkedList

namespace World

variable {w w' : World} {kids kids' : NodeID → List NodeID} {g n p s : NodeID}
  {l l₁ l₂ m₁ m₂ a all b below : List NodeID}

/-- The nodes of the table are a finite tree below the root group. -/
structure Rooted (w : World) (kids : NodeID → List NodeID) (all : List NodeID) : Prop
    extends Tree w kids where
  spans : Spans kids [0#32] all
  once : all.Nodup
  registered : ∀ n, n ∈ all ↔ n ∈ w.mNodeLib
  alone : (w.mNode 0#32).mPrev = none ∧ (w.mNode 0#32).mNext = none

/-- All pointers agree, no node is below itself, and every node of the table is reached from
the root exactly once. -/
def IsTree (w : World) : Prop := ∃ kids all, Rooted w kids all

theorem root_register (hs0 : s ≠ 0#32) (mDef : List Octets.Byte) (mIsGroup : Bool) :
    (w.register s mDef mIsGroup).mNode 0#32 = w.mNode 0#32 := Function.update_of_ne hs0.symm ..

/-- Going from parent to parent leads from `n` to `s`. -/
def Within (w : World) (s n : NodeID) : Prop :=
  Relation.ReflTransGen (fun x y => (w.mNode x).mParent = some y) n s

/-! ## What the surgery leaves alone -/

/-- The surgery on the links changes neither the table, nor the IDs that `-1` and the hidden
nodes stand for, nor which nodes are groups. -/
structure SameTable (w w' : World) : Prop where
  table : w'.mNodeLib = w.mNodeLib
  hidden : w'.mHiddenID = w.mHiddenID
  group : ∀ n, (w'.mNode n).mIsGroup = (w.mNode n).mIsGroup
  recent : w'.mRecentID = w.mRecentID

theorem sameTable_refl (w : World) : SameTable w w := ⟨rfl, rfl, fun _ => rfl, rfl⟩

namespace SameTable

variable (h : SameTable w w')

include h

theorem modify {f : Node → Node} (hf : ∀ node, (f node).mIsGroup = node.mIsGroup) :
    SameTable w (w'.modify n f) := by
  refine ⟨h.table, h.hidden, fun x => ?_, h.recent⟩
  rw [mNode_modify]
  split_ifs
  · exact (hf _).trans (h.group x)
  · exact h.group x

theorem unlink (n : NodeID) : SameTable w (w'.unlink n) := by
  unfold World.unlink
  exact h.modify fun _ => rfl

theorem linkNext (prev group x : Option NodeID) : SameTable w (w'.linkNext prev group x) := by
  unfold World.linkNext
  split
  · exact h.modify fun _ => rfl
  · exact h.modify fun _ => rfl
  · exact h

theorem linkPrev (next group x : Option NodeID) : SameTable w (w'.linkPrev next group x) := by
  unfold World.linkPrev
  split
  · exact h.modify fun _ => rfl
  · exact h.modify fun _ => rfl
  · exact h

theorem nodeRemove (s : NodeID) : SameTable w (w'.nodeRemove s) := by
  unfold World.nodeRemove
  apply SameTable.modify
  · exact (h.linkNext ..).linkPrev ..
  · intro node
    rfl

theorem nodeAddBefore (s n : NodeID) : SameTable w (w'.nodeAddBefore s n) := by
  unfold World.nodeAddBefore
  split
  · exact h
  · split_ifs
    · exact h
    · apply SameTable.modify
      · apply SameTable.linkNext
        exact h.modify fun _ => rfl
      · intro node
        rfl

theorem nodeAddAfter (s n : NodeID) : SameTable w (w'.nodeAddAfter s n) := by
  unfold World.nodeAddAfter
  split
  · exact h
  · split_ifs
    · exact h
    · apply SameTable.modify
      · apply SameTable.linkPrev
        exact h.modify fun _ => rfl
      · intro node
        rfl

theorem groupAddHead (g s : NodeID) : SameTable w (w'.groupAddHead g s) := by
  unfold World.groupAddHead
  split_ifs
  · exact h
  · apply SameTable.modify
    · have hchild : SameTable w (w'.modify s fun c =>
          { c with mPrev := none, mNext := (w'.mNode g).mHead }) := h.modify fun _ => rfl
      split
      · apply SameTable.modify
        · exact hchild.modify fun _ => rfl
        · intro node
          rfl
      · exact hchild.modify fun _ => rfl
    · intro node
      rfl

theorem groupAddTail (g s : NodeID) : SameTable w (w'.groupAddTail g s) := by
  unfold World.groupAddTail
  split_ifs
  · exact h
  · apply SameTable.modify
    · have hchild : SameTable w (w'.modify s fun c =>
          { c with mPrev := (w'.mNode g).mTail, mNext := none }) := h.modify fun _ => rfl
      split
      · apply SameTable.modify
        · exact hchild.modify fun _ => rfl
        · intro node
          rfl
      · exact hchild.modify fun _ => rfl
    · intro node
      rfl

end SameTable

/-! ## All below a group is freed -/

/-- What is left of a node that was freed. -/
def cutOff (node : Node) : Node :=
  { node with
    mPrev := none
    mNext := none
    mParent := none
    mHead := if node.mIsGroup then none else node.mHead
    mTail := if node.mIsGroup then none else node.mTail }

theorem cutOff_cutOff (node : Node) : cutOff (cutOff node) = cutOff node := by
  cases hgroup : node.mIsGroup <;> simp [cutOff, hgroup]

/-- The nodes of `l` are cut off and taken out of the table, groups as empty ones. -/
def freeAll (w : World) (l : List NodeID) : World :=
  { w with
    mNode := fun x => if l.contains x then cutOff (w.mNode x) else w.mNode x
    mNodeLib := w.mNodeLib \ l.toFinset }

theorem mNode_freeAll (hx : n ∉ l) : (w.freeAll l).mNode n = w.mNode n := by
  apply if_neg
  rwa [List.contains_iff_mem]

theorem mNode_freeAll_of_mem (hx : n ∈ l) : (w.freeAll l).mNode n = cutOff (w.mNode n) := by
  apply if_pos
  rwa [List.contains_iff_mem]

theorem freeAll_nil (w : World) : w.freeAll [] = w := by
  refine World.ext (funext fun x => mNode_freeAll List.not_mem_nil) ?_ rfl rfl rfl rfl
  simp [freeAll]

theorem freeAll_freeAll (w : World) (l₁ l₂ : List NodeID) :
    (w.freeAll l₁).freeAll l₂ = w.freeAll (l₁ ++ l₂) := by
  refine World.ext (funext fun x => ?_) ?_ rfl rfl rfl rfl
  · by_cases h₂ : x ∈ l₂
    · rw [mNode_freeAll_of_mem h₂, mNode_freeAll_of_mem (List.mem_append_right _ h₂)]
      by_cases h₁ : x ∈ l₁
      · rw [mNode_freeAll_of_mem h₁, cutOff_cutOff]
      · rw [mNode_freeAll h₁]
    · rw [mNode_freeAll h₂]
      by_cases h₁ : x ∈ l₁
      · rw [mNode_freeAll_of_mem h₁, mNode_freeAll_of_mem (List.mem_append_left _ h₁)]
      · rw [mNode_freeAll h₁, mNode_freeAll (by simp [h₁, h₂])]
  · show (w.mNodeLib \ l₁.toFinset) \ l₂.toFinset = w.mNodeLib \ (l₁ ++ l₂).toFinset
    rw [List.toFinset_append, sdiff_sdiff_left]
    rfl

theorem mNode_unlink_self (w : World) (n : NodeID) :
    (w.unlink n).mNode n = { w.mNode n with mPrev := none, mNext := none, mParent := none } :=
  Function.update_self ..

theorem mNode_unlink_of_ne (w : World) {x : NodeID} (hx : x ≠ n) :
    (w.unlink n).mNode x = w.mNode x := Function.update_of_ne hx ..

/-- One turn of `Group_DeleteAll`, for a synth. -/
theorem nodeDtor_synth (hsynth : (w.mNode n).mIsGroup = false) :
    (w.unlink n).nodeDtor n = w.freeAll [n] := by
  rw [nodeDtor_of_unlinked (by simp [mNode_unlink_self]) (by simp [mNode_unlink_self])
    (by simp [mNode_unlink_self])]
  refine World.ext (funext fun x => ?_) ?_ rfl rfl rfl rfl
  · by_cases hx : x = n
    · subst hx
      rw [mNode_freeAll_of_mem List.mem_cons_self]
      show (w.unlink x).mNode x = _
      rw [mNode_unlink_self]
      simp [cutOff, hsynth]
    · rw [mNode_freeAll (by simpa using hx)]
      exact mNode_unlink_of_ne w hx
  · show w.mNodeLib.erase n = w.mNodeLib \ [n].toFinset
    rw [List.toFinset_cons, List.toFinset_nil, Finset.sdiff_insert, Finset.sdiff_empty]

/-- One turn of `Group_DeleteAll`, for a group below which everything is gone. -/
theorem nodeDtor_group (hgroup : (w.mNode n).mIsGroup) (hn : n ∉ l) :
    (((w.unlink n).freeAll l).modify n fun g => { g with mHead := none, mTail := none }).nodeDtor n
      = w.freeAll (n :: l) := by
  have hself : ((w.unlink n).freeAll l).mNode n =
      { w.mNode n with mPrev := none, mNext := none, mParent := none } := by
    rw [mNode_freeAll hn, mNode_unlink_self]
  rw [nodeDtor_of_unlinked (by simp [hself]) (by simp [hself]) (by simp [hself])]
  refine World.ext (funext fun x => ?_) ?_ rfl rfl rfl rfl
  · by_cases hx : x = n
    · subst hx
      rw [mNode_freeAll_of_mem List.mem_cons_self]
      show (Function.update _ x _ : NodeID → Node) x = _
      rw [Function.update_self, hself]
      simp [cutOff, hgroup]
    · show (Function.update _ n _ : NodeID → Node) x = _
      rw [Function.update_of_ne hx]
      by_cases hxl : x ∈ l
      · rw [mNode_freeAll_of_mem hxl, mNode_freeAll_of_mem (List.mem_cons_of_mem _ hxl),
          mNode_unlink_of_ne w hx]
      · rw [mNode_freeAll hxl, mNode_freeAll (by simp [hx, hxl]), mNode_unlink_of_ne w hx]
  · show (w.mNodeLib \ l.toFinset).erase n = w.mNodeLib \ (n :: l).toFinset
    rw [List.toFinset_cons, Finset.sdiff_insert]

/-- The loop of `Group_DeleteAll` frees the forest below the children that it visits. -/
theorem deleteFrom_eq {p : Option NodeID} (hspans : Spans kids l a) (hnd : a.Nodup) (fuel : ℕ)
    (hfuel : a.length < fuel) (h0 : 0#32 ∉ a)
    (hlinked : Linked (fun n => (w.mNode n).mPrev) (fun n => (w.mNode n).mNext) p l none)
    (hgroup : ∀ x ∈ a, (w.mNode x).mIsGroup → (w.mNode x).mHead = (kids x).head? ∧
      Linked (fun n => (w.mNode n).mPrev) (fun n => (w.mNode n).mNext) none (kids x) none)
    (hsynth : ∀ x ∈ a, (w.mNode x).mIsGroup = false → kids x = []) :
    deleteFrom fuel w l.head? = w.freeAll a := by
  induction hspans generalizing w p fuel with
  | nil =>
    cases fuel with
    | zero => simp at hfuel
    | succ fuel => exact (freeAll_nil w).symm
  | @cons x xs below rest hbelow hrest ihbelow ihrest =>
    cases fuel with
    | zero => simp at hfuel
    | succ fuel =>
      rw [List.nodup_cons, List.nodup_append] at hnd
      obtain ⟨hx, hndBelow, hndRest, hdisjoint⟩ := hnd
      rw [List.mem_append, not_or] at hx
      rw [List.length_cons, List.length_append] at hfuel
      obtain ⟨-, hnext, hlinkedRest⟩ := hlinked
      have hnext' : (w.mNode x).mNext = xs.head? := by simpa using hnext
      have hx0 : x ≠ 0#32 := by
        rintro rfl
        exact h0 List.mem_cons_self
      have hgroupx := hgroup x List.mem_cons_self
      have hsynthx := hsynth x List.mem_cons_self
      -- the first child goes, with all below it
      have hfirst : (if ((w.unlink x).mNode x).mIsGroup then
          ((deleteFrom fuel (w.unlink x) ((w.unlink x).mNode x).mHead).modify x fun g =>
            { g with mHead := none, mTail := none }).nodeDtor x
          else (w.unlink x).nodeDtor x) = w.freeAll (x :: below) := by
        cases hisGroup : (w.mNode x).mIsGroup with
        | true =>
          obtain ⟨hhead, hkids⟩ := hgroupx hisGroup
          have hsub : ∀ y ∈ below, (w.unlink x).mNode y = w.mNode y := by
            intro y hy
            apply mNode_unlink_of_ne
            rintro rfl
            exact hx.1 hy
          have hkidsSub : ∀ y ∈ below, ∀ z ∈ kids y, z ∈ below :=
            fun y hy z hz => hbelow.mem_of_kid hy hz
          have hloop := ihbelow (w := w.unlink x) (p := none) hndBelow fuel (by omega)
            (fun hmem => h0 (by simp [hmem]))
            (hkids.congr (fun y hy => by rw [hsub y (hbelow.mem_of_root hy)])
              (fun y hy => by rw [hsub y (hbelow.mem_of_root hy)]))
            (fun y hy hy' => by
              rw [hsub y hy] at hy' ⊢
              obtain ⟨hyhead, hylinked⟩ := hgroup y (by simp [hy]) hy'
              exact ⟨hyhead, hylinked.congr
                (fun z hz => by rw [hsub z (hkidsSub y hy z hz)])
                (fun z hz => by rw [hsub z (hkidsSub y hy z hz)])⟩)
            (fun y hy hy' => by
              rw [hsub y hy] at hy'
              exact hsynth y (by simp [hy]) hy')
          rw [mNode_unlink_self, if_pos hisGroup]
          dsimp only
          rw [hhead, hloop]
          exact nodeDtor_group hisGroup hx.1
        | false =>
          have hleaf := hsynthx hisGroup
          rw [hleaf] at hbelow
          cases hbelow
          rw [mNode_unlink_self, if_neg (by simp [hisGroup])]
          exact nodeDtor_synth hisGroup
      -- the rest of the loop
      have hfar : ∀ y ∈ rest, (w.freeAll (x :: below)).mNode y = w.mNode y := by
        intro y hy
        apply mNode_freeAll
        rw [List.mem_cons, not_or]
        exact ⟨fun heq => hx.2 (heq ▸ hy), fun hmem => hdisjoint y hmem y hy rfl⟩
      have hkidsRest : ∀ y ∈ rest, ∀ z ∈ kids y, z ∈ rest :=
        fun y hy z hz => hrest.mem_of_kid hy hz
      have hloop := ihrest (w := w.freeAll (x :: below)) (p := some x) hndRest fuel (by omega)
        (fun hmem => h0 (by simp [hmem]))
        (hlinkedRest.congr (fun y hy => by rw [hfar y (hrest.mem_of_root hy)])
          (fun y hy => by rw [hfar y (hrest.mem_of_root hy)]))
        (fun y hy hy' => by
          rw [hfar y hy] at hy' ⊢
          obtain ⟨hyhead, hylinked⟩ := hgroup y (by simp [hy]) hy'
          exact ⟨hyhead, hylinked.congr
            (fun z hz => by rw [hfar z (hkidsRest y hy z hz)])
            (fun z hz => by rw [hfar z (hkidsRest y hy z hz)])⟩)
        (fun y hy hy' => by
          rw [hfar y hy] at hy'
          exact hsynth y (by simp [hy]) hy')
      rw [List.head?_cons, deleteFrom]
      dsimp only
      rw [if_neg hx0, hnext', hfirst, hloop, freeAll_freeAll, List.cons_append]

theorem mIsGroup_nodeDtor (w : World) (s n : NodeID) :
    ((w.nodeDtor s).mNode n).mIsGroup = (w.mNode n).mIsGroup :=
  ((sameTable_refl w).nodeRemove s).group n

theorem mIsGroup_deleteFrom (fuel : ℕ) (w : World) (child : Option NodeID) (n : NodeID) :
    ((deleteFrom fuel w child).mNode n).mIsGroup = (w.mNode n).mIsGroup := by
  induction fuel generalizing w child with
  | zero => rfl
  | succ fuel ih =>
    cases child with
    | none => rfl
    | some child =>
      have hunlink := ((sameTable_refl w).unlink child).group n
      rw [deleteFrom, ih]
      split_ifs
      · exact hunlink
      · rw [mIsGroup_nodeDtor, mIsGroup_modify, ite_self, ih]
        exact hunlink
      · rw [mIsGroup_nodeDtor]
        exact hunlink

theorem mIsGroup_groupDeleteAll (w : World) (g n : NodeID) :
    ((w.groupDeleteAll g).mNode n).mIsGroup = (w.mNode n).mIsGroup := by
  unfold groupDeleteAll
  rw [mIsGroup_modify, ite_self, mIsGroup_deleteFrom]

theorem mIsGroup_nodeDelete (w : World) (s n : NodeID) :
    ((w.nodeDelete s).mNode n).mIsGroup = (w.mNode n).mIsGroup := by
  unfold nodeDelete groupDtor
  split_ifs
  · rfl
  · rw [mIsGroup_nodeDtor, mIsGroup_groupDeleteAll]
  · rw [mIsGroup_nodeDtor]

theorem mIsGroup_nodeReplace (w : World) (s n x : NodeID) :
    ((w.nodeReplace s n).mNode x).mIsGroup = (w.mNode x).mIsGroup := by
  unfold nodeReplace
  split
  · rfl
  · split_ifs
    · rfl
    · rw [mIsGroup_nodeDelete]
      apply SameTable.group
      apply SameTable.unlink
      apply SameTable.linkPrev
      apply SameTable.linkNext
      exact (sameTable_refl w).modify fun _ => rfl

/-! ## Below a group -/

section Below

variable (h : Tree w kids) (hspans : Spans kids (kids g) below)

include h hspans

theorem Tree.mem_of_below (hn : n ∈ below) : n ∈ w.mNodeLib ∧ n ≠ 0#32 := by
  obtain ⟨p, -, hkid⟩ := hspans.exists_parent hn
  exact ⟨(h.mem p n hkid).1, (h.mem p n hkid).2.1⟩

/-- A child of something that is not below the group is not below it either. -/
theorem Tree.not_below_of_kid (hp : p ≠ g) (hpb : p ∉ below) (hn : n ∈ kids p) : n ∉ below := by
  intro hmem
  obtain ⟨q, hq, hkid⟩ := hspans.exists_parent hmem
  have heq : q = p :=
    Option.some.inj ((h.mem q n hkid).2.2.symm.trans (h.mem p n hn).2.2)
  subst heq
  rcases hq with hq | hq
  · exact hp hq
  · exact hpb hq

theorem Tree.length_below_le (hnd : below.Nodup) : below.length ≤ w.mNodeLib.card := by
  rw [← List.toFinset_card_of_nodup hnd]
  apply Finset.card_le_card
  intro x hx
  exact (h.mem_of_below hspans (List.mem_toFinset.mp hx)).1

/-- `Group_DeleteAll` frees all that is below the group. -/
theorem groupDeleteAll_eq_freeAll (hg : g ∈ w.mNodeLib) (hgroup : (w.mNode g).mIsGroup)
    (hnd : below.Nodup) : w.groupDeleteAll g =
      (w.freeAll below).modify g fun g => { g with mHead := none, mTail := none } := by
  have hlen := h.length_below_le hspans hnd
  unfold groupDeleteAll
  rw [(h.ends g hg hgroup).1, deleteFrom_eq hspans hnd _ (by omega)
    (fun hmem => (h.mem_of_below hspans hmem).2 rfl) (h.linked g)]
  · intro x hx hxgroup
    exact ⟨(h.ends x (h.mem_of_below hspans hx).1 hxgroup).1, h.linked x⟩
  · intro x _ hsynth
    exact h.kids_eq_nil_of_synth hsynth

/-- Without them the pointers make a tree in which the group has no children. -/
theorem Tree.groupDeleteAll' (hg : g ∈ w.mNodeLib) (hgroup : (w.mNode g).mIsGroup)
    (hnd : below.Nodup) (hgb : g ∉ below) :
    Tree (w.groupDeleteAll g) fun x => if x = g ∨ x ∈ below then [] else kids x := by
  rw [groupDeleteAll_eq_freeAll h hspans hg hgroup hnd]
  have hlib : ∀ x, x ∈ w.mNodeLib \ below.toFinset ↔ x ∈ w.mNodeLib ∧ x ∉ below := by
    intro x
    rw [Finset.mem_sdiff, List.mem_toFinset]
  -- away from the group and what was below it nothing changes
  have hnode : ∀ x ∉ below, ((w.freeAll below).modify g fun g =>
      { g with mHead := none, mTail := none }).mNode x =
      if x = g then { w.mNode x with mHead := none, mTail := none } else w.mNode x := by
    intro x hx
    rw [mNode_modify, mNode_freeAll hx]
  have hkid : ∀ x n, ¬ (x = g ∨ x ∈ below) → n ∈ kids x → n ∉ below := by
    intro x n hx hn
    rw [not_or] at hx
    exact h.not_below_of_kid hspans hx.1 hx.2 hn
  refine ⟨⟨?_, ?_, ?_⟩, ?_, ?_, ?_, ?_, ?_, ?_⟩
  · exact (hlib 0#32).mpr ⟨h.root.1, fun hmem => (h.mem_of_below hspans hmem).2 rfl⟩
  · rw [hnode _ fun hmem => (h.mem_of_below hspans hmem).2 rfl]
    split_ifs
    · exact h.root.2.1
    · exact h.root.2.1
  · rw [hnode _ fun hmem => (h.mem_of_below hspans hmem).2 rfl]
    split_ifs
    · exact h.root.2.2
    · exact h.root.2.2
  · intro x n hn
    split_ifs at hn with hx
    · cases hn
    · have hnb := hkid x n hx hn
      refine ⟨(hlib n).mpr ⟨(h.mem x n hn).1, hnb⟩, (h.mem x n hn).2.1, ?_⟩
      rw [hnode n hnb]
      split_ifs
      · exact (h.mem x n hn).2.2
      · exact (h.mem x n hn).2.2
  · intro x hne
    split_ifs at hne with hx
    · exact absurd rfl hne
    · rw [not_or] at hx
      refine ⟨(hlib x).mpr ⟨(h.group x hne).1, hx.2⟩, ?_⟩
      rw [hnode x hx.2, if_neg hx.1]
      exact (h.group x hne).2
  · intro n hn x hparent
    obtain ⟨hnlib, hnb⟩ := (hlib n).mp hn
    rw [hnode n hnb] at hparent
    have hparent' : (w.mNode n).mParent = some x := by
      split_ifs at hparent
      · exact hparent
      · exact hparent
    have hmem := h.complete n hnlib x hparent'
    rw [if_neg]
    · exact hmem
    · rintro (rfl | hx)
      · exact hnb (hspans.mem_of_root hmem)
      · exact hnb (hspans.mem_of_kid hx hmem)
  · intro x
    split_ifs
    · exact List.nodup_nil
    · exact h.nodup x
  · intro x
    split_ifs with hx
    · exact linked_nil
    · have hsame : ∀ n ∈ kids x, ∀ q : Node → Option NodeID,
          (∀ node : Node, q { node with mHead := none, mTail := none } = q node) →
          q (((w.freeAll below).modify g fun g =>
            { g with mHead := none, mTail := none }).mNode n) = q (w.mNode n) := by
        intro n hn q hq
        rw [hnode n (hkid x n hx hn)]
        split_ifs
        · exact hq _
        · rfl
      exact (h.linked x).congr (fun n hn => hsame n hn Node.mPrev fun _ => rfl)
        (fun n hn => hsame n hn Node.mNext fun _ => rfl)
  · intro x hxlib hxgroup
    obtain ⟨hx, hxb⟩ := (hlib x).mp hxlib
    rw [hnode x hxb] at hxgroup ⊢
    by_cases hxg : x = g
    · rw [if_pos hxg, if_pos (.inl hxg)]
      exact ⟨rfl, rfl⟩
    · rw [if_neg hxg] at hxgroup ⊢
      rw [if_neg (not_or.mpr ⟨hxg, hxb⟩)]
      exact h.ends x hx hxgroup

end Below

/-! ## Leaving the tree -/

/-- No surgery touches the neighbours of the root, which is in no list. -/
theorem Tree.root_eraseAt (h : Tree w kids) (hkids : kids p = l₁ ++ s :: l₂) :
    ((w.eraseAt p s l₁ l₂).mNode 0#32).mPrev = (w.mNode 0#32).mPrev ∧
      ((w.eraseAt p s l₁ l₂).mNode 0#32).mNext = (w.mNode 0#32).mNext := by
  have hne : ∀ x ∈ l₁ ++ s :: l₂, x ≠ 0#32 := fun x hx => (h.mem p x (hkids ▸ hx)).2.1
  have hs : 0#32 ≠ s := (hne s (by simp)).symm
  have hfirst : l₂.head? ≠ some 0#32 := by
    intro heq
    exact hne 0#32 (by simp [List.mem_of_head? heq]) rfl
  have hlast : l₁.getLast? ≠ some 0#32 := by
    intro heq
    exact hne 0#32 (by simp [List.mem_of_getLast? heq]) rfl
  simp only [World.eraseAt, if_neg hs, if_neg hfirst, if_neg hlast, and_self]

theorem Tree.root_insertAt (h : Tree w kids) (hkids : kids g = l₁ ++ l₂) (hs0 : s ≠ 0#32) :
    ((w.insertAt g s l₁ l₂).mNode 0#32).mPrev = (w.mNode 0#32).mPrev ∧
      ((w.insertAt g s l₁ l₂).mNode 0#32).mNext = (w.mNode 0#32).mNext := by
  have hne : ∀ x ∈ l₁ ++ l₂, x ≠ 0#32 := fun x hx => (h.mem g x (hkids ▸ hx)).2.1
  have hfirst : l₂.head? ≠ some 0#32 := by
    intro heq
    exact hne 0#32 (by simp [List.mem_of_head? heq]) rfl
  have hlast : l₁.getLast? ≠ some 0#32 := by
    intro heq
    exact hne 0#32 (by simp [List.mem_of_getLast? heq]) rfl
  simp only [World.insertAt, if_neg hs0.symm, if_neg hfirst, if_neg hlast, and_self]

theorem Tree.root_groupDeleteAll (h : Tree w kids) (hb : Spans kids (kids g) b)
    (hg : g ∈ w.mNodeLib) (hgroup : (w.mNode g).mIsGroup) (hnd : b.Nodup) :
    ((w.groupDeleteAll g).mNode 0#32).mPrev = (w.mNode 0#32).mPrev ∧
      ((w.groupDeleteAll g).mNode 0#32).mNext = (w.mNode 0#32).mNext := by
  have h0 : 0#32 ∉ b := fun hmem => (h.mem_of_below hb hmem).2 rfl
  rw [groupDeleteAll_eq_freeAll h hb hg hgroup hnd, mNode_modify, mNode_freeAll h0]
  split_ifs <;> exact ⟨rfl, rfl⟩

namespace Rooted

variable (h : Rooted w kids all)

include h

/-- Every node but the root is in the list of its parent. -/
theorem exists_cut (hn : n ∈ w.mNodeLib) (hn0 : n ≠ 0#32) :
    ∃ p l₁ l₂, kids p = l₁ ++ n :: l₂ := by
  rcases h.spans.root_or_kid ((h.registered n).mpr hn) with hroot | ⟨p, -, hkid⟩
  · exact absurd (List.mem_singleton.mp hroot) hn0
  · obtain ⟨l₁, l₂, hcut⟩ := List.append_of_mem hkid
    exact ⟨p, l₁, l₂, hcut⟩

/-- What is below a node of the table. -/
theorem exists_below (hn : n ∈ w.mNodeLib) :
    ∃ b, Spans kids (kids n) b ∧ b.Nodup ∧ n ∉ b := by
  obtain ⟨A, b, B, hall, hb⟩ := h.spans.exists_below ((h.registered n).mpr hn)
  have hnd := h.once
  rw [hall, List.append_assoc, List.nodup_append, List.cons_append, List.nodup_cons,
    List.nodup_append] at hnd
  refine ⟨b, hb, hnd.2.1.2.1, ?_⟩
  intro hmem
  exact hnd.2.1.1 (List.mem_append_left _ hmem)

theorem mem_table_of_cut (hkids : kids p = l₁ ++ s :: l₂) : s ∈ w.mNodeLib ∧ s ≠ 0#32 := by
  have hmem : s ∈ kids p := by simp [hkids]
  exact ⟨(h.mem p s hmem).1, (h.mem p s hmem).2.1⟩

theorem parent_mem (hkids : kids p = l₁ ++ s :: l₂) : p ∈ w.mNodeLib ∧ (w.mNode p).mIsGroup :=
  h.group p (by simp [hkids])

/-- A node without children leaves the table. -/
theorem remove_leaf (hkids : kids p = l₁ ++ s :: l₂) (hleaf : kids s = []) :
    ∃ all', Rooted ((w.eraseAt p s l₁ l₂).deregister s)
      (Function.update kids p (l₁ ++ l₂)) all' := by
  have hs0 := (h.mem_table_of_cut hkids).2
  have hsp : s ≠ p := by
    rintro rfl
    rw [hleaf] at hkids
    simp at hkids
  obtain ⟨A, b, B, hall, -, hb, hspans⟩ :=
    h.spans.erase h.once ((h.registered p).mpr (h.parent_mem hkids).1) hkids
  rw [hleaf] at hb
  cases hb
  have honce := h.once
  have hperm : all.Perm (s :: (A ++ B)) := by
    rw [hall, List.append_assoc]
    exact List.perm_middle
  rw [hperm.nodup_iff, List.nodup_cons] at honce
  refine ⟨A ++ B, (h.toTree.eraseAt hkids).deregister hs0 ?_ ?_, hspans, honce.2, ?_, ?_⟩
  · simp [World.eraseAt]
  · rw [Function.update_of_ne hsp, hleaf]
  · intro x
    have hx := hperm.mem_iff (a := x)
    rw [h.registered x, List.mem_cons] at hx
    show _ ↔ x ∈ w.mNodeLib.erase s
    rw [Finset.mem_erase, hx]
    constructor
    · intro hmem
      refine ⟨?_, .inr hmem⟩
      rintro rfl
      exact honce.1 hmem
    · rintro ⟨hne, rfl | hmem⟩
      · exact absurd rfl hne
      · exact hmem
  · have hroot := h.toTree.root_eraseAt hkids
    exact ⟨hroot.1.trans h.alone.1, hroot.2.trans h.alone.2⟩

/-- All that is below a group leaves the table. -/
theorem groupDeleteAll (hg : g ∈ w.mNodeLib) (hgroup : (w.mNode g).mIsGroup)
    (hb : Spans kids (kids g) b) :
    ∃ all', Rooted (w.groupDeleteAll g) (fun x => if x = g ∨ x ∈ b then [] else kids x) all' := by
  obtain ⟨b', hb', hndb, hgb⟩ := h.exists_below hg
  obtain rfl := hb.unique hb'
  obtain ⟨A, B, hall, hA, hspans⟩ := h.spans.update h.once ((h.registered g).mpr hg) hb .nil
    List.not_mem_nil
  rw [List.append_nil] at hspans
  have hperm : all.Perm (b ++ (A ++ B)) := by
    rw [hall, ← List.append_assoc]
    exact List.Perm.append_right _ List.perm_append_comm
  have honce := h.once
  rw [hperm.nodup_iff, List.nodup_append] at honce
  obtain ⟨-, hndAB, hdisjoint⟩ := honce
  have hroot := h.toTree.root_groupDeleteAll hb hg hgroup hndb
  refine ⟨A ++ B, h.toTree.groupDeleteAll' hb hg hgroup hndb hgb, ?_, hndAB, ?_,
    hroot.1.trans h.alone.1, hroot.2.trans h.alone.2⟩
  · apply hspans.congr
    intro x hx
    by_cases hxg : x = g
    · rw [if_pos (.inl hxg), hxg, Function.update_self]
    · have hxb : x ∉ b := fun hmem => hdisjoint x hmem x hx rfl
      rw [if_neg (not_or.mpr ⟨hxg, hxb⟩), Function.update_of_ne hxg]
  · intro x
    rw [groupDeleteAll_eq_freeAll h.toTree hb hg hgroup hndb]
    show _ ↔ x ∈ w.mNodeLib \ b.toFinset
    have hx := hperm.mem_iff (a := x)
    rw [h.registered x, List.mem_append] at hx
    rw [Finset.mem_sdiff, List.mem_toFinset, hx]
    constructor
    · intro hmem
      exact ⟨.inr hmem, fun hxb => hdisjoint x hxb x hmem rfl⟩
    · rintro ⟨hxb | hmem, hxb'⟩
      · exact absurd hxb hxb'
      · exact hmem

/-- `Node_Delete` takes a node with all that is below it out of the tree. -/
theorem nodeDelete (hn : n ∈ w.mNodeLib) : IsTree (w.nodeDelete n) := by
  by_cases hn0 : n = 0#32
  · unfold World.nodeDelete
    rw [if_pos hn0]
    exact ⟨kids, all, h⟩
  · obtain ⟨p, l₁, l₂, hkids⟩ := h.exists_cut hn hn0
    cases hgroup : (w.mNode n).mIsGroup with
    | false =>
      rw [nodeDelete_eq h.toTree hkids hgroup]
      exact ⟨_, h.remove_leaf hkids (h.toTree.kids_eq_nil_of_synth hgroup)⟩
    | true =>
      obtain ⟨b, hb, -, hnb⟩ := h.exists_below hn
      obtain ⟨all₁, h₁⟩ := h.groupDeleteAll hn hgroup hb
      -- the group stays where it was while it is emptied
      have hpn : p ≠ n := by
        rintro rfl
        exact hnb (hb.mem_of_root (by simp [hkids]))
      have hpb : p ∉ b := by
        intro hpb
        exact hnb (hb.mem_of_kid hpb (by simp [hkids]))
      have hkids₁ : (if p = n ∨ p ∈ b then [] else kids p) = l₁ ++ n :: l₂ := by
        rw [if_neg (not_or.mpr ⟨hpn, hpb⟩), hkids]
      unfold World.nodeDelete groupDtor nodeDtor
      rw [if_neg hn0, if_pos hgroup, nodeRemove_eq h₁.toTree hkids₁]
      exact ⟨_, h₁.remove_leaf hkids₁ (if_pos (.inl rfl))⟩

end Rooted

/-! ## Beside the tree -/

/-- The nodes of the table are a tree below the root and, beside it, `s` with all that is
below it. -/
structure Beside (w : World) (kids : NodeID → List NodeID) (s : NodeID)
    (all b : List NodeID) : Prop extends Tree w kids where
  spans : Spans kids [0#32] all
  hanging : Spans kids (kids s) b
  once : (all ++ s :: b).Nodup
  registered : ∀ n, n ∈ all ++ s :: b ↔ n ∈ w.mNodeLib
  alone : (w.mNode 0#32).mPrev = none ∧ (w.mNode 0#32).mNext = none
  unlinked : (w.mNode s).mParent = none ∧ (w.mNode s).mPrev = none ∧ (w.mNode s).mNext = none

/-- A node leaves its list with all that is below it. -/
theorem Rooted.eraseAt (h : Rooted w kids all) (hkids : kids p = l₁ ++ s :: l₂)
    (hb : Spans kids (kids s) b) :
    ∃ all', Beside (w.eraseAt p s l₁ l₂) (Function.update kids p (l₁ ++ l₂)) s all' b := by
  obtain ⟨A, b', B, hall, hA, hb', hspans⟩ :=
    h.spans.erase h.once ((h.registered p).mpr (h.parent_mem hkids).1) hkids
  obtain rfl := hb.unique hb'
  have hperm : all.Perm (A ++ B ++ s :: b) := by
    rw [hall, List.append_assoc, List.append_assoc]
    exact List.Perm.append_left _ List.perm_append_comm
  have honce := h.once
  rw [hperm.nodup_iff] at honce
  have hps : p ∉ s :: b := fun hmem =>
    (List.nodup_append.mp honce).2.2 p (List.mem_append_left _ hA) p hmem rfl
  rw [List.mem_cons, not_or] at hps
  have hroot := h.toTree.root_eraseAt hkids
  refine ⟨A ++ B, h.toTree.eraseAt hkids, hspans, ?_, honce, ?_,
    ⟨hroot.1.trans h.alone.1, hroot.2.trans h.alone.2⟩, ?_⟩
  · -- what is below the node stays below it
    rw [Function.update_of_ne (Ne.symm hps.1)]
    exact hb.congr_update hps.2 _
  · intro x
    rw [← hperm.mem_iff]
    exact h.registered x
  · simp [World.eraseAt]

/-- A new node begins beside the tree. -/
theorem Rooted.register (h : Rooted w kids all) (hs : s ∉ w.mNodeLib) (hs0 : s ≠ 0#32)
    (mDef : List Octets.Byte) (mIsGroup : Bool) :
    Beside (w.register s mDef mIsGroup) kids s all [] := by
  have hself : (w.register s mDef mIsGroup).mNode s =
      ⟨mDef, mIsGroup, none, none, none, none, none⟩ := Function.update_self ..
  refine ⟨h.toTree.register hs mDef mIsGroup, h.spans, ?_, ?_, ?_, ?_, ?_⟩
  · rw [h.toTree.kids_eq_nil hs]
    exact .nil
  · rw [List.perm_append_comm.nodup_iff]
    exact List.nodup_cons.mpr ⟨fun hmem => hs ((h.registered s).mp hmem), h.once⟩
  · intro x
    rw [List.mem_append, List.mem_singleton, h.registered x, or_comm]
    exact Finset.mem_insert.symm
  · rw [root_register hs0]
    exact h.alone
  · rw [hself]
    exact ⟨rfl, rfl, rfl⟩

namespace Beside

variable (h : Beside w kids s all below)

include h

theorem mem_table : s ∈ w.mNodeLib := (h.registered s).mp (by simp)

theorem notMem : s ∉ all ∧ s ∉ below := by
  obtain ⟨-, hnd, hdisjoint⟩ := List.nodup_append.mp h.once
  exact ⟨fun hmem => hdisjoint s hmem s List.mem_cons_self rfl, (List.nodup_cons.mp hnd).1⟩

theorem ne_root : s ≠ 0#32 := by
  rintro rfl
  exact h.notMem.1 (h.spans.mem_of_root List.mem_cons_self)

/-- The tree has what is neither the node nor below it. -/
theorem mem_all_iff (n : NodeID) : n ∈ all ↔ n ∈ w.mNodeLib ∧ n ∉ s :: below := by
  have hdisjoint := (List.nodup_append.mp h.once).2.2
  rw [← h.registered n, List.mem_append]
  constructor
  · intro hn
    exact ⟨.inl hn, fun hmem => hdisjoint n hn n hmem rfl⟩
  · intro hn
    exact hn.1.resolve_right hn.2

/-- It does not matter to such a node that it is unlinked. -/
theorem nodeRemove : w.nodeRemove s = w :=
  nodeRemove_of_unlinked h.unlinked.1 h.unlinked.2.1 h.unlinked.2.2

/-- The node joins a group of the tree. -/
theorem insertAt {m₁ m₂ : List NodeID} (hkids : kids g = m₁ ++ m₂) (hg : g ∈ all)
    (hgroup : (w.mNode g).mIsGroup) :
    ∃ all', Rooted (w.insertAt g s m₁ m₂) (Function.update kids g (m₁ ++ s :: m₂)) all' := by
  have hglib : g ∈ w.mNodeLib := (h.registered g).mp (List.mem_append_left _ hg)
  obtain ⟨hndAll, -, hdisjoint⟩ := List.nodup_append.mp h.once
  have hgs : g ∉ s :: below := fun hmem => hdisjoint g hg g hmem rfl
  obtain ⟨A, B, hall, hspans⟩ := h.spans.insert hndAll hg hkids h.hanging hgs
  have hperm : (A ++ s :: below ++ B).Perm (all ++ s :: below) := by
    rw [hall, List.append_assoc, List.append_assoc]
    exact List.Perm.append_left _ List.perm_append_comm
  have hroot := h.toTree.root_insertAt hkids h.ne_root
  refine ⟨_, h.toTree.insertAt hglib hgroup h.mem_table h.ne_root h.unlinked.1 hkids, hspans,
    hperm.nodup_iff.mpr h.once, fun x => ?_, hroot.1.trans h.alone.1, hroot.2.trans h.alone.2⟩
  rw [hperm.mem_iff]
  exact h.registered x

/-- `Node_Delete` of the node leaves the tree. -/
theorem nodeDelete : Rooted (w.nodeDelete s) (fun x => if x = s ∨ x ∈ below then [] else kids x)
    all := by
  obtain ⟨hndAll, hndBelow, hdisjoint⟩ := List.nodup_append.mp h.once
  have hndb := (List.nodup_cons.mp hndBelow).2
  obtain ⟨hsall, hsb⟩ := h.notMem
  obtain ⟨hparent, hprev, hnext⟩ := h.unlinked
  have hs0 := h.ne_root
  have hkidsAll : Spans (fun x => if x = s ∨ x ∈ below then [] else kids x) [0#32] all := by
    apply h.spans.congr
    intro x hx
    rw [if_neg]
    rintro (rfl | hxb)
    · exact hsall hx
    · exact hdisjoint x hx x (List.mem_cons_of_mem _ hxb) rfl
  unfold World.nodeDelete
  rw [if_neg hs0]
  cases hgroup : (w.mNode s).mIsGroup with
  | false =>
    have hleaf := h.toTree.kids_eq_nil_of_synth hgroup
    have hbelow := h.hanging
    rw [hleaf] at hbelow
    cases hbelow
    have hkids : (fun x => if x = s ∨ x ∈ ([] : List NodeID) then [] else kids x) = kids := by
      funext x
      split_ifs with hx
      · rw [hx.resolve_right List.not_mem_nil, hleaf]
      · rfl
    rw [hkids] at hkidsAll ⊢
    rw [if_neg (by simp), nodeDtor_of_unlinked hparent hprev hnext]
    refine ⟨h.toTree.deregister hs0 hparent hleaf, hkidsAll, hndAll, fun x => ?_, h.alone⟩
    show _ ↔ x ∈ w.mNodeLib.erase s
    rw [h.mem_all_iff x, List.mem_singleton, Finset.mem_erase, and_comm]
  | true =>
    have hclear := h.toTree.groupDeleteAll' h.hanging h.mem_table hgroup hndb hsb
    have hself : ((w.groupDeleteAll s).mNode s) =
        { w.mNode s with mHead := none, mTail := none } := by
      rw [groupDeleteAll_eq_freeAll h.toTree h.hanging h.mem_table hgroup hndb, mNode_modify,
        if_pos rfl, mNode_freeAll hsb]
    have hlib' : ∀ x, x ∈ (w.groupDeleteAll s).mNodeLib ↔ x ∈ w.mNodeLib ∧ x ∉ below := by
      intro x
      rw [groupDeleteAll_eq_freeAll h.toTree h.hanging h.mem_table hgroup hndb]
      show x ∈ w.mNodeLib \ below.toFinset ↔ _
      rw [Finset.mem_sdiff, List.mem_toFinset]
    rw [if_pos rfl]
    unfold groupDtor
    rw [nodeDtor_of_unlinked (by rw [hself]; exact hparent) (by rw [hself]; exact hprev)
      (by rw [hself]; exact hnext)]
    have hroot := h.toTree.root_groupDeleteAll h.hanging h.mem_table hgroup hndb
    refine ⟨hclear.deregister hs0 (by rw [hself]; exact hparent) (if_pos (.inl rfl)), hkidsAll,
      hndAll, fun x => ?_, hroot.1.trans h.alone.1, hroot.2.trans h.alone.2⟩
    show _ ↔ x ∈ (w.groupDeleteAll s).mNodeLib.erase s
    rw [h.mem_all_iff x, Finset.mem_erase, hlib', List.mem_cons, not_or]
    tauto

/-- The node takes the place of another one, which hangs beside the tree in its turn. -/
theorem exchange (hkids : kids g = l₁ ++ n :: l₂) (hg : g ∈ all) (hb : Spans kids (kids n) b) :
    ∃ all', Beside ((w.eraseAt g n l₁ l₂).insertAt g s l₁ l₂)
      (Function.update kids g (l₁ ++ s :: l₂)) n all' b := by
  obtain ⟨hglib, hgroup⟩ := h.group g (by simp [hkids])
  obtain ⟨hndAll, -, hdisjoint⟩ := List.nodup_append.mp h.once
  have hgs : g ∉ s :: below := fun hmem => hdisjoint g hg g hmem rfl
  -- the node leaves the list with all that is below it
  obtain ⟨A, b', B, hall, hA, hb', hspans⟩ := h.spans.erase hndAll hg hkids
  obtain rfl := hb.unique hb'
  have hperm : all.Perm (A ++ B ++ n :: b) := by
    rw [hall, List.append_assoc, List.append_assoc]
    exact List.Perm.append_left _ List.perm_append_comm
  rw [hperm.nodup_iff] at hndAll
  obtain ⟨hndAB, -, hdisjoint'⟩ := List.nodup_append.mp hndAll
  have hgn : g ∉ n :: b := fun hmem => hdisjoint' g (List.mem_append_left _ hA) g hmem rfl
  -- and the other one joins it
  have hplace : Function.update kids g (l₁ ++ l₂) g = l₁ ++ l₂ := Function.update_self ..
  have hgs' := List.mem_cons.not.mp hgs
  rw [not_or] at hgs'
  have hbelow : Spans (Function.update kids g (l₁ ++ l₂))
      (Function.update kids g (l₁ ++ l₂) s) below := by
    rw [Function.update_of_ne (Ne.symm hgs'.1)]
    exact h.hanging.congr_update hgs'.2 _
  obtain ⟨A', B', hAB, hspans'⟩ := hspans.insert hndAB (List.mem_append_left _ hA) hplace hbelow hgs
  have hinsert := (h.toTree.eraseAt hkids).insertAt (s := s) hglib hgroup h.mem_table h.ne_root
    (by simp [World.eraseAt, h.unlinked.1]) hplace
  rw [Function.update_idem] at hspans' hinsert
  have hperm' : (A' ++ s :: below ++ B' ++ n :: b).Perm (all ++ s :: below) := by
    have hfirst : (A' ++ s :: below ++ B').Perm (A ++ B ++ s :: below) := by
      rw [hAB, List.append_assoc, List.append_assoc]
      exact List.Perm.append_left _ List.perm_append_comm
    refine (hfirst.append_right _).trans (List.Perm.trans ?_ (hperm.symm.append_right _))
    rw [List.append_assoc (A ++ B), List.append_assoc (A ++ B)]
    exact List.Perm.append_left _ List.perm_append_comm
  have hroot := h.toTree.root_eraseAt hkids
  have hroot' := (h.toTree.eraseAt hkids).root_insertAt hplace h.ne_root
  rw [List.mem_cons, not_or] at hgn
  refine ⟨_, hinsert, hspans', ?_, hperm'.nodup_iff.mpr h.once, fun x => ?_,
    ⟨hroot'.1.trans (hroot.1.trans h.alone.1), hroot'.2.trans (hroot.2.trans h.alone.2)⟩,
    (nodeReplace_links h.toTree hkids h.ne_root h.unlinked.1).2⟩
  · rw [Function.update_of_ne (Ne.symm hgn.1)]
    exact hb.congr_update hgn.2 _
  · rw [hperm'.mem_iff]
    exact h.registered x

/-- `Node_Replace` by the node. -/
theorem nodeReplace (hkids : kids g = l₁ ++ n :: l₂) (hg : g ∈ all) (hb : Spans kids (kids n) b) :
    ∃ all', Rooted (w.nodeReplace s n) (fun x => if x = n ∨ x ∈ b then []
      else Function.update kids g (l₁ ++ s :: l₂) x) all' ∧
      ∀ x, x ∈ all' ↔ x ∈ w.mNodeLib ∧ x ∉ n :: b := by
  obtain ⟨all', hother⟩ := h.exchange hkids hg hb
  rw [(nodeReplace_links h.toTree hkids h.ne_root h.unlinked.1).1]
  exact ⟨all', hother.nodeDelete, hother.mem_all_iff⟩

end Beside

/-! ## Joining the tree and moving in it -/

/-- What is in the table with a node above it is that node or below it. -/
theorem Tree.within_iff (h : Tree w kids) (hb : Spans kids (kids s) b) (hn : n ∈ w.mNodeLib) :
    w.Within s n ↔ n ∈ s :: b := by
  constructor
  · intro hwithin
    induction hwithin using Relation.ReflTransGen.head_induction_on with
    | refl => exact List.mem_cons_self
    | @head x y hparent _ ih =>
      have hkid := h.complete x hn y hparent
      have hy := ih (h.group y (List.ne_nil_of_mem hkid)).1
      rcases List.mem_cons.mp hy with rfl | hy
      · exact List.mem_cons_of_mem _ (hb.mem_of_root hkid)
      · exact List.mem_cons_of_mem _ (hb.mem_of_kid hy hkid)
  · intro hmem
    obtain ⟨root, hroot, hpath⟩ := hb.singleton.exists_path (fun x y hy => (h.mem x y hy).2.2) hmem
    rw [List.mem_singleton] at hroot
    exact hroot ▸ hpath

namespace Rooted

variable (h : Rooted w kids all)

include h

/-- A node moves, with all that is below it, to a group that is not below it. -/
theorem move (hkids : kids p = l₁ ++ s :: l₂)
    (hdest : Function.update kids p (l₁ ++ l₂) g = m₁ ++ m₂) (hg : g ∈ w.mNodeLib)
    (hgroup : (w.mNode g).mIsGroup) (hwithin : ¬ w.Within s g) :
    IsTree ((w.eraseAt p s l₁ l₂).insertAt g s m₁ m₂) := by
  obtain ⟨b, hb, -⟩ := h.exists_below (h.mem_table_of_cut hkids).1
  obtain ⟨all', hbeside⟩ := h.eraseAt hkids hb
  have hgs : g ∉ s :: b := mt (h.toTree.within_iff hb hg).mpr hwithin
  have hgall : g ∈ all' := (List.mem_append.mp ((hbeside.registered g).mpr hg)).resolve_right hgs
  exact ⟨_, hbeside.insertAt hdest hgall hgroup⟩

/-- A new node joins a group. -/
theorem enter (hs : s ∉ w.mNodeLib) (hs0 : s ≠ 0#32) (hkids : kids g = m₁ ++ m₂)
    (hg : g ∈ w.mNodeLib) (hgroup : (w.mNode g).mIsGroup) (mDef : List Octets.Byte)
    (mIsGroup : Bool) : IsTree ((w.register s mDef mIsGroup).insertAt g s m₁ m₂) := by
  have hgs : g ≠ s := by
    rintro rfl
    exact hs hg
  have hnode : (w.register s mDef mIsGroup).mNode g = w.mNode g := Function.update_of_ne hgs ..
  exact ⟨_, (h.register hs hs0 mDef mIsGroup).insertAt hkids ((h.registered g).mpr hg)
    (by rw [hnode]; exact hgroup)⟩

/-- A new node takes the place of another one. -/
theorem replace (hs : s ∉ w.mNodeLib) (hs0 : s ≠ 0#32) (hkids : kids g = l₁ ++ n :: l₂)
    (mDef : List Octets.Byte) (mIsGroup : Bool) :
    IsTree ((w.register s mDef mIsGroup).nodeReplace s n) := by
  obtain ⟨b, hb, -⟩ := h.exists_below (h.mem_table_of_cut hkids).1
  have hg : g ∈ all := (h.registered g).mpr (h.parent_mem hkids).1
  obtain ⟨all', htree, -⟩ := (h.register hs hs0 mDef mIsGroup).nodeReplace hkids hg hb
  exact ⟨_, all', htree⟩

end Rooted

/-! ## The moves of the commands -/

/-- A node may move into a group that is not below it. -/
def MayEnter (w : World) (node group : NodeID) : Prop := node = 0#32 ∨ ¬ w.Within node group

/-- A node may move next to another one that has a group and is not below it. -/
def MayJoin (w : World) (node target : NodeID) : Prop :=
  node = 0#32 ∨ target ≠ 0#32 ∧ ¬ w.Within node target

namespace Rooted

variable (h : Rooted w kids all)

include h

/-- Moving the root does nothing. -/
theorem nodeRemove_root : w.nodeRemove 0#32 = w :=
  nodeRemove_of_unlinked h.root.2.2 h.alone.1 h.alone.2

theorem groupAddHead (hg : g ∈ w.mNodeLib) (hgroup : (w.mNode g).mIsGroup) (hs : s ∈ w.mNodeLib)
    (hmay : w.MayEnter s g) : IsTree ((w.nodeRemove s).groupAddHead g s) := by
  by_cases hs0 : s = 0#32
  · subst hs0
    rw [h.nodeRemove_root, World.groupAddHead, if_pos rfl]
    exact ⟨kids, all, h⟩
  · have hwithin := hmay.resolve_left hs0
    have hsg : s ≠ g := by
      rintro rfl
      exact hwithin .refl
    obtain ⟨p, l₁, l₂, hkids⟩ := h.exists_cut hs hs0
    rw [nodeRemove_eq h.toTree hkids, groupAddHead_eq (h.toTree.eraseAt hkids) hg hgroup hs0 hsg
      (by simp [World.eraseAt])]
    exact h.move hkids (List.nil_append _).symm hg hgroup hwithin

theorem groupAddTail (hg : g ∈ w.mNodeLib) (hgroup : (w.mNode g).mIsGroup) (hs : s ∈ w.mNodeLib)
    (hmay : w.MayEnter s g) : IsTree ((w.nodeRemove s).groupAddTail g s) := by
  by_cases hs0 : s = 0#32
  · subst hs0
    rw [h.nodeRemove_root, World.groupAddTail, if_pos rfl]
    exact ⟨kids, all, h⟩
  · have hwithin := hmay.resolve_left hs0
    have hsg : s ≠ g := by
      rintro rfl
      exact hwithin .refl
    obtain ⟨p, l₁, l₂, hkids⟩ := h.exists_cut hs hs0
    rw [nodeRemove_eq h.toTree hkids, groupAddTail_eq (h.toTree.eraseAt hkids) hg hgroup hs0 hsg
      (by simp [World.eraseAt])]
    exact h.move hkids (List.append_nil _).symm hg hgroup hwithin

/-- The list in which the target stands once the node has been taken out, with a group that
is not below the node. -/
theorem exists_target (hkids : kids p = l₁ ++ s :: l₂) (hn : n ∈ w.mNodeLib) (hn0 : n ≠ 0#32)
    (hwithin : ¬ w.Within s n) : ∃ g m₁ m₂, Function.update kids p (l₁ ++ l₂) g = m₁ ++ n :: m₂ ∧
      g ∈ w.mNodeLib ∧ (w.mNode g).mIsGroup ∧ ¬ w.Within s g := by
  obtain ⟨g, k₁, k₂, hkidsN⟩ := h.exists_cut hn hn0
  have hns : n ≠ s := by
    rintro rfl
    exact hwithin .refl
  have hmem : n ∈ Function.update kids p (l₁ ++ l₂) g := by
    by_cases hg : g = p
    · subst hg
      rw [Function.update_self]
      rw [hkids] at hkidsN
      have hin : n ∈ l₁ ++ s :: l₂ := by simp [hkidsN]
      simpa [hns] using hin
    · rw [Function.update_of_ne hg, hkidsN]
      simp
  obtain ⟨m₁, m₂, hcut⟩ := List.append_of_mem hmem
  obtain ⟨hg, hgroup⟩ := h.parent_mem hkidsN
  refine ⟨g, m₁, m₂, hcut, hg, hgroup, ?_⟩
  intro hbelow
  have hparent : (w.mNode n).mParent = some g := (h.mem g n (by simp [hkidsN])).2.2
  exact hwithin (Relation.ReflTransGen.head hparent hbelow)

theorem nodeAddBefore (hs : s ∈ w.mNodeLib) (hn : n ∈ w.mNodeLib) (hmay : w.MayJoin s n) :
    IsTree ((w.nodeRemove s).nodeAddBefore s n) := by
  by_cases hs0 : s = 0#32
  · subst hs0
    have hskip : w.nodeAddBefore 0#32 n = w := by
      unfold World.nodeAddBefore
      cases (w.mNode n).mParent with
      | none => rfl
      | some _ => exact if_pos rfl
    rw [h.nodeRemove_root, hskip]
    exact ⟨kids, all, h⟩
  · obtain ⟨hn0, hwithin⟩ := hmay.resolve_left hs0
    obtain ⟨p, l₁, l₂, hkids⟩ := h.exists_cut hs hs0
    obtain ⟨g, m₁, m₂, hcut, hg, hgroup, hbelow⟩ := h.exists_target hkids hn hn0 hwithin
    rw [nodeRemove_eq h.toTree hkids, nodeAddBefore_eq (h.toTree.eraseAt hkids) hcut hs0
      (by simp [World.eraseAt])]
    exact h.move hkids hcut hg hgroup hbelow

theorem nodeAddAfter (hs : s ∈ w.mNodeLib) (hn : n ∈ w.mNodeLib) (hmay : w.MayJoin s n) :
    IsTree ((w.nodeRemove s).nodeAddAfter s n) := by
  by_cases hs0 : s = 0#32
  · subst hs0
    have hskip : w.nodeAddAfter 0#32 n = w := by
      unfold World.nodeAddAfter
      cases (w.mNode n).mParent with
      | none => rfl
      | some _ => exact if_pos rfl
    rw [h.nodeRemove_root, hskip]
    exact ⟨kids, all, h⟩
  · obtain ⟨hn0, hwithin⟩ := hmay.resolve_left hs0
    obtain ⟨p, l₁, l₂, hkids⟩ := h.exists_cut hs hs0
    obtain ⟨g, m₁, m₂, hcut, hg, hgroup, hbelow⟩ := h.exists_target hkids hn hn0 hwithin
    rw [nodeRemove_eq h.toTree hkids, nodeAddAfter_eq (h.toTree.eraseAt hkids) hcut hs0
      (by simp [World.eraseAt])]
    apply h.move hkids _ hg hgroup hbelow
    rw [hcut]
    simp

end Rooted

/-! ## All synths below a group are freed -/

/-- A synth leaves its group and the table in one turn of `Group_DeepFreeGraphs`. -/
theorem nodeDelete_nodeRemove (h : Tree w kids) (hkids : kids g = l₁ ++ s :: l₂)
    (hsynth : (w.mNode s).mIsGroup = false) :
    (w.nodeRemove s).nodeDelete s = (w.eraseAt g s l₁ l₂).deregister s := by
  have hs0 := (h.mem g s (by simp [hkids])).2.1
  rw [nodeRemove_eq h hkids]
  unfold World.nodeDelete
  have hsynth' : ((w.eraseAt g s l₁ l₂).mNode s).mIsGroup = false := hsynth
  rw [if_neg hs0, if_neg (by simp [hsynth'])]
  apply nodeDtor_of_unlinked
  · simp [World.eraseAt]
  · simp [World.eraseAt]
  · simp [World.eraseAt]

/-- What the loop of `Group_DeepFreeGraphs` leaves of the children `l` of a group and of all
below them: the groups, in the order they had. -/
theorem deepFreeFrom_rooted {kids₀ : NodeID → List NodeID} (hspans : Spans kids₀ l a)
    (hnd : a.Nodup) {done : List NodeID} (fuel : ℕ) (hfuel : a.length < fuel)
    (h : Rooted w kids all) (hsame : ∀ x ∈ a, kids x = kids₀ x) (hkids : kids g = done ++ l)
    (hga : g ∉ a) :
    ∃ kids' all', Rooted (deepFreeFrom fuel w l.head?) kids' all' ∧
      kids' g = done ++ l.filter (fun x => (w.mNode x).mIsGroup) ∧
      (∀ x ∈ a, kids' x = (kids x).filter fun y => (w.mNode y).mIsGroup) ∧
      (∀ x, x ≠ g → x ∉ a → kids' x = kids x) ∧
      (∀ x, ((deepFreeFrom fuel w l.head?).mNode x).mIsGroup = (w.mNode x).mIsGroup) ∧
      ∀ x, x ∈ (deepFreeFrom fuel w l.head?).mNodeLib ↔
        x ∈ w.mNodeLib ∧ (x ∈ a → (w.mNode x).mIsGroup) := by
  induction hspans generalizing w kids all g done fuel with
  | nil =>
    cases fuel with
    | zero => simp at hfuel
    | succ fuel =>
      refine ⟨kids, all, h, hkids, ?_, fun _ _ _ => rfl, fun _ => rfl, fun x => ?_⟩
      · intro x hx
        cases hx
      · exact ⟨fun hx => ⟨hx, fun hmem => absurd hmem List.not_mem_nil⟩, fun hx => hx.1⟩
  | @cons x xs below rest hbelow hrest ihbelow ihrest =>
    cases fuel with
    | zero => simp at hfuel
    | succ fuel =>
      rw [List.nodup_cons, List.nodup_append] at hnd
      obtain ⟨hx, hndBelow, hndRest, hdisjoint⟩ := hnd
      rw [List.mem_append, not_or] at hx
      rw [List.mem_cons, List.mem_append, not_or, not_or] at hga
      rw [List.length_cons, List.length_append] at hfuel
      have hnext := (h.toTree.neighbours hkids).2.2
      have hsamex := hsame x List.mem_cons_self
      rw [List.head?_cons, deepFreeFrom, hnext]
      cases hisGroup : (w.mNode x).mIsGroup with
      | true =>
        -- a group stays, and what is below it is treated alike
        have hxlib := (h.mem_table_of_cut hkids).1
        have hhead := (h.ends x hxlib hisGroup).1
        rw [if_pos rfl, hhead, hsamex]
        obtain ⟨kids₁, all₁, h₁, hx₁, hbelow₁, hfar₁, hgroup₁, htable₁⟩ := ihbelow hndBelow (g := x)
          fuel (by omega) h (fun y hy => hsame y (by simp [hy]))
          (hsamex.trans (List.nil_append _).symm) hx.1
        have hkids₁ : kids₁ g = (done ++ [x]) ++ xs := by
          rw [hfar₁ g hga.1 hga.2.1, hkids]
          simp
        have hrest₁ : ∀ y ∈ rest, kids₁ y = kids y := by
          intro y hy
          apply hfar₁
          · rintro rfl
            exact hx.2 hy
          · exact fun hmem => hdisjoint y hmem y hy rfl
        obtain ⟨kids₂, all₂, h₂, hg₂, hrest₂, hfar₂, hgroup₂, htable₂⟩ := ihrest hndRest (g := g)
          fuel (by omega) h₁ (fun y hy => (hrest₁ y hy).trans (hsame y (by simp [hy])))
          hkids₁ hga.2.2
        simp only [hgroup₁] at hg₂ hrest₂ htable₂
        refine ⟨kids₂, all₂, h₂, ?_, ?_, ?_, fun y => (hgroup₂ y).trans (hgroup₁ y), ?_⟩
        · rw [hg₂, List.filter_cons, if_pos hisGroup, List.append_assoc]
          rfl
        · intro y hy
          rw [List.mem_cons, List.mem_append] at hy
          rcases hy with rfl | hy | hy
          · rw [hfar₂ y (Ne.symm hga.1) hx.2, hx₁, List.nil_append, hsamex]
          · have hyg : y ≠ g := by
              rintro rfl
              exact hga.2.1 hy
            rw [hfar₂ y hyg fun hmem => hdisjoint y hy y hmem rfl, hbelow₁ y hy]
          · rw [hrest₂ y hy, hrest₁ y hy]
        · intro y hyg hy
          rw [List.mem_cons, List.mem_append, not_or, not_or] at hy
          rw [hfar₂ y hyg hy.2.2, hfar₁ y hy.1 hy.2.1]
        · intro y
          rw [htable₂, htable₁, List.mem_cons, List.mem_append]
          constructor
          · rintro ⟨⟨hy, hyb⟩, hyr⟩
            refine ⟨hy, ?_⟩
            rintro (rfl | hmem | hmem)
            · exact hisGroup
            · exact hyb hmem
            · exact hyr hmem
          · rintro ⟨hy, hya⟩
            exact ⟨⟨hy, fun hmem => hya (.inr (.inl hmem))⟩, fun hmem => hya (.inr (.inr hmem))⟩
      | false =>
        -- a synth goes
        have hleaf := h.toTree.kids_eq_nil_of_synth hisGroup
        rw [if_neg (by simp), nodeDelete_nodeRemove h.toTree hkids hisGroup]
        obtain ⟨all₁, h₁⟩ := h.remove_leaf hkids hleaf
        have hbelowNil : below = [] := by
          rw [← hsamex, hleaf] at hbelow
          cases hbelow
          rfl
        have hfar₁ : ∀ y, y ≠ g → Function.update kids g (done ++ xs) y = kids y :=
          fun y hy => Function.update_of_ne hy ..
        have hrest₁ : ∀ y ∈ rest, Function.update kids g (done ++ xs) y = kids y := by
          intro y hy
          apply hfar₁
          rintro rfl
          exact hga.2.2 hy
        obtain ⟨kids₂, all₂, h₂, hg₂, hrest₂, hfar₂, hgroup₂, htable₂⟩ := ihrest hndRest (g := g)
          fuel (by omega) h₁ (fun y hy => (hrest₁ y hy).trans (hsame y (by simp [hy])))
          (Function.update_self ..) hga.2.2
        refine ⟨kids₂, all₂, h₂, ?_, ?_, ?_, hgroup₂, ?_⟩
        · rw [hg₂, List.filter_cons, if_neg (by simp [hisGroup])]
          rfl
        · intro y hy
          rw [hbelowNil, List.nil_append, List.mem_cons] at hy
          rcases hy with rfl | hy
          · rw [hfar₂ y (Ne.symm hga.1) hx.2, hfar₁ y (Ne.symm hga.1), hleaf, List.filter_nil]
          · rw [hrest₂ y hy, hrest₁ y hy]
            rfl
        · intro y hyg hy
          rw [List.mem_cons, List.mem_append, not_or, not_or] at hy
          rw [hfar₂ y hyg hy.2.2, hfar₁ y hyg]
        · intro y
          have hlib : y ∈ ((w.eraseAt g x done xs).deregister x).mNodeLib ↔
              y ≠ x ∧ y ∈ w.mNodeLib := Finset.mem_erase
          have hkind : (((w.eraseAt g x done xs).deregister x).mNode y).mIsGroup =
              (w.mNode y).mIsGroup := rfl
          rw [htable₂, hlib, hkind, hbelowNil, List.nil_append, List.mem_cons]
          constructor
          · rintro ⟨⟨hyx, hy⟩, hyr⟩
            exact ⟨hy, fun hmem => hyr (hmem.resolve_left hyx)⟩
          · rintro ⟨hy, hya⟩
            refine ⟨⟨?_, hy⟩, fun hmem => hya (.inr hmem)⟩
            rintro rfl
            rw [hya (.inl rfl)] at hisGroup
            cases hisGroup

/-- `Group_DeepFreeGraphs` leaves the tree of the groups. -/
theorem Rooted.groupDeepFreeGraphs_lists (h : Rooted w kids all) (hg : g ∈ w.mNodeLib)
    (hgroup : (w.mNode g).mIsGroup) (hb : Spans kids (kids g) b) :
    ∃ kids' all', Rooted (w.groupDeepFreeGraphs g) kids' all' ∧
      (∀ x ∈ g :: b, kids' x = (kids x).filter fun y => (w.mNode y).mIsGroup) ∧
      (∀ x ∉ g :: b, kids' x = kids x) ∧
      (∀ x, ((w.groupDeepFreeGraphs g).mNode x).mIsGroup = (w.mNode x).mIsGroup) ∧
      ∀ x, x ∈ (w.groupDeepFreeGraphs g).mNodeLib ↔
        x ∈ w.mNodeLib ∧ (x ∈ b → (w.mNode x).mIsGroup) := by
  obtain ⟨b', hb', hndb, hgb⟩ := h.exists_below hg
  obtain rfl := hb.unique hb'
  have hlen := h.toTree.length_below_le hb hndb
  unfold World.groupDeepFreeGraphs
  rw [(h.ends g hg hgroup).1]
  obtain ⟨kids', all', h', hhead, hbelow, hfar, hkinds, htable⟩ := deepFreeFrom_rooted hb hndb
    (2 * w.mNodeLib.card + 1) (by omega) h (fun _ _ => rfl) (List.nil_append _).symm hgb
  refine ⟨kids', all', h', ?_, ?_, hkinds, htable⟩
  · intro x hx
    rcases List.mem_cons.mp hx with rfl | hx
    · exact hhead
    · exact hbelow x hx
  · intro x hx
    rw [List.mem_cons, not_or] at hx
    exact hfar x hx.1 hx.2

theorem Rooted.groupDeepFreeGraphs (h : Rooted w kids all) (hg : g ∈ w.mNodeLib)
    (hgroup : (w.mNode g).mIsGroup) : IsTree (w.groupDeepFreeGraphs g) := by
  obtain ⟨b, hb, -⟩ := h.exists_below hg
  obtain ⟨kids', all', h', -⟩ := h.groupDeepFreeGraphs_lists hg hgroup hb
  exact ⟨kids', all', h'⟩

/-! ## The start -/

/-- The server starts with the root group alone. -/
theorem rooted_new (inOptions : WorldOptions) (graphDefs : List (List Octets.Byte)) :
    Rooted (World.new inOptions graphDefs) (fun _ => []) [0#32] := by
  refine ⟨⟨?_, ?_, ?_, ?_, ?_, ?_, ?_⟩, ?_, ?_, ?_, ?_⟩
  · exact ⟨Finset.mem_singleton_self _, rfl, rfl⟩
  · intro g n hn
    cases hn
  · intro g hg
    exact absurd rfl hg
  · intro n _ g hparent
    cases hparent
  · intro g
    exact List.nodup_nil
  · intro g
    exact linked_nil
  · intro g _ _
    exact ⟨rfl, rfl⟩
  · exact .cons (show Spans (fun _ : NodeID => ([] : List NodeID)) [] [] from .nil) .nil
  · exact List.nodup_singleton _
  · intro n
    rw [List.mem_singleton]
    exact Finset.mem_singleton.symm
  · exact ⟨rfl, rfl⟩

end World

end PoopWorms.Server
