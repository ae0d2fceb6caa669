import PoopWorms.Lib.Ranks
import PoopWorms.Server.Listed
import PoopWorms.Server.NodeCommandsTheorems

/-!
# Nodes that stand in lists

What the node commands need of the nodes, and keep: all pointers agree, and no node is below
itself. A node can be in no list, beside the root group; the commands that put a node next to
the root, or next to itself, leave it there.
-/

namespace PoopWorms.Server

open Forest LinkedList

namespace World

variable {w w' : World} {kids kids' : NodeID → List NodeID} {g n s t x : NodeID}
  {l₁ l₂ b F : List NodeID}

/-- All pointers agree, no node is below itself, and the counter of hidden IDs does not reach
`-1`. -/
structure Standing (w : World) (kids : NodeID → List NodeID) : Prop extends Listed w kids where
  ranked : Ranked kids
  hidden : w.mHiddenID.toNat % 8 = 0

/-- A node that is moved stays out of what is below it. -/
def MayMove (w : World) (node target : NodeID) : Prop := node = 0#32 ∨ ¬ w.Within node target

theorem standing_new (inOptions : WorldOptions) (graphDefs : List (List Octets.Byte)) :
    Standing (World.new inOptions graphDefs) fun _ => [] where
  toListed := (rooted_new inOptions graphDefs).listed
  ranked := ⟨fun _ => 0, fun _ _ hx => absurd hx List.not_mem_nil⟩
  hidden := by
    show (-8#32 : NodeID).toNat % 8 = 0
    decide

namespace Standing

variable (h : Standing w kids)

include h

theorem exists_below (n : NodeID) : ∃ b, Spans kids (kids n) b := h.ranked.exists_below n

theorem ne_root (hs : s ∉ w.mNodeLib) : s ≠ 0#32 := by
  rintro rfl
  exact hs h.root.1

/-- A path of lists of children is one of parents. -/
theorem within_of_path (hpath : Relation.ReflTransGen (fun x y => x ∈ kids y) g s) :
    w.Within s g :=
  hpath.lift id fun x y hx => (h.mem y x hx).2.2

theorem withHidden {hidden : NodeID} (hhidden : hidden.toNat % 8 = 0) :
    Standing { w with mHiddenID := hidden } kids where
  root := h.root
  mem := h.mem
  group := h.group
  complete := h.complete
  nodup := h.nodup
  linked := h.linked
  ends := h.ends
  loose := h.loose
  ranked := h.ranked
  hidden := hhidden

theorem register (hs : s ∉ w.mNodeLib) (mDef : List Octets.Byte) (mIsGroup : Bool) :
    Standing (w.register s mDef mIsGroup) kids where
  toListed := h.toListed.register hs mDef mIsGroup
  ranked := h.ranked
  hidden := h.hidden

/-! ## Leaving a list and joining one -/

/-- A node leaves its list, if it is in one. -/
theorem leave (hs : s ∈ w.mNodeLib) : ∃ kids', Standing (w.nodeRemove s) kids' ∧
    ((w.nodeRemove s).mNode s).mParent = none ∧ ∀ p, ∀ x ∈ kids' p, x ∈ kids p := by
  have hcounter := ((sameTable_refl w).nodeRemove s).hidden
  rcases h.cut_or_unlinked hs with ⟨p, l₁, l₂, hkids⟩ | ⟨hparent, hprev, hnext⟩
  · have hsub : ∀ q, ∀ x ∈ Function.update kids p (l₁ ++ l₂) q, x ∈ kids q := by
      intro q x hx
      by_cases hq : q = p
      · subst hq
        rw [Function.update_self] at hx
        rw [hkids]
        rcases List.mem_append.mp hx with hx | hx
        · exact List.mem_append_left _ hx
        · exact List.mem_append_right _ (List.mem_cons_of_mem _ hx)
      · rwa [Function.update_of_ne hq] at hx
    rw [nodeRemove_eq h.toTree hkids] at hcounter ⊢
    exact ⟨_, ⟨h.toListed.eraseAt hkids, h.ranked.mono hsub, hcounter ▸ h.hidden⟩,
      by simp [World.eraseAt], hsub⟩
  · rw [nodeRemove_of_unlinked hparent hprev hnext]
    exact ⟨kids, h, hparent, fun _ _ hx => hx⟩

/-- A node that is in no list joins that of a group which is not below it. -/
theorem join (hs : s ∈ w.mNodeLib) (hs0 : s ≠ 0#32) (hunlinked : (w.mNode s).mParent = none)
    (hg : g ∈ w.mNodeLib) (hgroup : (w.mNode g).mIsGroup) (hkids : kids g = l₁ ++ l₂)
    (hup : ¬ w.Within s g) :
    Standing (w.insertAt g s l₁ l₂) (Function.update kids g (l₁ ++ s :: l₂)) where
  toListed := h.toListed.insertAt hg hgroup hs hs0 hunlinked hkids
  hidden := h.hidden
  ranked := by
    apply h.ranked.insert (g := g) (s := s)
    · intro p x hx
      by_cases hp : p = g
      · subst hp
        rw [Function.update_self, List.perm_middle.mem_iff, List.mem_cons] at hx
        rcases hx with rfl | hx
        · exact .inr ⟨rfl, rfl⟩
        · exact .inl (hkids ▸ hx)
      · rw [Function.update_of_ne hp] at hx
        exact .inl hx
    · exact mt h.within_of_path hup

/-- A group that a node is not in takes it in. -/
theorem groupAddHead (hs : s ∈ w.mNodeLib) (hs0 : s ≠ 0#32)
    (hunlinked : (w.mNode s).mParent = none) (hg : g ∈ w.mNodeLib) (hgroup : (w.mNode g).mIsGroup)
    (hup : ¬ w.Within s g) : ∃ kids', Standing (w.groupAddHead g s) kids' := by
  have hsg : s ≠ g := by
    rintro rfl
    exact hup .refl
  rw [groupAddHead_eq h.toTree hg hgroup hs0 hsg hunlinked]
  exact ⟨_, h.join hs hs0 hunlinked hg hgroup (List.nil_append _).symm hup⟩

theorem groupAddTail (hs : s ∈ w.mNodeLib) (hs0 : s ≠ 0#32)
    (hunlinked : (w.mNode s).mParent = none) (hg : g ∈ w.mNodeLib) (hgroup : (w.mNode g).mIsGroup)
    (hup : ¬ w.Within s g) : ∃ kids', Standing (w.groupAddTail g s) kids' := by
  have hsg : s ≠ g := by
    rintro rfl
    exact hup .refl
  rw [groupAddTail_eq h.toTree hg hgroup hs0 hsg hunlinked]
  exact ⟨_, h.join hs hs0 hunlinked hg hgroup (List.append_nil _).symm hup⟩

/-- Next to a node that is in no list there is no place. -/
theorem nodeAddBefore (hs : s ∈ w.mNodeLib) (hs0 : s ≠ 0#32)
    (hunlinked : (w.mNode s).mParent = none) (ht : t ∈ w.mNodeLib)
    (hup : (w.mNode t).mParent ≠ none → ¬ w.Within s t) :
    ∃ kids', Standing (w.nodeAddBefore s t) kids' := by
  rcases h.cut_or_unlinked ht with ⟨g, l₁, l₂, hkids⟩ | ⟨hparent, -⟩
  · obtain ⟨hg, hgroup⟩ := h.group g (by simp [hkids])
    have hparent := (h.toTree.neighbours hkids).1
    rw [nodeAddBefore_eq h.toTree hkids hs0 hunlinked]
    refine ⟨_, h.join hs hs0 hunlinked hg hgroup hkids fun hwithin => ?_⟩
    exact hup (by simp [hparent]) (.head hparent hwithin)
  · refine ⟨kids, ?_⟩
    unfold World.nodeAddBefore
    rw [hparent]
    exact h

theorem nodeAddAfter (hs : s ∈ w.mNodeLib) (hs0 : s ≠ 0#32)
    (hunlinked : (w.mNode s).mParent = none) (ht : t ∈ w.mNodeLib)
    (hup : (w.mNode t).mParent ≠ none → ¬ w.Within s t) :
    ∃ kids', Standing (w.nodeAddAfter s t) kids' := by
  rcases h.cut_or_unlinked ht with ⟨g, l₁, l₂, hkids⟩ | ⟨hparent, -⟩
  · obtain ⟨hg, hgroup⟩ := h.group g (by simp [hkids])
    have hparent := (h.toTree.neighbours hkids).1
    have hcut : kids g = (l₁ ++ [t]) ++ l₂ := by
      rw [hkids]
      simp
    rw [nodeAddAfter_eq h.toTree hkids hs0 hunlinked]
    refine ⟨_, h.join hs hs0 hunlinked hg hgroup hcut fun hwithin => ?_⟩
    exact hup (by simp [hparent]) (.head hparent hwithin)
  · refine ⟨kids, ?_⟩
    unfold World.nodeAddAfter
    rw [hparent]
    exact h

/-- In the lists that a node has left, less is below it. -/
theorem within_of_leave {kids' : NodeID → List NodeID} (h' : Standing w' kids')
    (hsub : ∀ p, ∀ x ∈ kids' p, x ∈ kids p) (hlib : w'.mNodeLib = w.mNodeLib)
    (hn : n ∈ w.mNodeLib) (hwithin : w'.Within s n) : w.Within s n := by
  induction hwithin using Relation.ReflTransGen.head_induction_on with
  | refl => exact .refl
  | @head x y hparent _ ih =>
    have hkid : x ∈ kids' y := h'.complete x (hlib ▸ hn) y hparent
    obtain ⟨hx, -, hparent'⟩ := h.mem y x (hsub y x hkid)
    exact .head hparent' (ih (h.group y (List.ne_nil_of_mem (hsub y x hkid))).1)

/-! ## Moves -/

/-- A node that has left its list can join another one. -/
theorem afterLeave (hs : s ∈ w.mNodeLib) : ∃ kids', Standing (w.nodeRemove s) kids' ∧
    s ∈ (w.nodeRemove s).mNodeLib ∧ ((w.nodeRemove s).mNode s).mParent = none ∧
    ∀ n ∈ w.mNodeLib, (w.nodeRemove s).Within s n → w.Within s n := by
  obtain ⟨kids', h', hunlinked, hsub⟩ := h.leave hs
  have hlib := ((sameTable_refl w).nodeRemove s).table
  exact ⟨kids', h', hlib ▸ hs, hunlinked, fun n hn => h.within_of_leave h' hsub hlib hn⟩

theorem moveToHead (hs : s ∈ w.mNodeLib) (hg : g ∈ w.mNodeLib) (hgroup : (w.mNode g).mIsGroup)
    (hmay : w.MayMove s g) : ∃ kids', Standing (w.moveToHead g s) kids' := by
  obtain ⟨kids', h', hs', hunlinked, hwithin⟩ := h.afterLeave hs
  have hsame := (sameTable_refl w).nodeRemove s
  unfold World.moveToHead
  by_cases hs0 : s = 0#32
  · refine ⟨kids', ?_⟩
    unfold World.groupAddHead
    rwa [if_pos hs0]
  · exact h'.groupAddHead hs' hs0 hunlinked (hsame.table.symm ▸ hg) (hsame.group g ▸ hgroup)
      (mt (hwithin g hg) (hmay.resolve_left hs0))

theorem moveToTail (hs : s ∈ w.mNodeLib) (hg : g ∈ w.mNodeLib) (hgroup : (w.mNode g).mIsGroup)
    (hmay : w.MayMove s g) : ∃ kids', Standing (w.moveToTail g s) kids' := by
  obtain ⟨kids', h', hs', hunlinked, hwithin⟩ := h.afterLeave hs
  have hsame := (sameTable_refl w).nodeRemove s
  unfold World.moveToTail
  by_cases hs0 : s = 0#32
  · refine ⟨kids', ?_⟩
    unfold World.groupAddTail
    rwa [if_pos hs0]
  · exact h'.groupAddTail hs' hs0 hunlinked (hsame.table.symm ▸ hg) (hsame.group g ▸ hgroup)
      (mt (hwithin g hg) (hmay.resolve_left hs0))

theorem moveBefore (hs : s ∈ w.mNodeLib) (ht : t ∈ w.mNodeLib) (hmay : t = s ∨ w.MayMove s t) :
    ∃ kids', Standing (w.moveBefore s t) kids' := by
  obtain ⟨kids', h', hs', hunlinked, hwithin⟩ := h.afterLeave hs
  have hsame := (sameTable_refl w).nodeRemove s
  unfold World.moveBefore
  by_cases hs0 : s = 0#32
  · refine ⟨kids', ?_⟩
    unfold World.nodeAddBefore
    split
    · exact h'
    · rwa [if_pos hs0]
  · apply h'.nodeAddBefore hs' hs0 hunlinked (hsame.table.symm ▸ ht)
    intro hparent
    rcases hmay with rfl | hmay
    · exact absurd hunlinked hparent
    · exact mt (hwithin t ht) (hmay.resolve_left hs0)

theorem moveAfter (hs : s ∈ w.mNodeLib) (ht : t ∈ w.mNodeLib) (hmay : t = s ∨ w.MayMove s t) :
    ∃ kids', Standing (w.moveAfter s t) kids' := by
  obtain ⟨kids', h', hs', hunlinked, hwithin⟩ := h.afterLeave hs
  have hsame := (sameTable_refl w).nodeRemove s
  unfold World.moveAfter
  by_cases hs0 : s = 0#32
  · refine ⟨kids', ?_⟩
    unfold World.nodeAddAfter
    split
    · exact h'
    · rwa [if_pos hs0]
  · apply h'.nodeAddAfter hs' hs0 hunlinked (hsame.table.symm ▸ ht)
    intro hparent
    rcases hmay with rfl | hmay
    · exact absurd hunlinked hparent
    · exact mt (hwithin t ht) (hmay.resolve_left hs0)

end Standing

end World

end PoopWorms.Server
