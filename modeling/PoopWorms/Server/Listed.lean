import PoopWorms.Server.NodeTree

/-!
# Nodes in lists

A move can put a group below itself, or leave a node in no list. The pointers agree even then,
and below the root there is still a finite tree, which the traversal goes over.
-/

namespace PoopWorms.Server

open Forest LinkedList

namespace World

variable {w : World} {kids : NodeID → List NodeID} {g n p s x : NodeID}
  {all b l₁ l₂ : List NodeID}

/-! ## Below a node -/

theorem Tree.parent_unique (h : Tree w kids) :
    ∀ p q x, x ∈ kids p → x ∈ kids q → p = q := by
  intro p q x hp hq
  exact Option.some.inj ((h.mem p x hp).2.2.symm.trans (h.mem q x hq).2.2)

theorem Tree.nodup_below (h : Tree w kids) (hb : Spans kids (kids g) b) : (g :: b).Nodup := by
  rw [List.nodup_cons]
  refine ⟨hb.notMem_below, hb.nodup h.parent_unique h.nodup (h.nodup g) ?_⟩
  intro x hx q hq y hy
  exact h.parent_unique g q x hx hq ▸ hy

/-- The root has no parent, so below it there is a finite tree. -/
theorem Tree.exists_below_root (h : Tree w kids) : ∃ b, Spans kids (kids 0#32) b :=
  Spans.exists_of_root h.parent_unique w.mNodeLib (fun p x hx => (h.mem p x hx).1)
    fun p hp => (h.mem p _ hp).2.1 rfl

/-! ## Nodes in lists and beside them -/

/-- All pointers agree, and a node in no list has no neighbours. There can be nodes that are not
below the root. -/
structure Listed (w : World) (kids : NodeID → List NodeID) : Prop extends Tree w kids where
  loose : ∀ n ∈ w.mNodeLib, (w.mNode n).mParent = none →
    (w.mNode n).mPrev = none ∧ (w.mNode n).mNext = none

theorem Rooted.listed (h : Rooted w kids all) : Listed w kids where
  toTree := h.toTree
  loose n hn hparent := by
    by_cases hn0 : n = 0#32
    · subst hn0
      exact h.alone
    · obtain ⟨p, l₁, l₂, hkids⟩ := h.exists_cut hn hn0
      rw [(h.toTree.neighbours hkids).1] at hparent
      cases hparent

namespace Listed

variable (h : Listed w kids)

include h

/-- A node is in the list of its parent, or unlinked. -/
theorem cut_or_unlinked (hn : n ∈ w.mNodeLib) : (∃ p l₁ l₂, kids p = l₁ ++ n :: l₂) ∨
    (w.mNode n).mParent = none ∧ (w.mNode n).mPrev = none ∧ (w.mNode n).mNext = none := by
  cases hparent : (w.mNode n).mParent with
  | none => exact .inr ⟨rfl, h.loose n hn hparent⟩
  | some p =>
    obtain ⟨l₁, l₂, hkids⟩ := List.append_of_mem (h.complete n hn p hparent)
    exact .inl ⟨p, l₁, l₂, hkids⟩

theorem eraseAt (hkids : kids p = l₁ ++ s :: l₂) :
    Listed (w.eraseAt p s l₁ l₂) (Function.update kids p (l₁ ++ l₂)) where
  toTree := h.toTree.eraseAt hkids
  loose n hn hparent := by
    by_cases hns : n = s
    · simp [World.eraseAt, hns]
    · have hparent' : (w.mNode n).mParent = none := by simpa [World.eraseAt, hns] using hparent
      have hnot : n ∉ l₁ ++ s :: l₂ := hkids ▸ h.toTree.notMem hparent' p
      have hfirst : l₂.head? ≠ some n := by
        intro heq
        exact hnot (by simp [List.mem_of_head? heq])
      have hlast : l₁.getLast? ≠ some n := by
        intro heq
        exact hnot (by simp [List.mem_of_getLast? heq])
      simp only [World.eraseAt, if_neg hns, if_neg hfirst, if_neg hlast]
      exact h.loose n hn hparent'

theorem insertAt (hg : g ∈ w.mNodeLib) (hgroup : (w.mNode g).mIsGroup) (hs : s ∈ w.mNodeLib)
    (hs0 : s ≠ 0#32) (hunlinked : (w.mNode s).mParent = none) (hkids : kids g = l₁ ++ l₂) :
    Listed (w.insertAt g s l₁ l₂) (Function.update kids g (l₁ ++ s :: l₂)) where
  toTree := h.toTree.insertAt hg hgroup hs hs0 hunlinked hkids
  loose n hn hparent := by
    have hns : n ≠ s := by
      rintro rfl
      simp [World.insertAt] at hparent
    have hparent' : (w.mNode n).mParent = none := by simpa [World.insertAt, hns] using hparent
    have hnot : n ∉ l₁ ++ l₂ := hkids ▸ h.toTree.notMem hparent' g
    have hfirst : l₂.head? ≠ some n := by
      intro heq
      exact hnot (by simp [List.mem_of_head? heq])
    have hlast : l₁.getLast? ≠ some n := by
      intro heq
      exact hnot (by simp [List.mem_of_getLast? heq])
    simp only [World.insertAt, if_neg hns, if_neg hfirst, if_neg hlast]
    exact h.loose n hn hparent'

theorem register (hs : s ∉ w.mNodeLib) (mDef : List Octets.Byte) (mIsGroup : Bool) :
    Listed (w.register s mDef mIsGroup) kids where
  toTree := h.toTree.register hs mDef mIsGroup
  loose n hn hparent := by
    by_cases hns : n = s
    · have hself : (w.register s mDef mIsGroup).mNode s =
          ⟨mDef, mIsGroup, none, none, none, none, none⟩ := Function.update_self ..
      rw [hns, hself]
      exact ⟨rfl, rfl⟩
    · have hnode : (w.register s mDef mIsGroup).mNode n = w.mNode n := Function.update_of_ne hns ..
      rw [hnode] at hparent ⊢
      exact h.loose n ((Finset.mem_insert.mp hn).resolve_left hns) hparent

theorem deregister (hn0 : n ≠ 0#32) (hunlinked : (w.mNode n).mParent = none)
    (hleaf : kids n = []) : Listed (w.deregister n) kids where
  toTree := h.toTree.deregister hn0 hunlinked hleaf
  loose m hm hparent := h.loose m (Finset.mem_of_mem_erase hm) hparent

/-- A node without children leaves the table, and the list that it is in. -/
theorem nodeDtor (hn : n ∈ w.mNodeLib) (hn0 : n ≠ 0#32) (hleaf : kids n = []) :
    Listed (w.nodeDtor n) (without kids [n]) := by
  rcases h.cut_or_unlinked hn with ⟨p, l₁, l₂, hkids⟩ | ⟨hparent, hprev, hnext⟩
  · have hnd := h.nodup p
    rw [hkids, List.perm_middle.nodup_iff, List.nodup_cons] at hnd
    have hpn : n ≠ p := by
      rintro rfl
      rw [hleaf] at hkids
      simp at hkids
    -- the other lists do not have the node
    have hlists : without kids [n] = Function.update kids p (l₁ ++ l₂) := by
      funext x
      by_cases hxp : x = p
      · subst hxp
        rw [Function.update_self, without_of_notMem (by simpa using hpn.symm), hkids,
          List.filter_append, List.filter_cons_of_neg (by simp), ← List.filter_append]
        apply filter_eq_self_of_notMem
        rintro y hy hyn
        rw [List.mem_singleton] at hyn
        exact hnd.1 (hyn ▸ hy)
      · rw [Function.update_of_ne hxp]
        by_cases hxn : x = n
        · rw [hxn, without_of_mem List.mem_cons_self, hleaf]
        · apply without_eq_self (by simpa using hxn)
          rintro y hy hyn
          rw [List.mem_singleton] at hyn
          subst hyn
          exact hxp (h.toTree.parent_unique x p y hy (by simp [hkids]))
    have hunlinked : ((w.eraseAt p n l₁ l₂).mNode n).mParent = none := by simp [World.eraseAt]
    unfold World.nodeDtor
    rw [nodeRemove_eq h.toTree hkids, hlists]
    exact (h.eraseAt hkids).deregister hn0 hunlinked (by rw [Function.update_of_ne hpn, hleaf])
  · have hlists : without kids [n] = kids := by
      funext x
      by_cases hxn : x = n
      · rw [hxn, without_of_mem List.mem_cons_self, hleaf]
      · apply without_eq_self (by simpa using hxn)
        rintro y hy hyn
        rw [List.mem_singleton] at hyn
        subst hyn
        exact h.toTree.notMem hparent x hy
    rw [nodeDtor_of_unlinked hparent hprev hnext, hlists]
    exact h.deregister hn0 hparent hleaf

/-- What `Group_DeleteAll` leaves of the lists of children. -/
theorem without_below (hb : Spans kids (kids g) b) :
    (fun x => if x = g ∨ x ∈ b then [] else kids x) = without kids b := by
  funext x
  by_cases hxb : x ∈ b
  · rw [if_pos (.inr hxb), without_of_mem hxb]
  · by_cases hxg : x = g
    · subst hxg
      rw [if_pos (.inl rfl), without_of_notMem hxb, eq_comm, List.filter_eq_nil_iff]
      intro y hy
      simpa using hb.mem_of_root hy
    · rw [if_neg (not_or.mpr ⟨hxg, hxb⟩), without_eq_self hxb]
      intro y hy
      exact h.toTree.not_below_of_kid hb hxg hxb hy

/-- All that is below a group leaves the table. -/
theorem groupDeleteAll (hg : g ∈ w.mNodeLib) (hgroup : (w.mNode g).mIsGroup)
    (hb : Spans kids (kids g) b) : Listed (w.groupDeleteAll g) (without kids b) where
  toTree := by
    have hnd := List.nodup_cons.mp (h.toTree.nodup_below hb)
    rw [← h.without_below hb]
    exact h.toTree.groupDeleteAll' hb hg hgroup hnd.2 hnd.1
  loose n hn hparent := by
    have hnd := (List.nodup_cons.mp (h.toTree.nodup_below hb)).2
    rw [groupDeleteAll_eq_freeAll h.toTree hb hg hgroup hnd] at hn hparent ⊢
    obtain ⟨hn, hnb⟩ := Finset.mem_sdiff.mp hn
    rw [List.mem_toFinset] at hnb
    rw [mParent_modify, ite_self, mNode_freeAll hnb] at hparent
    rw [mPrev_modify, mNext_modify, ite_self, ite_self, mNode_freeAll hnb]
    exact h.loose n hn hparent

end Listed

end World

end PoopWorms.Server
