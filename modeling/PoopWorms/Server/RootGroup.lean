import PoopWorms.Server.EngineSteps
import PoopWorms.Server.Requests

/-!
# The root group

The root has no parent and no neighbours, no pointer of another node leads to it, and nothing
frees it. Of all that can change its calc function, only done action 14 of a synth right in
the root disables it; otherwise it computes its children in every cycle, as long as `/n_run`
does not pause it. Nothing here needs the nodes to be a tree.
-/

namespace PoopWorms.Server

open World

/-- No pointer to a neighbour or a child is one to the root. -/
def Node.AvoidsRoot (node : Node) : Prop :=
  node.mPrev ≠ some 0#32 ∧ node.mNext ≠ some 0#32 ∧ node.mHead ≠ some 0#32 ∧ node.mTail ≠ some 0#32

namespace World

/-- The root is there, alone, and only parent pointers lead to it. -/
structure RootApart (w : World) : Prop where
  mem : 0#32 ∈ w.mNodeLib
  group : (w.mNode 0#32).mIsGroup = true
  alone : (w.mNode 0#32).mParent = none ∧ (w.mNode 0#32).mPrev = none ∧ (w.mNode 0#32).mNext = none
  avoids : ∀ n, (w.mNode n).AvoidsRoot

theorem rootApart_new (inOptions : WorldOptions) (graphDefs : List (List Octets.Byte)) :
    RootApart (.new inOptions graphDefs) where
  mem := Finset.mem_singleton_self _
  group := rfl
  alone := ⟨rfl, rfl, rfl⟩
  avoids _ := by simp [World.new, Node.AvoidsRoot]

namespace RootApart

variable {w : World} {n s g : NodeID} {prev next group x : Option NodeID} (h : RootApart w)

include h

/-- A write to a node, of the root only to its head and its tail. -/
theorem modify {f : Node → Node} (havoids : (f (w.mNode n)).AvoidsRoot)
    (hroot : n = 0#32 → (f (w.mNode n)).mIsGroup = (w.mNode n).mIsGroup ∧
      (f (w.mNode n)).mParent = (w.mNode n).mParent ∧ (f (w.mNode n)).mPrev = (w.mNode n).mPrev ∧
      (f (w.mNode n)).mNext = (w.mNode n).mNext) : RootApart (w.modify n f) := by
  constructor
  · exact h.mem
  · rw [mNode_modify]
    split_ifs with hn
    · subst hn
      rw [(hroot rfl).1]
      exact h.group
    · exact h.group
  · rw [mNode_modify]
    split_ifs with hn
    · subst hn
      obtain ⟨-, hparent, hprev, hnext⟩ := hroot rfl
      rw [hparent, hprev, hnext]
      exact h.alone
    · exact h.alone
  · intro m
    rw [mNode_modify]
    split_ifs with hm
    · exact hm ▸ havoids
    · exact h.avoids m

/-- A write to a node that is not the root. -/
theorem modify_ne {f : Node → Node} (hn : n ≠ 0#32) (havoids : (f (w.mNode n)).AvoidsRoot) :
    RootApart (w.modify n f) :=
  h.modify havoids fun hn0 => absurd hn0 hn

theorem setPrev (hn : n ≠ 0#32) (hx : x ≠ some 0#32) :
    RootApart (w.modify n fun c => { c with mPrev := x }) :=
  h.modify_ne hn ⟨hx, (h.avoids n).2⟩

theorem setNext (hn : n ≠ 0#32) (hx : x ≠ some 0#32) :
    RootApart (w.modify n fun c => { c with mNext := x }) :=
  h.modify_ne hn ⟨(h.avoids n).1, hx, (h.avoids n).2.2⟩

theorem setParent (hn : n ≠ 0#32) (x : Option NodeID) :
    RootApart (w.modify n fun c => { c with mParent := x }) :=
  h.modify_ne hn (h.avoids n)

theorem setHead (g : NodeID) (hx : x ≠ some 0#32) :
    RootApart (w.modify g fun g => { g with mHead := x }) :=
  h.modify ⟨(h.avoids g).1, (h.avoids g).2.1, hx, (h.avoids g).2.2.2⟩ fun _ => ⟨rfl, rfl, rfl, rfl⟩

theorem setTail (g : NodeID) (hx : x ≠ some 0#32) :
    RootApart (w.modify g fun g => { g with mTail := x }) :=
  h.modify ⟨(h.avoids g).1, (h.avoids g).2.1, (h.avoids g).2.2.1, hx⟩ fun _ => ⟨rfl, rfl, rfl, rfl⟩

theorem setEnds (g : NodeID) (hx : x ≠ some 0#32) :
    RootApart (w.modify g fun g => { g with mHead := x, mTail := x }) :=
  h.modify ⟨(h.avoids g).1, (h.avoids g).2.1, hx, hx⟩ fun _ => ⟨rfl, rfl, rfl, rfl⟩

theorem linkNext (hprev : prev ≠ some 0#32) (hx : x ≠ some 0#32) (group : Option NodeID) :
    RootApart (w.linkNext prev group x) := by
  unfold World.linkNext
  split
  · rename_i prev group
    exact h.setNext (by simpa using hprev) hx
  · rename_i g
    exact h.setHead g hx
  · exact h

theorem linkPrev (hnext : next ≠ some 0#32) (hx : x ≠ some 0#32) (group : Option NodeID) :
    RootApart (w.linkPrev next group x) := by
  unfold World.linkPrev
  split
  · exact h.setPrev (by simpa using hnext) hx
  · rename_i g
    exact h.setTail g hx
  · exact h

theorem unlink (n : NodeID) : RootApart (w.unlink n) := by
  apply h.modify
  · exact ⟨nofun, nofun, (h.avoids n).2.2⟩
  · rintro rfl
    obtain ⟨hparent, hprev, hnext⟩ := h.alone
    rw [hparent, hprev, hnext]
    exact ⟨rfl, rfl, rfl, rfl⟩

theorem nodeRemove (s : NodeID) : RootApart (w.nodeRemove s) := by
  have h₁ := h.linkNext (h.avoids s).1 (h.avoids s).2.1 (w.mNode s).mParent
  exact (h₁.linkPrev (h₁.avoids s).2.1 (h₁.avoids s).1 (w.mNode s).mParent).unlink s

theorem erase (hs : s ≠ 0#32) : RootApart { w with mNodeLib := w.mNodeLib.erase s } where
  mem := Finset.mem_erase.mpr ⟨hs.symm, h.mem⟩
  group := h.group
  alone := h.alone
  avoids := h.avoids

theorem nodeAddAfter (s target : NodeID) : RootApart (w.nodeAddAfter s target) := by
  unfold World.nodeAddAfter
  split
  · exact h
  · rename_i parent hparent
    split_ifs with hs
    · exact h
    · -- the target has a parent, so it is not the root
      have htarget : target ≠ 0#32 := by
        rintro rfl
        rw [h.alone.1] at hparent
        cases hparent
      have h₁ : RootApart (w.modify s fun n => { n with
          mParent := some parent, mPrev := some target, mNext := (w.mNode target).mNext }) :=
        h.modify_ne hs ⟨by simpa using htarget, (h.avoids target).2.1, (h.avoids s).2.2⟩
      have h₂ := h₁.linkPrev (h₁.avoids target).2.1 (show some s ≠ some 0#32 by simpa using hs)
      exact (h₂ _).setNext htarget (by simpa using hs)

theorem nodeAddBefore (s target : NodeID) : RootApart (w.nodeAddBefore s target) := by
  unfold World.nodeAddBefore
  split
  · exact h
  · rename_i parent hparent
    split_ifs with hs
    · exact h
    · have htarget : target ≠ 0#32 := by
        rintro rfl
        rw [h.alone.1] at hparent
        cases hparent
      have h₁ : RootApart (w.modify s fun n => { n with
          mParent := some parent, mPrev := (w.mNode target).mPrev, mNext := some target }) :=
        h.modify_ne hs ⟨(h.avoids target).1, by simpa using htarget, (h.avoids s).2.2⟩
      have h₂ := h₁.linkNext (h₁.avoids target).1 (show some s ≠ some 0#32 by simpa using hs)
      exact (h₂ _).setPrev htarget (by simpa using hs)

theorem groupAddHead (g s : NodeID) : RootApart (w.groupAddHead g s) := by
  unfold World.groupAddHead
  split_ifs with hs
  · exact h
  · have hs' : some s ≠ some 0#32 := by simpa using hs
    have h₁ : RootApart (w.modify s fun c => { c with mPrev := none, mNext := (w.mNode g).mHead }) :=
      h.modify_ne hs ⟨nofun, (h.avoids g).2.2.1, (h.avoids s).2.2⟩
    dsimp only
    split
    · rename_i head hhead
      have hhead0 : head ≠ 0#32 := by
        rintro rfl
        exact (h₁.avoids g).2.2.1 hhead
      exact ((h₁.setPrev hhead0 hs').setHead g hs').setParent hs _
    · exact (h₁.setEnds g hs').setParent hs _

theorem groupAddTail (g s : NodeID) : RootApart (w.groupAddTail g s) := by
  unfold World.groupAddTail
  split_ifs with hs
  · exact h
  · have hs' : some s ≠ some 0#32 := by simpa using hs
    have h₁ : RootApart (w.modify s fun c => { c with mPrev := (w.mNode g).mTail, mNext := none }) :=
      h.modify_ne hs ⟨(h.avoids g).2.2.2, nofun, (h.avoids s).2.2⟩
    dsimp only
    split
    · rename_i tail htail
      have htail0 : tail ≠ 0#32 := by
        rintro rfl
        exact (h₁.avoids g).2.2.2 htail
      exact ((h₁.setNext htail0 hs').setTail g hs').setParent hs _
    · exact (h₁.setEnds g hs').setParent hs _

omit h in
/-- The rest of the world does not matter. -/
theorem congr {w' : World} (h : RootApart w) (hnode : w'.mNode = w.mNode)
    (hlib : 0#32 ∈ w'.mNodeLib) : RootApart w' where
  mem := hlib
  group := hnode ▸ h.group
  alone := hnode ▸ h.alone
  avoids := hnode ▸ h.avoids

/-- A node that is made is not the root, whose ID is taken; otherwise only the counter of hidden
IDs changes. -/
theorem nodeNew (mDef : List Octets.Byte) (inID : NodeID) :
    (∃ w' s, w.nodeNew mDef inID = .ok (w', s) ∧ RootApart w' ∧ s ≠ 0#32) ∨
      ∃ err w', w.nodeNew mDef inID = .error (err, w') ∧ RootApart w' := by
  unfold World.nodeNew
  by_cases hreserved : inID.toInt < 0 ∧ inID ≠ -1#32
  · rw [if_pos hreserved]
    exact .inr ⟨_, w, rfl, h⟩
  · rw [if_neg hreserved]
    obtain ⟨w₁, hw₁, hnode, hlib⟩ : ∃ w₁, (if inID = -1#32 then
        { w with mHiddenID := (w.mHiddenID - 8#32) ||| 0x80000000#32 } else w) = w₁ ∧
        w₁.mNode = w.mNode ∧ w₁.mNodeLib = w.mNodeLib := by
      split_ifs
      · exact ⟨_, rfl, rfl, rfl⟩
      · exact ⟨_, rfl, rfl, rfl⟩
    dsimp only
    rw [hw₁]
    generalize (if inID = -1#32 then (w.mHiddenID - 8#32) ||| 0x80000000#32 else inID) = newID
    have h₁ : RootApart w₁ := h.congr hnode (hlib ▸ h.mem)
    cases hget : w₁.getNode newID with
    | some n => exact .inr ⟨_, w₁, rfl, h₁⟩
    | none =>
      have hid : newID ≠ 0#32 := by
        rintro rfl
        have htaken : w₁.getNode 0#32 = some 0#32 := if_pos h₁.mem
        rw [htaken] at hget
        cases hget
      have h₂ : RootApart (w₁.modify newID fun _ => ⟨mDef, false, none, none, none, none, none⟩) :=
        h₁.modify_ne hid ⟨nofun, nofun, nofun, nofun⟩
      dsimp only
      unfold World.addNode
      split_ifs
      · exact .inr ⟨_, w₁, rfl, h₁⟩
      · exact .inl ⟨_, newID, rfl, h₂.congr rfl (Finset.mem_insert_of_mem h₂.mem), hid⟩

theorem groupNew (inID : NodeID) :
    (∃ w' s, w.groupNew inID = .ok (w', s) ∧ RootApart w' ∧ s ≠ 0#32) ∨
      ∃ err w', w.groupNew inID = .error (err, w') ∧ RootApart w' := by
  unfold World.groupNew
  rcases h.nodeNew groupDefName inID with ⟨w', s, hnew, h₁, hs⟩ | ⟨err, w', hnew, h₁⟩
  · rw [hnew]
    exact .inl ⟨_, s, rfl, h₁.modify_ne hs ⟨(h₁.avoids s).1, (h₁.avoids s).2.1, nofun, nofun⟩, hs⟩
  · rw [hnew]
    exact .inr ⟨err, w', rfl, h₁⟩

end RootApart

end World

namespace Engine

variable {e e' e₁ e₂ : Engine} {n s g : NodeID} {child : Option NodeID}

/-! ## What freeing and done actions do to the root -/

/-- The root stays as it is, and no node gets into it. -/
structure Spares (e e' : Engine) : Prop where
  apart : RootApart e'.world
  parent : ∀ n, (e'.world.mNode n).mParent = some 0#32 → (e.world.mNode n).mParent = some 0#32
  calcFunc : (e'.graph 0#32).mCalcFunc = (e.graph 0#32).mCalcFunc
  stack : e'.stack = e.stack

theorem Spares.refl (h : RootApart e.world) : Spares e e := ⟨h, fun _ => id, rfl, rfl⟩

theorem Spares.trans (h₁ : Spares e e₁) (h₂ : Spares e₁ e₂) : Spares e e₂ where
  apart := h₂.apart
  parent n hn := h₁.parent n (h₂.parent n hn)
  calcFunc := h₂.calcFunc.trans h₁.calcFunc
  stack := h₂.stack.trans h₁.stack

theorem mParent_unlink_root (w : World) (n m : NodeID)
    (hm : ((w.unlink n).mNode m).mParent = some 0#32) : (w.mNode m).mParent = some 0#32 := by
  unfold World.unlink at hm
  rw [mNode_modify] at hm
  split_ifs at hm
  exact hm

theorem spares_unlink (h : RootApart e.world) (n : NodeID) :
    Spares e { e with world := e.world.unlink n } :=
  ⟨h.unlink n, mParent_unlink_root e.world n, rfl, rfl⟩

theorem spares_clearEnds (h : RootApart e.world) (g : NodeID) :
    Spares e { e with
      world := e.world.modify g fun g => { g with mHead := none, mTail := none } } := by
  refine ⟨h.setEnds g nofun, fun n hn => ?_, rfl, rfl⟩
  rw [mNode_modify] at hn
  split_ifs at hn with hng
  · exact hng ▸ hn
  · exact hn

theorem mParent_nodeRemove (w : World) (s m : NodeID)
    (hm : ((w.nodeRemove s).mNode m).mParent = some 0#32) : (w.mNode m).mParent = some 0#32 := by
  have hm' := mParent_unlink_root _ s m hm
  rw [linkPrev_eq] at hm'
  simpa only [linkNext_eq] using hm'

theorem nodeRemove_some (he : e.nodeRemove s = some e') :
    e' = { e with world := e.world.nodeRemove s } := by
  unfold Engine.nodeRemove at he
  simp only [Option.bind_eq_bind, Option.bind_eq_some_iff] at he
  obtain ⟨-, -, -, -, -, -, he⟩ := he
  exact (Option.some.inj he).symm

theorem spares_nodeRemove (h : RootApart e.world) (he : e.nodeRemove s = some e') : Spares e e' := by
  obtain rfl := nodeRemove_some he
  exact ⟨h.nodeRemove s, mParent_nodeRemove e.world s, rfl, rfl⟩

theorem spares_nodeDtor (h : RootApart e.world) (hn : n ≠ 0#32) (he : e.nodeDtor n = some e') :
    Spares e e' := by
  unfold Engine.nodeDtor at he
  simp only [Option.bind_eq_bind, Option.bind_eq_some_iff] at he
  obtain ⟨-, -, e₁, he₁, he⟩ := he
  have h₁ := spares_nodeRemove h he₁
  obtain rfl := Option.some.inj he
  exact ⟨h₁.apart.erase hn, h₁.parent, h₁.calcFunc, h₁.stack⟩

theorem spares_modifyGraph (h : RootApart e.world) (hn : n ≠ 0#32) (f : Graph → Graph) :
    Spares e (e.modifyGraph n f) := by
  refine ⟨h, fun _ => id, ?_, rfl⟩
  show (Function.update e.graph n _ 0#32).mCalcFunc = _
  rw [Function.update_of_ne hn.symm]

theorem spares_graphDtor (h : RootApart e.world) (hn : n ≠ 0#32) (he : e.graphDtor n = some e') :
    Spares e e' :=
  (spares_modifyGraph h hn _).trans (spares_nodeDtor (e := e.modifyGraph n _) h hn he)

theorem spares_deleteFrom (fuel : ℕ) (h : RootApart e.world)
    (he : deleteFrom fuel e child = some e') : Spares e e' := by
  induction fuel generalizing e child e' with
  | zero => cases he
  | succ fuel ih =>
    cases child with
    | none =>
      cases he
      exact .refl h
    | some child =>
      rw [Engine.deleteFrom] at he
      simp only [Option.bind_eq_bind, Option.bind_eq_some_iff] at he
      obtain ⟨node, -, e₁, hturn, he⟩ := he
      have hunlink := spares_unlink h child
      have hturn' : Spares e e₁ := by
        by_cases hroot : child = 0#32
        · rw [if_pos hroot] at hturn
          cases hturn
          exact hunlink
        · rw [if_neg hroot] at hturn
          split_ifs at hturn
          · simp only [Option.bind_eq_some_iff] at hturn
            obtain ⟨e₂, hloop, hdtor⟩ := hturn
            have hbelow := ih (e := { e with world := e.world.unlink child }) hunlink.apart hloop
            have hclear := spares_clearEnds hbelow.apart child
            exact hunlink.trans (hbelow.trans (hclear.trans
              (spares_nodeDtor hclear.apart hroot hdtor)))
          · exact hunlink.trans
              (spares_graphDtor (e := { e with world := e.world.unlink child }) hunlink.apart hroot hturn)
      exact hturn'.trans (ih hturn'.apart he)

theorem spares_groupDeleteAll (h : RootApart e.world) (he : e.groupDeleteAll g = some e') :
    Spares e e' := by
  unfold Engine.groupDeleteAll at he
  simp only [Option.bind_eq_bind, Option.bind_eq_some_iff] at he
  obtain ⟨group, -, e₁, hloop, -, -, he⟩ := he
  obtain rfl := Option.some.inj he
  have h₁ := spares_deleteFrom _ h hloop
  exact h₁.trans (spares_clearEnds h₁.apart g)

theorem spares_nodeDelete (h : RootApart e.world) (he : e.nodeDelete n = some e') : Spares e e' := by
  unfold Engine.nodeDelete at he
  simp only [Option.bind_eq_bind, Option.bind_eq_some_iff] at he
  obtain ⟨node, -, he⟩ := he
  split_ifs at he with hroot
  · cases he
    exact .refl h
  · simp only [Option.bind_eq_some_iff] at he
    obtain ⟨e₁, hdelete, hdtor⟩ := he
    have h₁ := spares_groupDeleteAll h hdelete
    exact h₁.trans (spares_nodeDtor h₁.apart hroot hdtor)
  · exact spares_graphDtor h hroot he

theorem spares_deepFreeFrom (fuel : ℕ) (h : RootApart e.world)
    (he : deepFreeFrom fuel e child = some e') : Spares e e' := by
  induction fuel generalizing e child e' with
  | zero => cases he
  | succ fuel ih =>
    cases child with
    | none =>
      cases he
      exact .refl h
    | some child =>
      rw [Engine.deepFreeFrom] at he
      simp only [Option.bind_eq_bind, Option.bind_eq_some_iff] at he
      obtain ⟨node, -, e₁, hturn, he⟩ := he
      have hturn' : Spares e e₁ := by
        split_ifs at hturn
        · exact ih h hturn
        · simp only [Option.bind_eq_some_iff] at hturn
          obtain ⟨e₂, hremove, hdelete⟩ := hturn
          have h₂ := spares_nodeRemove h hremove
          exact h₂.trans (spares_nodeDelete h₂.apart hdelete)
      exact hturn'.trans (ih hturn'.apart he)

theorem spares_groupDeepFreeGraphs (h : RootApart e.world)
    (he : e.groupDeepFreeGraphs g = some e') : Spares e e' := by
  unfold Engine.groupDeepFreeGraphs at he
  simp only [Option.bind_eq_bind, Option.bind_eq_some_iff] at he
  obtain ⟨group, -, he⟩ := he
  exact spares_deepFreeFrom _ h he

theorem spares_nodeSetRun (h : RootApart e.world) (hn : n ≠ 0#32) {run : Octets.Word}
    (he : e.nodeSetRun n run = some e') : Spares e e' := by
  unfold Engine.nodeSetRun at he
  simp only [Option.bind_eq_bind, Option.bind_eq_some_iff] at he
  obtain ⟨node, -, -, -, he⟩ := he
  obtain rfl := Option.some.inj he
  have h₁ := spares_modifyGraph h hn fun g =>
    { g with mCalcFunc := (e.graph n).mCalcFunc.setRun node.mIsGroup run }
  split_ifs
  · exact ⟨h₁.apart, h₁.parent, h₁.calcFunc, h₁.stack⟩
  · exact h₁

theorem spares_nodeEnd (h : RootApart e.world) (hn : n ≠ 0#32) (he : e.nodeEnd n = some e') :
    Spares e e' := by
  unfold Engine.nodeEnd at he
  simp only [Option.bind_eq_bind, Option.bind_eq_some_iff] at he
  obtain ⟨node, -, he⟩ := he
  obtain rfl := Option.some.inj he
  have h₁ := spares_modifyGraph h hn fun g => { g with mCalcFunc := .nodeDelete }
  exact ⟨h₁.apart, h₁.parent, h₁.calcFunc, h₁.stack⟩

theorem spares_endFrom {dir : Node → Option NodeID}
    (hdir : ∀ {w : World} (n : NodeID), RootApart w → dir (w.mNode n) ≠ some 0#32) (fuel : ℕ)
    (h : RootApart e.world) (hchild : child ≠ some 0#32) (he : endFrom dir fuel e child = some e') :
    Spares e e' := by
  induction fuel generalizing e child with
  | zero => cases he
  | succ fuel ih =>
    cases child with
    | none =>
      cases he
      exact .refl h
    | some n =>
      rw [Engine.endFrom] at he
      simp only [Option.bind_eq_bind, Option.bind_eq_some_iff] at he
      obtain ⟨node, hnode, e₁, hend, he⟩ := he
      have hn : n ≠ 0#32 := by simpa using hchild
      have h₁ := spares_nodeEnd h hn hend
      unfold touch at hnode
      split_ifs at hnode
      obtain rfl := Option.some.inj hnode
      exact h₁.trans (ih h₁.apart (hdir n h) he)

theorem spares_forSome {side : Option NodeID} {f : Engine → NodeID → Option Engine}
    (h : RootApart e.world) (hf : ∀ n e', side = some n → f e n = some e' → Spares e e')
    (he : e.forSome side f = some e') : Spares e e' := by
  unfold forSome at he
  split at he
  · exact hf _ _ rfl he
  · cases he
    exact .refl h

theorem spares_groupOrEnd {onGroup : Engine → NodeID → Option Engine}
    (h : RootApart e.world) (hn : n ≠ 0#32) (hgroup : ∀ e', onGroup e n = some e' → Spares e e')
    (he : groupOrEnd onGroup e n = some e') : Spares e e' := by
  unfold groupOrEnd at he
  simp only [Option.bind_eq_bind, Option.bind_eq_some_iff] at he
  obtain ⟨node, -, he⟩ := he
  split_ifs at he
  · exact hgroup e' he
  · exact spares_nodeEnd h hn he

theorem touch_some {node : Node} (hnode : e.touch n = some node) : node = e.world.mNode n := by
  unfold touch at hnode
  split_ifs at hnode
  exact (Option.some.inj hnode).symm

/-- A done action of a synth that is not right in the root, or another one than 14. -/
theorem spares_unitDoneAction (h : RootApart e.world) (hs : s ≠ 0#32) {doneAction : ℕ}
    (hparent : doneAction = 14 → (e.world.mNode s).mParent ≠ some 0#32)
    (he : e.unitDoneAction s doneAction = some e') : Spares e e' := by
  unfold Engine.unitDoneAction at he
  simp only [Option.bind_eq_bind, Option.bind_eq_some_iff] at he
  obtain ⟨node, hnode, he⟩ := he
  obtain rfl := touch_some hnode
  obtain ⟨hprev, hnext, -, -⟩ := h.avoids s
  -- the synth is ended, and then something happens to a neighbour
  have hthen : ∀ {side : Option NodeID} {f : Engine → NodeID → Option Engine},
      side ≠ some 0#32 → (∀ e n e', RootApart e.world → n ≠ 0#32 → f e n = some e' → Spares e e') →
      (∃ e₁, e.nodeEnd s = some e₁ ∧ e₁.forSome side f = some e') → Spares e e' := by
    intro side f hside hf hboth
    obtain ⟨e₁, hend, he⟩ := hboth
    have h₁ := spares_nodeEnd h hs hend
    apply h₁.trans (spares_forSome h₁.apart _ he)
    rintro n e' rfl hn
    exact hf e₁ n e' h₁.apart (by simpa using hside) hn
  have hend : ∀ e n e', RootApart e.world → n ≠ 0#32 → Engine.nodeEnd e n = some e' → Spares e e' :=
    fun e n e' h hn he => spares_nodeEnd h hn he
  have hpause : ∀ e n e', RootApart e.world → n ≠ 0#32 → Engine.nodeSetRun e n 0 = some e' →
      Spares e e' := fun e n e' h hn he => spares_nodeSetRun h hn he
  have hdelete : ∀ e n e', RootApart e.world → n ≠ 0#32 →
      groupOrEnd groupDeleteAll e n = some e' → Spares e e' := fun e n e' h hn he =>
    spares_groupOrEnd h hn (fun e' he => spares_groupDeleteAll h he) he
  have hdeep : ∀ e n e', RootApart e.world → n ≠ 0#32 →
      groupOrEnd groupDeepFreeGraphs e n = some e' → Spares e e' := fun e n e' h hn he =>
    spares_groupOrEnd h hn (fun e' he => spares_groupDeepFreeGraphs h he) he
  have hs' : some s ≠ some 0#32 := by simpa using hs
  split at he
  · exact spares_nodeSetRun h hs he
  · exact spares_nodeEnd h hs he
  · exact hthen hprev hend (by simpa only [Option.bind_eq_some_iff] using he)
  · exact hthen hnext hend (by simpa only [Option.bind_eq_some_iff] using he)
  · exact hthen hprev hdelete (by simpa only [Option.bind_eq_some_iff] using he)
  · exact hthen hnext hdelete (by simpa only [Option.bind_eq_some_iff] using he)
  · exact spares_endFrom (fun n h => (h.avoids n).1) _ h hs' he
  · exact spares_endFrom (fun n h => (h.avoids n).2.1) _ h hs' he
  · exact hthen hprev hpause (by simpa only [Option.bind_eq_some_iff] using he)
  · exact hthen hnext hpause (by simpa only [Option.bind_eq_some_iff] using he)
  · exact hthen hprev hdeep (by simpa only [Option.bind_eq_some_iff] using he)
  · exact hthen hnext hdeep (by simpa only [Option.bind_eq_some_iff] using he)
  · simp only [Option.bind_eq_some_iff] at he
    obtain ⟨parent, -, group, hgroup, he⟩ := he
    obtain rfl := touch_some hgroup
    exact spares_endFrom (fun n h => (h.avoids n).2.1) _ h (h.avoids parent).2.2.1 he
  · simp only [Option.bind_eq_some_iff] at he
    obtain ⟨parent, hpar, he⟩ := he
    have hparent0 : parent ≠ 0#32 := by
      rintro rfl
      exact hparent rfl hpar
    exact spares_nodeEnd h hparent0 he
  · cases he
    exact .refl h

theorem spares_doneActions (fires : List ℕ) (h : RootApart e.world) (hs : s ≠ 0#32)
    (hparent : 14 ∈ fires → (e.world.mNode s).mParent ≠ some 0#32)
    (he : e.doneActions s fires = some e') : Spares e e' := by
  induction fires generalizing e with
  | nil =>
    cases he
    exact .refl h
  | cons doneAction fires ih =>
    rw [Engine.doneActions] at he
    simp only [Option.bind_eq_bind, Option.bind_eq_some_iff] at he
    obtain ⟨e₁, hfire, he⟩ := he
    have h₁ := spares_unitDoneAction h hs (fun h14 => hparent (h14 ▸ List.mem_cons_self)) hfire
    apply h₁.trans (ih h₁.apart _ he)
    intro h14 hroot
    exact hparent (List.mem_cons_of_mem _ h14) (h₁.parent s hroot)

/-! ## Cycles -/

end Engine

namespace NodeCalcFunc

/-- The functions that go over the children of a group. -/
def loops : NodeCalcFunc → Bool
  | groupCalc => true
  | groupCalcTrace => true
  | groupCalcDumpTree => true
  | groupCalcDumpTreeAndControls => true
  | _ => false

theorem loops_atEnd {f f' : NodeCalcFunc} (hf : f.loops) (hend : f.atEnd = some f') : f'.loops := by
  cases f <;> cases hend <;> first | rfl | cases hf

theorem setRun_group_zero (f : NodeCalcFunc) : f.setRun true 0 = nodeNullCalc := by
  cases f <;> rfl

theorem setRun_group {run : Octets.Word} (hrun : run ≠ 0) (f : NodeCalcFunc) :
    f.setRun true run = if f = nodeNullCalc then groupCalc else f := by
  unfold setRun
  rw [if_pos hrun]
  rfl

end NodeCalcFunc

/-- The loop does not come to the root as a child or as a synth; over the root it is a loop of a
group. -/
def Frame.AvoidsRoot : Frame → Prop
  | .group f g child => child ≠ some 0#32 ∧ (g = 0#32 → f.loops = true)
  | .graph _ s _ => s ≠ 0#32

namespace Engine

variable {e e' e₁ : Engine} {n s g : NodeID} {child : Option NodeID} {on : Bool}

/-- The root computes its children, or it is paused, as `on` says. -/
structure RootOk (on : Bool) (e : Engine) : Prop where
  apart : RootApart e.world
  frames : ∀ frame ∈ e.stack, frame.AvoidsRoot
  calcFunc : if on then (e.graph 0#32).mCalcFunc.loops = true
    else (e.graph 0#32).mCalcFunc = .nodeNullCalc ∧ e.stack = []

theorem RootOk.of_spares (h : RootOk on e) (hspares : Spares e e') : RootOk on e' where
  apart := hspares.apart
  frames := hspares.stack ▸ h.frames
  calcFunc := by
    rw [hspares.calcFunc, hspares.stack]
    exact h.calcFunc

/-- A loop starts. -/
theorem RootOk.push (h : RootOk true e) {frame : Frame} (hframe : frame.AvoidsRoot) :
    RootOk true (e.push frame) where
  apart := h.apart
  frames f hf := by
    rcases List.mem_cons.mp hf with rfl | hf
    · exact hframe
    · exact h.frames f hf
  calcFunc := h.calcFunc

theorem RootOk.noteCall (h : RootOk on e) (n : NodeID) : RootOk on (e.noteCall n) where
  apart := by
    rw [noteCall_world]
    exact h.apart
  frames := by
    rw [noteCall_stack]
    exact h.frames
  calcFunc := by
    rw [noteCall_graph, noteCall_stack]
    exact h.calcFunc

theorem RootOk.callNode (h : RootOk true e) (n : NodeID) (he : e.callNode n = some e') :
    RootOk true e' := by
  have hroot : n = 0#32 → (e.graph n).mCalcFunc.loops = true := by
    rintro rfl
    exact h.calcFunc
  unfold Engine.callNode at he
  simp only [Option.bind_eq_bind, Option.bind_eq_some_iff] at he
  obtain ⟨node, hnode, he⟩ := he
  obtain rfl := touch_some hnode
  have h₁ := h.noteCall n
  have hgraph : ∀ f calls, (e.graph n).mCalcFunc.loops = false →
      RootOk true ((e.noteCall n).push (.graph f n calls)) := by
    intro f calls hf
    apply h₁.push
    rintro rfl
    rw [hroot rfl] at hf
    cases hf
  have hgroup : ∀ f, f.loops = true →
      RootOk true ((e.noteCall n).push (.group f n (e.world.mNode n).mHead)) :=
    fun f hf => h₁.push ⟨(h.apart.avoids n).2.2.1, fun _ => hf⟩
  cases hf : (e.graph n).mCalcFunc with
  | nodeNullCalc =>
    rw [hf] at he
    exact Option.some.inj he ▸ h₁
  | nodeDelete =>
    rw [hf] at he
    exact h₁.of_spares (spares_nodeDelete h₁.apart he)
  | graphFirstCalc | graphNullFirstCalc | graphCalc | graphCalcTrace =>
    rw [hf] at he
    exact Option.some.inj he ▸ hgraph _ _ (by rw [hf]; rfl)
  | groupCalc | groupCalcTrace | groupCalcDumpTree | groupCalcDumpTreeAndControls =>
    rw [hf] at he
    exact Option.some.inj he ▸ hgroup _ rfl

theorem RootOk.finish (h : RootOk true e) {f : NodeCalcFunc} (hf : n = 0#32 → f.loops = true)
    (he : e.finish f n = some e') : RootOk true e' := by
  unfold Engine.finish at he
  cases hend : f.atEnd with
  | none =>
    rw [hend] at he
    cases he
    exact h
  | some f' =>
    rw [hend] at he
    simp only [Option.map_eq_some_iff] at he
    obtain ⟨-, -, rfl⟩ := he
    refine ⟨h.apart, h.frames, ?_⟩
    by_cases hn : n = 0#32
    · subst hn
      rw [setCalcFunc_self]
      exact NodeCalcFunc.loops_atEnd (hf rfl) hend
    · rw [setCalcFunc_of_ne e (Ne.symm hn)]
      exact h.calcFunc

/-- The synth that the next step calls a unit of. -/
def calling (e : Engine) : Option NodeID :=
  match e.stack with
  | .graph _ s (_ :: _) :: _ => some s
  | _ => none

/-- What the unit that is called fires: done action 14 only when the synth is not right in the
root. -/
def FiresApart (e : Engine) (fires : List ℕ) : Prop :=
  ∀ s ∈ e.calling, 14 ∈ fires → (e.world.mNode s).mParent ≠ some 0#32

theorem RootOk.step (h : RootOk on e) {fires : List ℕ} (hfires : e.FiresApart fires)
    (he : e.step fires = some e') : RootOk on e' := by
  unfold Engine.step at he
  unfold FiresApart calling at hfires
  cases hstack : e.stack with
  | nil =>
    rw [hstack] at he
    cases he
    exact h
  | cons frame stack =>
    rw [hstack] at he hfires
    -- a loop is in progress, so the root is not paused
    obtain rfl : on = true := by
      have hcalc := h.calcFunc
      cases on with
      | true => rfl
      | false =>
        rw [hstack] at hcalc
        cases hcalc.2
    have hframe := h.frames frame (by simp [hstack])
    have hpop : RootOk true { e with stack } :=
      ⟨h.apart, fun f hf => h.frames f (by rw [hstack]; exact List.mem_cons_of_mem _ hf), h.calcFunc⟩
    cases frame with
    | graph f s calls =>
      cases calls with
      | cons call calls =>
        simp only [Option.bind_eq_bind, Option.bind_eq_some_iff] at he
        obtain ⟨-, -, he⟩ := he
        have h₁ : RootOk true { e with stack := .graph f s calls :: stack } := hpop.push hframe
        have hcall := spares_modifyGraph h₁.apart hframe fun g => { g with calls := g.calls ++ [call] }
        exact (h₁.of_spares hcall).of_spares (spares_doneActions fires hcall.apart hframe
          (hfires s rfl) he)
      | nil =>
        simp only [Option.bind_eq_bind, Option.bind_eq_some_iff] at he
        obtain ⟨e₁, hfinish, he⟩ := he
        have h₁ := hpop.finish (fun hs => absurd hs hframe) hfinish
        cases he
        split_ifs
        · exact h₁.push hframe
        · exact h₁
    | group f g child =>
      cases child with
      | none => exact hpop.finish hframe.2 he
      | some child =>
        simp only [Option.bind_eq_bind, Option.bind_eq_some_iff] at he
        obtain ⟨node, hnode, he⟩ := he
        obtain rfl := touch_some hnode
        have hchild : child ≠ 0#32 := by simpa using hframe.1
        have h₁ : RootOk true { e with stack := .group f g (e.world.mNode child).mNext :: stack } :=
          hpop.push ⟨(h.apart.avoids child).2.1, hframe.2⟩
        split_ifs at he
        · have h₂ := h₁.of_spares (spares_modifyGraph h₁.apart hchild fun g =>
            { g with mCalcFunc := f.beforeChild (e.graph child).mCalcFunc })
          exact h₂.callNode child he
        · exact h₁.callNode child he

/-! ## Requests -/

theorem RootOk.withWorld (h : RootOk on e) {w : World} (hw : RootApart w) : RootOk on (e.withWorld w) :=
  ⟨hw, h.frames, h.calcFunc⟩

/-- The calc function of another node, or one for the root that does not stop its loop. -/
theorem RootOk.setCalcFunc (h : RootOk on e) {f : NodeCalcFunc}
    (hloops : n = 0#32 → (e.graph n).mCalcFunc.loops = true → f.loops = true)
    (hnull : n = 0#32 → (e.graph n).mCalcFunc = .nodeNullCalc → f = .nodeNullCalc) :
    RootOk on (e.setCalcFunc n f) := by
  refine ⟨h.apart, h.frames, ?_⟩
  by_cases hn : n = 0#32
  · subst hn
    have hcalc := h.calcFunc
    rw [setCalcFunc_self]
    cases on with
    | true => exact hloops rfl hcalc
    | false => exact ⟨hnull rfl hcalc.1, hcalc.2⟩
  · rw [setCalcFunc_of_ne e (Ne.symm hn)]
    exact h.calcFunc

theorem RootOk.nodeReplace (h : RootOk on e) (hs : s ≠ 0#32) {target : NodeID}
    (he : e.nodeReplace s target = some e') : RootOk on e' := by
  unfold Engine.nodeReplace at he
  split at he
  · cases he
    exact h
  · rename_i group hgroup
    rw [if_neg hs] at he
    have hs' : some s ≠ some 0#32 := by simpa using hs
    have h₁ : RootApart (e.world.modify s fun n => { n with
        mParent := some group, mPrev := (e.world.mNode target).mPrev,
        mNext := (e.world.mNode target).mNext }) :=
      h.apart.modify_ne hs ⟨(h.apart.avoids target).1, (h.apart.avoids target).2.1,
        (h.apart.avoids s).2.2⟩
    have h₂ := h₁.linkNext (h₁.avoids s).1 hs' group
    have h₃ := (h₂.linkPrev (h₂.avoids s).2.1 hs' group).unlink target
    have h₄ := h.withWorld h₃
    exact h₄.of_spares (spares_nodeDelete h₄.apart he)

theorem RootOk.place (h : RootOk on e) (hs : s ≠ 0#32) {addAction : Octets.Word} {target : NodeID}
    (he : e.place addAction target s = some e') : RootOk on e' := by
  unfold Engine.place at he
  split_ifs at he
  · exact Option.some.inj he ▸ h.withWorld (h.apart.groupAddHead target s)
  · exact Option.some.inj he ▸ h.withWorld (h.apart.groupAddTail target s)
  · exact Option.some.inj he ▸ h.withWorld (h.apart.nodeAddBefore s target)
  · exact Option.some.inj he ▸ h.withWorld (h.apart.nodeAddAfter s target)
  · exact h.nodeReplace hs he

theorem RootOk.placeNew (h : RootOk on e) {made : Except (SCErr × World) (World × NodeID)}
    (hmade : (∃ w' s, made = .ok (w', s) ∧ RootApart w' ∧ s ≠ 0#32) ∨
      ∃ err w', made = .error (err, w') ∧ RootApart w') {graph : Graph} {addAction : Octets.Word}
    {target : NodeID} (he : e.placeNew made graph addAction target = some e') : RootOk on e' := by
  rcases hmade with ⟨w', s, rfl, hw', hs⟩ | ⟨err, w', rfl, hw'⟩
  · have h₁ : RootOk on { e.withWorld w' with graph := Function.update e.graph s graph } := by
      refine ⟨hw', h.frames, ?_⟩
      show if on then (Function.update e.graph s graph 0#32).mCalcFunc.loops = true else
        (Function.update e.graph s graph 0#32).mCalcFunc = _ ∧ _
      rw [Function.update_of_ne hs.symm]
      exact h.calcFunc
    exact h₁.place hs he
  · cases he
    exact h.withWorld hw'

theorem RootOk.gNew (h : RootOk on e) {nodeID target : NodeID} {addAction : Octets.Word}
    (he : e.perform (.gNew nodeID addAction target) = some e') : RootOk on e' := by
  have hmade := h.apart.groupNew nodeID
  simp only [Engine.perform] at he
  split at he
  · cases he
    exact h
  · split at he
    · rename_i w hnew
      simp only [Option.bind_eq_bind, Option.bind_eq_some_iff] at he
      obtain ⟨-, -, he⟩ := he
      cases he
      rw [hnew] at hmade
      rcases hmade with ⟨w', s, hok, -, -⟩ | ⟨err, w', herr, hw'⟩
      · cases hok
      · cases herr
        exact h.withWorld hw'
    · exact h.placeNew hmade he

/-- After an event the root computes its children, unless `/n_run` paused it last. -/
def rootOnAfter (e : Engine) (on : Bool) : EngineEvent → Bool
  | .request (.nRun node run) => if e.world.getNode node = some 0#32 then run ≠ 0 else on
  | _ => on

theorem RootOk.nRun (h : RootOk on e) (hstack : e.stack = []) {node : NodeID} {run : Octets.Word}
    (he : e.perform (.nRun node run) = some e') :
    RootOk (e.rootOnAfter on (.request (.nRun node run))) e' := by
  show RootOk (if e.world.getNode node = some 0#32 then decide (run ≠ 0) else on) e'
  simp only [Engine.perform] at he
  cases hget : e.world.getNode node with
  | none =>
    rw [hget] at he
    cases he
    rw [if_neg (by simp)]
    exact h
  | some n =>
    rw [hget] at he
    by_cases hn : n = 0#32
    · subst hn
      rw [if_pos rfl]
      unfold Engine.nodeSetRun at he
      simp only [Option.bind_eq_bind, Option.bind_eq_some_iff] at he
      obtain ⟨node, hnode, -, -, he⟩ := he
      obtain rfl := touch_some hnode
      rw [h.apart.group] at he
      have hcalc := h.calcFunc
      by_cases hrun : run = 0
      · subst hrun
        cases he
        refine ⟨h.apart, h.frames, ?_⟩
        refine ⟨?_, hstack⟩
        show ((e.setCalcFunc 0#32 _).graph 0#32).mCalcFunc = _
        rw [setCalcFunc_self]
        exact NodeCalcFunc.setRun_group_zero _
      · rw [if_neg hrun] at he
        cases he
        refine ⟨h.apart, h.frames, ?_⟩
        rw [if_pos (by simpa using hrun), setCalcFunc_self]
        show (NodeCalcFunc.setRun true run _).loops = true
        rw [NodeCalcFunc.setRun_group hrun]
        split_ifs with hnull
        · rfl
        · cases on with
          | true => exact hcalc
          | false => exact absurd hcalc.1 hnull
    · rw [if_neg (by simpa using hn)]
      exact h.of_spares (spares_nodeSetRun h.apart hn he)

theorem RootOk.perform (h : RootOk on e) (hstack : e.stack = []) (r : Request)
    (he : e.perform r = some e') : RootOk (e.rootOnAfter on (.request r)) e' := by
  have hworld : ∀ {w : World}, RootApart w → some (e.withWorld w) = some e' → RootOk on e' :=
    fun hw he => Option.some.inj he ▸ h.withWorld hw
  have hsame : some e = some e' → RootOk on e' := fun he => Option.some.inj he ▸ h
  cases r with
  | nRun node run => exact h.nRun hstack he
  | gNew nodeID addAction target => exact h.gNew he
  | sNew defname nodeID addAction target mNumUnits mCalcUnits =>
    simp only [Engine.perform] at he
    split at he
    · exact hsame he
    · split at he
      · exact hsame he
      · exact h.placeNew (h.apart.nodeNew defname nodeID) he
  | nFree node =>
    simp only [Engine.perform] at he
    split at he
    · exact hsame he
    · exact h.of_spares (spares_nodeDelete h.apart he)
  | nTrace node =>
    simp only [Engine.perform] at he
    split at he
    · exact hsame he
    · rename_i n _
      refine Option.some.inj he ▸ h.setCalcFunc ?_ ?_
      · rintro rfl hloops
        rw [h.apart.group]
        revert hloops
        cases (e.graph 0#32).mCalcFunc <;> simp [NodeCalcFunc.loops, NodeCalcFunc.nodeTrace,
          NodeCalcFunc.groupTrace]
      · rintro rfl hnull
        rw [h.apart.group, hnull]
        rfl
  | nBefore node target =>
    simp only [Engine.perform] at he
    split at he
    · exact hworld ((h.apart.nodeRemove _).nodeAddBefore _ _) he
    · exact hsame he
  | nAfter node target =>
    simp only [Engine.perform] at he
    split at he
    · exact hworld ((h.apart.nodeRemove _).nodeAddAfter _ _) he
    · exact hsame he
  | gHead group node =>
    simp only [Engine.perform] at he
    split at he
    · exact hworld ((h.apart.nodeRemove _).groupAddHead _ _) he
    · exact hsame he
  | gTail group node =>
    simp only [Engine.perform] at he
    split at he
    · exact hworld ((h.apart.nodeRemove _).groupAddTail _ _) he
    · exact hsame he
  | gFreeAll group =>
    simp only [Engine.perform] at he
    split at he
    · exact hsame he
    · exact h.of_spares (spares_groupDeleteAll h.apart he)
  | gDeepFree group =>
    simp only [Engine.perform] at he
    split at he
    · exact hsame he
    · exact h.of_spares (spares_groupDeepFreeGraphs h.apart he)
  | gDumpTree group flag =>
    simp only [Engine.perform] at he
    split at he
    · exact hsame he
    · split_ifs at he
      · refine Option.some.inj he ▸ h.setCalcFunc ?_ ?_
        · rintro rfl hloops
          revert hloops
          cases (e.graph 0#32).mCalcFunc <;> simp [NodeCalcFunc.loops,
            NodeCalcFunc.groupDumpTreeAndControls]
        · rintro rfl hnull
          rw [hnull]
          rfl
      · refine Option.some.inj he ▸ h.setCalcFunc ?_ ?_
        · rintro rfl hloops
          revert hloops
          cases (e.graph 0#32).mCalcFunc <;> simp [NodeCalcFunc.loops, NodeCalcFunc.groupDumpTree]
        · rintro rfl hnull
          rw [hnull]
          rfl

/-! ## The whole life of a server -/

/-- The condition on an event. -/
def EventApart (e : Engine) : EngineEvent → Prop
  | .step fires => e.FiresApart fires
  | _ => True

/-- Every event of the run meets the condition. -/
def LifeApart : Engine → List EngineEvent → Prop
  | _, [] => True
  | e, event :: events => e.EventApart event ∧ ∀ e' ∈ e.next event, LifeApart e' events

/-- Runs without done action 14 meet the condition. -/
theorem lifeApart_of_notMem (e : Engine) (events : List EngineEvent)
    (h14 : ∀ fires, .step fires ∈ events → 14 ∉ fires) : e.LifeApart events := by
  induction events generalizing e with
  | nil => trivial
  | cons event events ih =>
    refine ⟨?_, fun e' _ => ih e' fun fires hmem => h14 fires (List.mem_cons_of_mem _ hmem)⟩
    cases event with
    | step fires => exact fun _ _ hmem => absurd hmem (h14 fires List.mem_cons_self)
    | request r => trivial
    | run => trivial

/-- Whether `/n_run` has left the root running, after a run that began with `on`. -/
def rootOn : Engine → Bool → List EngineEvent → Bool
  | _, on, [] => on
  | e, on, event :: events =>
    match e.next event with
    | some e' => rootOn e' (e.rootOnAfter on event) events
    | none => on

theorem RootOk.next (h : RootOk on e) {event : EngineEvent} (hevent : e.EventApart event)
    (he : e.next event = some e') : RootOk (e.rootOnAfter on event) e' := by
  cases event with
  | request r =>
    unfold Engine.next at he
    dsimp only at he
    split_ifs at he with hstack
    exact h.perform hstack r he
  | run =>
    unfold Engine.next at he
    dsimp only at he
    split_ifs at he with hstack
    show RootOk on e'
    cases on with
    | true => exact h.callNode 0#32 he
    | false =>
      -- a root that is paused does nothing
      have hnull := h.calcFunc.1
      unfold worldRun Engine.callNode at he
      simp only [Option.bind_eq_bind, Option.bind_eq_some_iff, hnull] at he
      obtain ⟨-, -, he⟩ := he
      exact Option.some.inj he ▸ h.noteCall 0#32
  | step fires => exact h.step hevent he

theorem RootOk.life (h : RootOk on e) (events : List EngineEvent) (hlife : e.LifeApart events)
    (he : e.life events = some e') : RootOk (e.rootOn on events) e' := by
  induction events generalizing e on with
  | nil =>
    cases he
    exact h
  | cons event events ih =>
    obtain ⟨hevent, hrest⟩ := hlife
    rw [Engine.life] at he
    simp only [Option.bind_eq_bind, Option.bind_eq_some_iff] at he
    obtain ⟨e₁, hnext, he⟩ := he
    rw [rootOn, hnext]
    exact ih (h.next hevent hnext) (hrest e₁ hnext) he

theorem rootOk_new (inOptions : WorldOptions) (graphDefs : List (List Octets.Byte)) :
    RootOk true (new inOptions graphDefs) where
  apart := rootApart_new inOptions graphDefs
  frames := nofun
  calcFunc := rfl

/-- A root that is not paused goes over its children when a cycle starts. -/
theorem RootOk.worldRun (h : RootOk true e) :
    ∃ f, f.loops = true ∧ (e.graph 0#32).mCalcFunc = f ∧
      e.worldRun = some ((e.noteCall 0#32).push (.group f 0#32 (e.world.mNode 0#32).mHead)) := by
  have hloops : (e.graph 0#32).mCalcFunc.loops = true := h.calcFunc
  refine ⟨_, hloops, rfl, ?_⟩
  unfold Engine.worldRun Engine.callNode
  rw [touch_eq h.apart.mem]
  simp only [Option.bind_eq_bind, Option.bind_some]
  revert hloops
  cases (e.graph 0#32).mCalcFunc <;> intro hloops <;> first | rfl | cases hloops

/-- In every run in which no synth right in the root fires done action 14, the root stays in the
table, and it computes its children in every cycle unless `/n_run` paused it last. -/
theorem root_of_apart (inOptions : WorldOptions) (graphDefs : List (List Octets.Byte))
    (events : List EngineEvent) (hlife : (new inOptions graphDefs).LifeApart events)
    (he : (new inOptions graphDefs).life events = some e) :
    0#32 ∈ e.world.mNodeLib ∧
    ((new inOptions graphDefs).rootOn true events = true → ∃ f, f.loops = true ∧
      (e.graph 0#32).mCalcFunc = f ∧
      e.worldRun = some ((e.noteCall 0#32).push (.group f 0#32 (e.world.mNode 0#32).mHead))) := by
  have h := (rootOk_new inOptions graphDefs).life events hlife he
  refine ⟨h.apart.mem, fun hon => ?_⟩
  rw [hon] at h
  exact h.worldRun

/-- A synth in the root ends all nodes of the root; the root goes on. -/
theorem root_of_apart_endAll :
    ∃ e, (new kDefaultWorldOptions [[1#8]]).life [.request (.sNew [1#8] 2#32 0#32 0#32 1 [0]),
        .run, .step [], .step [], .step [], .step [13], .step [], .step []] = some e ∧
      e.stack = [] ∧ (e.graph 2#32).mCalcFunc = .nodeDelete ∧ 0#32 ∈ e.world.mNodeLib ∧
      ∃ f, f.loops = true ∧ (e.graph 0#32).mCalcFunc = f := by
  have hlife := lifeApart_of_notMem (new kDefaultWorldOptions [[1#8]])
    [.request (.sNew [1#8] 2#32 0#32 0#32 1 [0]), .run, .step [], .step [], .step [], .step [13],
      .step [], .step []] (by simp)
  obtain ⟨hmem, hloop⟩ := root_of_apart kDefaultWorldOptions [[1#8]] _ hlife rfl
  obtain ⟨f, hf, hcalc, -⟩ := hloop (by decide)
  exact ⟨_, rfl, by decide, by decide, hmem, f, hf, hcalc⟩

/-- A synth right in the root fires done action 14: the root is still in the table, and computes
nothing in the cycles to come. -/
theorem not_root_doneAction14 :
    ¬ ∀ (events : List EngineEvent) (e : Engine),
      (new kDefaultWorldOptions [[1#8]]).life events = some e →
      (new kDefaultWorldOptions [[1#8]]).rootOn true events = true →
      0#32 ∈ e.world.mNodeLib ∧ (e.graph 0#32).mCalcFunc.loops = true := by
  intro hall
  have hroot := hall [.request (.sNew [1#8] 2#32 0#32 0#32 1 [0]), .run, .step [], .step [],
    .step [], .step [14], .step [], .step []] _ rfl (by decide)
  exact absurd hroot.2 (by decide)

end Engine

end PoopWorms.Server
