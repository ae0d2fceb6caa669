import PoopWorms.Server.CommandsTheorems
import PoopWorms.Server.NodeCommandsTheorems

/-!
# The node tree over any run of commands

Every command keeps the node tree a tree, as long as it moves no node to a place below
itself and puts none beside the root. Where the commands do not look at this, a node is cut
off from the tree.
-/

namespace PoopWorms.Server

open Octets Osc World

variable {fpu : FloatUnit} {w w' : World} {kids : NodeID → List NodeID} {g n s : NodeID}
  {all : List NodeID}

/-! ## Nodes that a message names -/

section Lookup

/-- The pointers of a node in the table lead to nodes in the table. -/
theorem nodeStep_mem (h : Rooted w kids all) (hn : n ∈ w.mNodeLib) (loc : Byte)
    (hstep : nodeStep w n loc = some s) : s ∈ w.mNodeLib := by
  have hends : (w.mNode n).mIsGroup → ((w.mNode n).mHead = some s ∨ (w.mNode n).mTail = some s) →
      s ∈ w.mNodeLib := by
    intro hgroup hend
    obtain ⟨hhead, htail⟩ := h.ends n hn hgroup
    rw [hhead, htail] at hend
    rcases hend with hend | hend
    · exact (h.mem n s (List.mem_of_head? hend)).1
    · exact (h.mem n s (List.mem_of_getLast? hend)).1
  have hsides : ((w.mNode n).mPrev = some s ∨ (w.mNode n).mNext = some s) → s ∈ w.mNodeLib := by
    intro hside
    by_cases hn0 : n = 0#32
    · rw [hn0, h.alone.1, h.alone.2] at hside
      rcases hside with hside | hside <;> cases hside
    · obtain ⟨p, l₁, l₂, hkids⟩ := h.exists_cut hn hn0
      obtain ⟨-, hprev, hnext⟩ := h.toTree.neighbours hkids
      rw [hprev, hnext] at hside
      rcases hside with hside | hside
      · exact (h.mem p s (by simp [hkids, List.mem_of_getLast? hside])).1
      · exact (h.mem p s (by simp [hkids, List.mem_of_head? hside])).1
  unfold nodeStep at hstep
  split_ifs at hstep with hh hgroup ht hgroup hu hp hx
  · exact hends hgroup (.inl hstep)
  · exact hends hgroup (.inr hstep)
  · have hmem := h.complete n hn s hstep
    exact (h.group s (List.ne_nil_of_mem hmem)).1
  · exact hsides (.inl hstep)
  · exact hsides (.inr hstep)
  · exact Option.some.inj hstep ▸ hn

theorem getNode_mem (hget : w.getNode n = some s) : s ∈ w.mNodeLib := by
  unfold World.getNode at hget
  dsimp only at hget
  by_cases hmem : (if n = -1#32 then w.mRecentID else n) ∈ w.mNodeLib
  · rw [if_pos hmem] at hget
    exact Option.some.inj hget ▸ hmem
  · rw [if_neg hmem] at hget
    cases hget

/-- A path from a node in the table ends at one. -/
theorem foldl_nodeStep_mem (h : Rooted w kids all) (loc : List Byte) (node : Option NodeID)
    (hnode : ∀ x, node = some x → x ∈ w.mNodeLib)
    (hpath : loc.foldl (fun node c => node.bind fun n => nodeStep w n c) node = some s) :
    s ∈ w.mNodeLib := by
  induction loc generalizing node with
  | nil => exact hnode s hpath
  | cons c loc ih =>
    apply ih _ _ hpath
    intro x hx
    obtain ⟨y, hy, hstep⟩ := Option.bind_eq_some_iff.mp hx
    exact nodeStep_mem h (hnode y hy) c hstep

theorem msgGetNode_mem (h : IsTree w) {msg msg' : MsgIter}
    (hget : msgGetNode fpu w msg = some (some n, msg')) : n ∈ w.mNodeLib := by
  obtain ⟨kids, all, h⟩ := h
  unfold msgGetNode at hget
  obtain ⟨tag, -, hget⟩ := Option.bind_eq_some_iff.mp hget
  split_ifs at hget
  · obtain ⟨⟨loc, msg₁⟩, -, hget⟩ := Option.bind_eq_some_iff.mp hget
    obtain ⟨loc', -, hget⟩ := Option.bind_eq_some_iff.mp hget
    obtain ⟨⟨nodeID, msg₂⟩, -, hget⟩ := Option.bind_eq_some_iff.mp hget
    have hpath := congrArg Prod.fst (Option.some.inj hget)
    exact foldl_nodeStep_mem h _ _ (fun x hx => getNode_mem hx) hpath
  · obtain ⟨⟨nodeID, msg₂⟩, -, hget⟩ := Option.bind_eq_some_iff.mp hget
    exact getNode_mem (congrArg Prod.fst (Option.some.inj hget))

theorem msgGetGroup_mem (h : IsTree w) {msg msg' : MsgIter}
    (hget : msgGetGroup fpu w msg = some (some g, msg')) :
    g ∈ w.mNodeLib ∧ (w.mNode g).mIsGroup = true := by
  unfold msgGetGroup at hget
  obtain ⟨⟨node, msg₁⟩, hnode, hget⟩ := Option.bind_eq_some_iff.mp hget
  have hfilter : node.filter (fun n => (w.mNode n).mIsGroup) = some g :=
    congrArg Prod.fst (Option.some.inj hget)
  obtain ⟨hnode', hgroup⟩ := Option.filter_eq_some_iff.mp hfilter
  subst hnode'
  exact ⟨msgGetNode_mem h hnode, hgroup⟩

end Lookup

/-! ## The moves -/

section Moves

variable (h : Kept w)

include h

theorem moveBefore_kept (hs : s ∈ w.mNodeLib) (hn : n ∈ w.mNodeLib) (hmay : w.MayJoin s n) :
    Kept (w.moveBefore s n) := by
  obtain ⟨⟨kids, all, htree⟩, hhidden⟩ := h
  exact ⟨htree.nodeAddBefore hs hn hmay, (sameTable_moveBefore w s n).hidden.symm ▸ hhidden⟩

theorem moveAfter_kept (hs : s ∈ w.mNodeLib) (hn : n ∈ w.mNodeLib) (hmay : w.MayJoin s n) :
    Kept (w.moveAfter s n) := by
  obtain ⟨⟨kids, all, htree⟩, hhidden⟩ := h
  exact ⟨htree.nodeAddAfter hs hn hmay, (sameTable_moveAfter w s n).hidden.symm ▸ hhidden⟩

theorem moveToHead_kept (hg : g ∈ w.mNodeLib ∧ (w.mNode g).mIsGroup = true)
    (hs : s ∈ w.mNodeLib) (hmay : w.MayEnter s g) : Kept (w.moveToHead g s) := by
  obtain ⟨⟨kids, all, htree⟩, hhidden⟩ := h
  exact ⟨htree.groupAddHead hg.1 hg.2 hs hmay, (sameTable_moveToHead w g s).hidden.symm ▸ hhidden⟩

theorem moveToTail_kept (hg : g ∈ w.mNodeLib ∧ (w.mNode g).mIsGroup = true)
    (hs : s ∈ w.mNodeLib) (hmay : w.MayEnter s g) : Kept (w.moveToTail g s) := by
  obtain ⟨⟨kids, all, htree⟩, hhidden⟩ := h
  exact ⟨htree.groupAddTail hg.1 hg.2 hs hmay, (sameTable_moveToTail w g s).hidden.symm ▸ hhidden⟩

end Moves

/-! ## When a command is safe -/

variable (fpu) in
/-- Every turn of a loop over a message is `safe` in the world that it starts from. -/
def WhileSafe (one : World → MsgIter → Option ((World × SCErr) × MsgIter))
    (safe : World → MsgIter → Prop) : ℕ → World → MsgIter → Prop
  | 0, _, _ => True
  | fuel + 1, w, msg => msg.remain ≠ 0 → safe w msg ∧
    ∀ w' msg', one w msg = some ((w', .none), msg') → WhileSafe one safe fuel w' msg'

theorem whileRemain_kept {one : World → MsgIter → Option ((World × SCErr) × MsgIter)}
    {safe : World → MsgIter → Prop}
    (hone : ∀ w msg w' err msg', Kept w → safe w msg → one w msg = some ((w', err), msg') → Kept w')
    (fuel : ℕ) {w : World} {msg : MsgIter} (h : Kept w) (hsafe : WhileSafe one safe fuel w msg)
    {err : SCErr} (hrun : whileRemain one fuel w msg = some (w', err)) : Kept w' := by
  induction fuel generalizing w msg with
  | zero => cases hrun
  | succ fuel ih =>
    unfold whileRemain at hrun
    by_cases hremain : msg.remain = 0
    · rw [if_pos hremain] at hrun
      have hworld : w = w' := congrArg Prod.fst (Option.some.inj hrun)
      exact hworld ▸ h
    · rw [if_neg hremain] at hrun
      obtain ⟨hfirst, hrest⟩ := hsafe hremain
      obtain ⟨⟨⟨w₁, err₁⟩, msg₁⟩, hturn, hrun⟩ := Option.bind_eq_some_iff.mp hrun
      have h₁ := hone w msg w₁ err₁ msg₁ h hfirst hturn
      dsimp only at hrun
      split_ifs at hrun with herr
      · subst herr
        exact ih h₁ (hrest w₁ msg₁ hturn) hrun
      · have hworld : w₁ = w' := congrArg Prod.fst (Option.some.inj hrun)
        exact hworld ▸ h₁

theorem kept_of_result {r : World × SCErr} {err : SCErr} (hrun : some r = some (w', err))
    (h : Kept r.1) : Kept w' := by
  rw [Option.some.inj hrun] at h
  exact h

/-- No new node goes beside the root or into its place. -/
def MaySit (w : World) (mDef : List Byte) (nodeID addAction : Word) (target : Option NodeID) :
    Prop :=
  addAction = 2#32 ∨ addAction = 3#32 ∨ addAction = 4#32 → (w.nodeNew mDef nodeID).isOk →
    target ≠ some 0#32

theorem sNewAt_kept {fits : World → NodeID → Prop} {place : World → NodeID → NodeID → World}
    (hplace : Placing fits place) (h : Kept w) (defname : List Byte) (nodeID : NodeID)
    (target : Option NodeID) (notFound : SCErr)
    (hfits : ∀ t, target = some t → (w.nodeNew defname nodeID).isOk →
      ∀ hidden, fits { w with mHiddenID := hidden } t) :
    Kept (sNewAt w defname nodeID target notFound place).1 := by
  unfold sNewAt
  cases target with
  | none => exact h
  | some t =>
    dsimp only
    unfold graphNew
    rcases nodeNew_cases h defname nodeID with
      ⟨hidden, n, hhidden, hn, hok⟩ | ⟨err, hidden, hhidden, herr⟩
    · have hfit := hfits t rfl (by rw [hok]; rfl) hidden
      rw [hok]
      exact hplace _ defname false n t (h.withHidden hhidden) hn hfit
    · rw [herr]
      exact h.withHidden hhidden

theorem groupNew_isOk {inID : NodeID} {r : World × NodeID} (hok : w.groupNew inID = .ok r) :
    (w.nodeNew groupDefName inID).isOk := by
  unfold groupNew at hok
  cases hnew : w.nodeNew groupDefName inID with
  | error _ => rw [hnew] at hok; cases hok
  | ok _ => rfl

theorem gNewAt_kept {fits : World → NodeID → Prop} {place : World → NodeID → NodeID → World}
    (hplace : Placing fits place) (h : Kept w) (newGroupID : NodeID)
    (target : Option NodeID) (notFound : SCErr) (sameParent : NodeID → NodeID → Option Bool)
    (hfits : ∀ t, target = some t → (w.nodeNew groupDefName newGroupID).isOk →
      ∀ hidden, fits { w with mHiddenID := hidden } t) {err : SCErr}
    (hrun : gNewAt w newGroupID target notFound sameParent place = some (w', err)) : Kept w' := by
  unfold gNewAt at hrun
  cases target with
  | none => exact kept_of_result hrun h
  | some t =>
    dsimp only at hrun
    rcases groupNew_cases h newGroupID with
      ⟨hidden, n, hhidden, hn, hok⟩ | ⟨err', hidden, hhidden, herr⟩
    · rw [hok] at hrun
      exact kept_of_result hrun
        (hplace _ groupDefName true n t (h.withHidden hhidden) hn
          (hfits t rfl (groupNew_isOk hok) hidden))
    · rw [herr] at hrun
      have hkept : Kept { w with mHiddenID := hidden } := h.withHidden hhidden
      split at hrun
      · rename_i heq
        cases heq
      · rename_i heq
        have hworld := congrArg Prod.snd (Except.error.inj heq)
        dsimp only at hworld
        subst hworld
        split at hrun
        · exact kept_of_result hrun hkept
        · split at hrun
          · exact kept_of_result hrun hkept
          · obtain ⟨same, -, hrun⟩ := Option.bind_eq_some_iff.mp hrun
            exact kept_of_result hrun hkept
      · rename_i heq
        have hworld := congrArg Prod.snd (Except.error.inj heq)
        dsimp only at hworld
        subst hworld
        exact kept_of_result hrun hkept

/-- What `/s_new` does is safe: see `MaySit`. -/
def SNewSafe (fpu : FloatUnit) (w : World) (msg : MsgIter) : Prop :=
  ∀ defname msg₁ nodeID msg₂ addAction msg₃ target msg₄,
    msg.gets4 none = some (some defname, msg₁) → msg₁.geti fpu 0#32 = some (nodeID, msg₂) →
    msg₂.geti fpu 0#32 = some (addAction, msg₃) → defname ∈ w.mGraphDefLib →
    msgGetNode fpu w msg₃ = some (target, msg₄) → MaySit w defname nodeID addAction target

theorem methSNew_kept (h : Kept w) {msg : MsgIter} (hsafe : SNewSafe fpu w msg) {err : SCErr}
    (hrun : methSNew fpu w msg = some (w', err)) : Kept w' := by
  unfold methSNew at hrun
  obtain ⟨⟨defname, msg₁⟩, hdefname, hrun⟩ := Option.bind_eq_some_iff.mp hrun
  cases defname with
  | none => exact kept_of_result hrun h
  | some defname =>
    obtain ⟨⟨nodeID, msg₂⟩, hnodeID, hrun⟩ := Option.bind_eq_some_iff.mp hrun
    obtain ⟨⟨addAction, msg₃⟩, haddAction, hrun⟩ := Option.bind_eq_some_iff.mp hrun
    have hsit : ∀ target msg₄, defname ∈ w.mGraphDefLib → msgGetNode fpu w msg₃ =
        some (target, msg₄) → MaySit w defname nodeID addAction target :=
      fun target msg₄ hdef hget => hsafe _ _ _ _ _ _ _ _ hdefname hnodeID haddAction hdef hget
    -- a node beside which, or in whose place, the synth goes
    have hbeside : ∀ target msg₄, defname ∈ w.mGraphDefLib →
        (addAction = 2#32 ∨ addAction = 3#32 ∨ addAction = 4#32) →
        msgGetNode fpu w msg₃ = some (target, msg₄) → ∀ t, target = some t →
        (w.nodeNew defname nodeID).isOk → ∀ hidden : NodeID,
        t ∈ ({ w with mHiddenID := hidden } : World).mNodeLib ∧ t ≠ 0#32 := by
      rintro target msg₄ hdef haction hget t rfl hok hidden
      have hmem : t ∈ w.mNodeLib := msgGetNode_mem h.tree hget
      refine ⟨hmem, ?_⟩
      rintro rfl
      exact hsit _ _ hdef hget haction hok rfl
    dsimp only at hrun
    by_cases hdef : defname ∈ w.mGraphDefLib
    · rw [if_neg (not_not.mpr hdef)] at hrun
      split_ifs at hrun with h0 h1 h2 h3 h4
      · obtain ⟨⟨group, msg₄⟩, hget, hrun⟩ := Option.bind_eq_some_iff.mp hrun
        apply kept_of_result hrun
        apply sNewAt_kept placing_head h
        rintro t rfl - hidden
        exact msgGetGroup_mem (w := w) h.tree hget
      · obtain ⟨⟨group, msg₄⟩, hget, hrun⟩ := Option.bind_eq_some_iff.mp hrun
        apply kept_of_result hrun
        apply sNewAt_kept placing_tail h
        rintro t rfl - hidden
        exact msgGetGroup_mem (w := w) h.tree hget
      · obtain ⟨⟨target, msg₄⟩, hget, hrun⟩ := Option.bind_eq_some_iff.mp hrun
        apply kept_of_result hrun
        exact sNewAt_kept placing_before h _ _ _ _ (hbeside _ _ hdef (.inl h2) hget)
      · obtain ⟨⟨target, msg₄⟩, hget, hrun⟩ := Option.bind_eq_some_iff.mp hrun
        apply kept_of_result hrun
        exact sNewAt_kept placing_after h _ _ _ _ (hbeside _ _ hdef (.inr (.inl h3)) hget)
      · obtain ⟨⟨target, msg₄⟩, hget, hrun⟩ := Option.bind_eq_some_iff.mp hrun
        apply kept_of_result hrun
        exact sNewAt_kept placing_replace h _ _ _ _ (hbeside _ _ hdef (.inr (.inr h4)) hget)
      · exact kept_of_result hrun h
    · rw [if_pos hdef] at hrun
      exact kept_of_result hrun h

/-- One group of `/g_new` is made in a safe place: see `MaySit`. -/
def GNewSafe (fpu : FloatUnit) (w : World) (msg : MsgIter) : Prop :=
  ∀ newGroupID msg₁ addAction msg₂ target msg₃,
    msg.geti fpu 0#32 = some (newGroupID, msg₁) → msg₁.geti fpu 0#32 = some (addAction, msg₂) →
    msgGetNode fpu w msg₂ = some (target, msg₃) → MaySit w groupDefName newGroupID addAction target

theorem gNewOne_kept (w : World) (msg : MsgIter) (w' : World) (err : SCErr) (msg' : MsgIter)
    (h : Kept w) (hsafe : GNewSafe fpu w msg)
    (hrun : gNewOne fpu w msg = some ((w', err), msg')) : Kept w' := by
  unfold gNewOne at hrun
  obtain ⟨⟨newGroupID, msg₁⟩, hid, hrun⟩ := Option.bind_eq_some_iff.mp hrun
  obtain ⟨⟨addAction, msg₂⟩, haddAction, hrun⟩ := Option.bind_eq_some_iff.mp hrun
  have hbeside : ∀ target msg₃, (addAction = 2#32 ∨ addAction = 3#32 ∨ addAction = 4#32) →
      msgGetNode fpu w msg₂ = some (target, msg₃) → ∀ t, target = some t →
      (w.nodeNew groupDefName newGroupID).isOk → ∀ hidden : NodeID,
      t ∈ ({ w with mHiddenID := hidden } : World).mNodeLib ∧ t ≠ 0#32 := by
    rintro target msg₃ haction hget t rfl hok hidden
    have hmem : t ∈ w.mNodeLib := msgGetNode_mem h.tree hget
    refine ⟨hmem, ?_⟩
    rintro rfl
    exact hsafe _ _ _ _ _ _ hid haddAction hget haction hok rfl
  dsimp only at hrun
  split_ifs at hrun with h0 h1 h2 h3 h4
  · obtain ⟨⟨group, msg₃⟩, hget, hrun⟩ := Option.bind_eq_some_iff.mp hrun
    obtain ⟨r, hplaced, hrun⟩ := Option.bind_eq_some_iff.mp hrun
    obtain rfl := congrArg Prod.fst (Option.some.inj hrun)
    apply gNewAt_kept placing_head h _ _ _ _ _ hplaced
    rintro t rfl - hidden
    exact msgGetGroup_mem (w := w) h.tree hget
  · obtain ⟨⟨group, msg₃⟩, hget, hrun⟩ := Option.bind_eq_some_iff.mp hrun
    obtain ⟨r, hplaced, hrun⟩ := Option.bind_eq_some_iff.mp hrun
    obtain rfl := congrArg Prod.fst (Option.some.inj hrun)
    apply gNewAt_kept placing_tail h _ _ _ _ _ hplaced
    rintro t rfl - hidden
    exact msgGetGroup_mem (w := w) h.tree hget
  · obtain ⟨⟨target, msg₃⟩, hget, hrun⟩ := Option.bind_eq_some_iff.mp hrun
    obtain ⟨r, hplaced, hrun⟩ := Option.bind_eq_some_iff.mp hrun
    obtain rfl := congrArg Prod.fst (Option.some.inj hrun)
    exact gNewAt_kept placing_before h _ _ _ _ (hbeside _ _ (.inl h2) hget) hplaced
  · obtain ⟨⟨target, msg₃⟩, hget, hrun⟩ := Option.bind_eq_some_iff.mp hrun
    obtain ⟨r, hplaced, hrun⟩ := Option.bind_eq_some_iff.mp hrun
    obtain rfl := congrArg Prod.fst (Option.some.inj hrun)
    exact gNewAt_kept placing_after h _ _ _ _ (hbeside _ _ (.inr (.inl h3)) hget) hplaced
  · obtain ⟨⟨target, msg₃⟩, hget, hrun⟩ := Option.bind_eq_some_iff.mp hrun
    cases target with
    | none =>
      obtain rfl := congrArg (·.1.1) (Option.some.inj hrun)
      exact h
    | some target =>
      dsimp only at hrun
      rcases groupNew_cases h newGroupID with
        ⟨hidden, n, hhidden, hn, hok⟩ | ⟨err', hidden, hhidden, herr⟩
      · have hfits := hbeside _ _ (.inr (.inr h4)) hget target rfl (groupNew_isOk hok) hidden
        rw [hok] at hrun
        obtain rfl := congrArg (·.1.1) (Option.some.inj hrun)
        exact placing_replace _ groupDefName true n target (h.withHidden hhidden) hn hfits
      · rw [herr] at hrun
        obtain rfl := congrArg (·.1.1) (Option.some.inj hrun)
        exact h.withHidden hhidden
  · obtain rfl := congrArg (·.1.1) (Option.some.inj hrun)
    exact h

/-! ### Freeing -/

/-- Every turn of a loop is safe. -/
def AlwaysSafe (_ : World) (_ : MsgIter) : Prop := True

theorem whileSafe_always (one : World → MsgIter → Option ((World × SCErr) × MsgIter)) (fuel : ℕ)
    (w : World) (msg : MsgIter) : WhileSafe one AlwaysSafe fuel w msg := by
  induction fuel generalizing w msg with
  | zero => trivial
  | succ fuel ih => exact fun _ => ⟨trivial, fun w' msg' _ => ih w' msg'⟩

theorem nFreeOne_kept (w : World) (msg : MsgIter) (w' : World) (err : SCErr) (msg' : MsgIter)
    (h : Kept w) (_ : AlwaysSafe w msg) (hrun : nFreeOne fpu w msg = some ((w', err), msg')) :
    Kept w' := by
  unfold nFreeOne at hrun
  obtain ⟨⟨node, msg₁⟩, hget, hrun⟩ := Option.bind_eq_some_iff.mp hrun
  cases node with
  | none =>
    obtain rfl := congrArg (·.1.1) (Option.some.inj hrun)
    exact h
  | some node =>
    obtain rfl := congrArg (·.1.1) (Option.some.inj hrun)
    have hmem := msgGetNode_mem h.tree hget
    obtain ⟨⟨kids, all, htree⟩, hhidden⟩ := h
    exact ⟨htree.nodeDelete hmem, (mHiddenID_nodeDelete w node).symm ▸ hhidden⟩

theorem gFreeAllOne_kept (w : World) (msg : MsgIter) (w' : World) (err : SCErr) (msg' : MsgIter)
    (h : Kept w) (_ : AlwaysSafe w msg) (hrun : gFreeAllOne fpu w msg = some ((w', err), msg')) :
    Kept w' := by
  unfold gFreeAllOne at hrun
  obtain ⟨⟨group, msg₁⟩, hget, hrun⟩ := Option.bind_eq_some_iff.mp hrun
  cases group with
  | none =>
    obtain rfl := congrArg (·.1.1) (Option.some.inj hrun)
    exact h
  | some group =>
    obtain rfl := congrArg (·.1.1) (Option.some.inj hrun)
    obtain ⟨hmem, hgroup⟩ := msgGetGroup_mem h.tree hget
    obtain ⟨⟨kids, all, htree⟩, hhidden⟩ := h
    obtain ⟨b, hb, -⟩ := htree.exists_below hmem
    exact ⟨⟨_, htree.groupDeleteAll hmem hgroup hb⟩, (mHiddenID_deleteFrom w _ _).symm ▸ hhidden⟩

theorem gDeepFreeOne_kept (w : World) (msg : MsgIter) (w' : World) (err : SCErr) (msg' : MsgIter)
    (h : Kept w) (_ : AlwaysSafe w msg) (hrun : gDeepFreeOne fpu w msg = some ((w', err), msg')) :
    Kept w' := by
  unfold gDeepFreeOne at hrun
  obtain ⟨⟨group, msg₁⟩, hget, hrun⟩ := Option.bind_eq_some_iff.mp hrun
  cases group with
  | none =>
    obtain rfl := congrArg (·.1.1) (Option.some.inj hrun)
    exact h
  | some group =>
    obtain rfl := congrArg (·.1.1) (Option.some.inj hrun)
    obtain ⟨hmem, hgroup⟩ := msgGetGroup_mem h.tree hget
    obtain ⟨⟨kids, all, htree⟩, hhidden⟩ := h
    exact ⟨htree.groupDeepFreeGraphs hmem hgroup, (mHiddenID_deepFreeFrom w _ _).symm ▸ hhidden⟩

/-! ### Moving into groups -/

/-- One turn of `/g_head` or `/g_tail` moves no node into itself. -/
def GMoveSafe (fpu : FloatUnit) (w : World) (msg : MsgIter) : Prop :=
  ∀ group msg₁ node msg₂, msgGetGroup fpu w msg = some (some group, msg₁) →
    msgGetNode fpu w msg₁ = some (some node, msg₂) → MayEnter w node group

theorem gMoveOne_kept {place : World → NodeID → NodeID → World}
    (hplace : ∀ w g s, Kept w → g ∈ w.mNodeLib ∧ (w.mNode g).mIsGroup = true → s ∈ w.mNodeLib →
      w.MayEnter s g → Kept (place w g s))
    (w : World) (msg : MsgIter) (w' : World) (err : SCErr) (msg' : MsgIter) (h : Kept w)
    (hsafe : GMoveSafe fpu w msg) (hrun : gMoveOne fpu place w msg = some ((w', err), msg')) :
    Kept w' := by
  unfold gMoveOne at hrun
  obtain ⟨⟨group, msg₁⟩, hgroup, hrun⟩ := Option.bind_eq_some_iff.mp hrun
  cases group with
  | none =>
    obtain rfl := congrArg (·.1.1) (Option.some.inj hrun)
    exact h
  | some group =>
    obtain ⟨⟨node, msg₂⟩, hnode, hrun⟩ := Option.bind_eq_some_iff.mp hrun
    cases node with
    | none =>
      obtain rfl := congrArg (·.1.1) (Option.some.inj hrun)
      exact h
    | some node =>
      obtain rfl := congrArg (·.1.1) (Option.some.inj hrun)
      exact hplace w group node h (msgGetGroup_mem h.tree hgroup) (msgGetNode_mem h.tree hnode)
        (hsafe group msg₁ node msg₂ hgroup hnode)

/-! ### Moving beside nodes -/

/-- The moves that the loop of `/n_before` and `/n_after` makes put no node beside the root or
below itself. -/
def PairsSafe (fpu : FloatUnit) (move : World → NodeID → NodeID → World) :
    ℕ → World → Option (NodeID × NodeID) → MsgIter → Prop
  | 0, _, _, _ => True
  | fuel + 1, w, prev, msg => msg.remain ≠ 0 → ∀ node msg₁ target msg₂,
    msgGetNode fpu w msg = some (node, msg₁) → msgGetNode fpu w msg₁ = some (target, msg₂) →
    match node, target with
    | some node, some target =>
      match prev with
      | some (prevNode, prevTarget) =>
        if prevNode ≠ node then MayJoin w prevNode prevTarget ∧
          PairsSafe fpu move fuel (move w prevNode prevTarget) (some (node, target)) msg₂
        else PairsSafe fpu move fuel w (some (node, target)) msg₂
      | none => PairsSafe fpu move fuel w (some (node, target)) msg₂
    | _, _ => PairsSafe fpu move fuel w prev msg₂

/-- Moves beside a node that keep the tree. -/
def Joining (move : World → NodeID → NodeID → World) : Prop :=
  ∀ w s n, Kept w → s ∈ w.mNodeLib → n ∈ w.mNodeLib → w.MayJoin s n →
    Kept (move w s n) ∧ (move w s n).mNodeLib = w.mNodeLib

theorem joining_moveBefore : Joining World.moveBefore :=
  fun w s n h hs hn hmay => ⟨moveBefore_kept h hs hn hmay, (sameTable_moveBefore w s n).table⟩

theorem joining_moveAfter : Joining World.moveAfter :=
  fun w s n h hs hn hmay => ⟨moveAfter_kept h hs hn hmay, (sameTable_moveAfter w s n).table⟩

theorem pairsFrom_kept {move : World → NodeID → NodeID → World} (hmove : Joining move) (fuel : ℕ)
    {w : World} {prev : Option (NodeID × NodeID)} {msg : MsgIter} (h : Kept w)
    (hprev : ∀ p, prev = some p → p.1 ∈ w.mNodeLib ∧ p.2 ∈ w.mNodeLib)
    (hsafe : PairsSafe fpu move fuel w prev msg) {last : Option (NodeID × NodeID)}
    (hrun : pairsFrom fpu move fuel w prev msg = some (w', last)) :
    Kept w' ∧ ∀ p, last = some p → p.1 ∈ w'.mNodeLib ∧ p.2 ∈ w'.mNodeLib := by
  induction fuel generalizing w prev msg with
  | zero => cases hrun
  | succ fuel ih =>
    unfold pairsFrom at hrun
    by_cases hremain : msg.remain = 0
    · rw [if_pos hremain] at hrun
      obtain ⟨rfl, rfl⟩ := Prod.mk.inj (Option.some.inj hrun)
      exact ⟨h, hprev⟩
    · rw [if_neg hremain] at hrun
      obtain ⟨⟨node, msg₁⟩, hnode, hrun⟩ := Option.bind_eq_some_iff.mp hrun
      obtain ⟨⟨target, msg₂⟩, htarget, hrun⟩ := Option.bind_eq_some_iff.mp hrun
      have hnext := hsafe hremain node msg₁ target msg₂ hnode htarget
      cases node with
      | none => exact ih h hprev hnext hrun
      | some node =>
        cases target with
        | none => exact ih h hprev hnext hrun
        | some target =>
          have hnodes : node ∈ w.mNodeLib ∧ target ∈ w.mNodeLib :=
            ⟨msgGetNode_mem h.tree hnode, msgGetNode_mem h.tree htarget⟩
          cases prev with
          | none =>
            refine ih h ?_ hnext hrun
            rintro p ⟨⟩
            exact hnodes
          | some prev =>
            obtain ⟨prevNode, prevTarget⟩ := prev
            obtain ⟨hprevNode, hprevTarget⟩ := hprev _ rfl
            dsimp only at hnext hrun
            by_cases hsame : prevNode ≠ node
            · rw [if_pos hsame] at hnext hrun
              obtain ⟨hkept, htable⟩ := hmove w _ _ h hprevNode hprevTarget hnext.1
              refine ih hkept ?_ hnext.2 hrun
              rintro p ⟨⟩
              rw [htable]
              exact hnodes
            · rw [if_neg hsame] at hnext hrun
              refine ih h ?_ hnext hrun
              rintro p ⟨⟩
              exact hnodes

/-- All moves of `/n_before` are safe, that of the last pair too. -/
def NBeforeSafe (fpu : FloatUnit) (w : World) (msg : MsgIter) : Prop :=
  PairsSafe fpu World.moveBefore (msg.size + 1) w none msg ∧ ∀ w' prevNode prevTarget,
    pairsFrom fpu World.moveBefore (msg.size + 1) w none msg = some (w', some (prevNode, prevTarget)) →
      prevNode ≠ prevTarget → MayJoin w' prevNode prevTarget

theorem methNBefore_kept (h : Kept w) {msg : MsgIter} (hsafe : NBeforeSafe fpu w msg) {err : SCErr}
    (hrun : methNBefore fpu w msg = some (w', err)) : Kept w' := by
  unfold methNBefore at hrun
  obtain ⟨⟨w₁, prev⟩, hpairs, hrun⟩ := Option.bind_eq_some_iff.mp hrun
  obtain ⟨hkept, hlast⟩ := pairsFrom_kept joining_moveBefore _ h (by simp) hsafe.1 hpairs
  cases prev with
  | none => exact kept_of_result hrun hkept
  | some prev =>
    obtain ⟨prevNode, prevTarget⟩ := prev
    obtain ⟨hprevNode, hprevTarget⟩ := hlast _ rfl
    dsimp only at hrun
    by_cases hself : prevNode ≠ prevTarget
    · rw [if_pos hself] at hrun
      exact kept_of_result hrun
        (moveBefore_kept hkept hprevNode hprevTarget (hsafe.2 _ _ _ hpairs hself))
    · rw [if_neg hself] at hrun
      exact kept_of_result hrun hkept

/-- All moves of `/n_after` are safe, that of the last pair too. -/
def NAfterSafe (fpu : FloatUnit) (w : World) (msg : MsgIter) : Prop :=
  PairsSafe fpu World.moveAfter (msg.size + 1) w none msg ∧ ∀ w' prevNode prevTarget,
    pairsFrom fpu World.moveAfter (msg.size + 1) w none msg = some (w', some (prevNode, prevTarget)) →
      MayJoin w' prevNode prevTarget

theorem methNAfter_kept (h : Kept w) {msg : MsgIter} (hsafe : NAfterSafe fpu w msg) {err : SCErr}
    (hrun : methNAfter fpu w msg = some (w', err)) : Kept w' := by
  unfold methNAfter at hrun
  obtain ⟨⟨w₁, prev⟩, hpairs, hrun⟩ := Option.bind_eq_some_iff.mp hrun
  obtain ⟨hkept, hlast⟩ := pairsFrom_kept joining_moveAfter _ h (by simp) hsafe.1 hpairs
  cases prev with
  | none => exact kept_of_result hrun hkept
  | some prev =>
    obtain ⟨prevNode, prevTarget⟩ := prev
    obtain ⟨hprevNode, hprevTarget⟩ := hlast _ rfl
    exact kept_of_result hrun
      (moveAfter_kept hkept hprevNode hprevTarget (hsafe.2 _ _ _ hpairs))

/-! ### Ordering -/

/-- The moves of the second loop of `/n_order` are safe. -/
def OrderSafe (fpu : FloatUnit) : ℕ → World → NodeID → MsgIter → Prop
  | 0, _, _, _ => True
  | fuel + 1, w, prevNode, msg => msg.remain ≠ 0 → ∀ node msg₁,
    msgGetNode fpu w msg = some (node, msg₁) →
    match node with
    | some node => MayJoin w node prevNode ∧ OrderSafe fpu fuel (w.moveAfter node prevNode) node msg₁
    | none => OrderSafe fpu fuel w prevNode msg₁

theorem orderFrom_kept (fuel : ℕ) {w : World} {prevNode : NodeID} {msg : MsgIter} (h : Kept w)
    (hprev : prevNode ∈ w.mNodeLib) (hsafe : OrderSafe fpu fuel w prevNode msg)
    (hrun : orderFrom fpu fuel w prevNode msg = some w') : Kept w' := by
  induction fuel generalizing w prevNode msg with
  | zero => cases hrun
  | succ fuel ih =>
    unfold orderFrom at hrun
    by_cases hremain : msg.remain = 0
    · rw [if_pos hremain] at hrun
      exact Option.some.inj hrun ▸ h
    · rw [if_neg hremain] at hrun
      obtain ⟨⟨node, msg₁⟩, hnode, hrun⟩ := Option.bind_eq_some_iff.mp hrun
      have hnext := hsafe hremain node msg₁ hnode
      cases node with
      | none => exact ih h hprev hnext hrun
      | some node =>
        have hmem := msgGetNode_mem h.tree hnode
        have hkept := moveAfter_kept h hmem hprev hnext.1
        refine ih hkept ?_ hnext.2 hrun
        rw [(sameTable_moveAfter w node prevNode).table]
        exact hmem

theorem firstNode_mem (fuel : ℕ) (h : IsTree w) {msg msg' : MsgIter}
    (hrun : firstNode fpu w fuel msg = some (some n, msg')) : n ∈ w.mNodeLib := by
  induction fuel generalizing msg with
  | zero => cases hrun
  | succ fuel ih =>
    unfold firstNode at hrun
    split_ifs at hrun
    · cases hrun
    · obtain ⟨⟨node, msg₁⟩, hnode, hrun⟩ := Option.bind_eq_some_iff.mp hrun
      cases node with
      | none => exact ih hrun
      | some node =>
        have hsame : some node = some n := congrArg Prod.fst (Option.some.inj hrun)
        exact Option.some.inj hsame ▸ msgGetNode_mem h hnode

/-- One case of `/n_order` is safe: the first node may go to its place, and the other nodes
after it. -/
def NOrderAtSafe (fpu : FloatUnit) (w : World) (target : Option NodeID)
    (may : World → NodeID → NodeID → Prop) (place : World → NodeID → NodeID → World)
    (msg : MsgIter) : Prop :=
  ∀ t node msg₁, target = some t → firstNode fpu w (msg.size + 1) msg = some (some node, msg₁) →
    may w node t ∧ OrderSafe fpu (msg₁.size + 1) (place w t node) node msg₁

theorem nOrderAt_kept {may : World → NodeID → NodeID → Prop}
    {place : World → NodeID → NodeID → World} (h : Kept w) {target : Option NodeID}
    (hplace : ∀ t s, target = some t → s ∈ w.mNodeLib → may w s t →
      Kept (place w t s) ∧ (place w t s).mNodeLib = w.mNodeLib)
    {notFound : SCErr} {msg : MsgIter} (hsafe : NOrderAtSafe fpu w target may place msg) {err : SCErr}
    (hrun : nOrderAt fpu w target notFound place msg = some (w', err)) : Kept w' := by
  unfold nOrderAt at hrun
  cases target with
  | none => exact kept_of_result hrun h
  | some t =>
    obtain ⟨⟨node, msg₁⟩, hfirst, hrun⟩ := Option.bind_eq_some_iff.mp hrun
    cases node with
    | none => exact kept_of_result hrun h
    | some node =>
      obtain ⟨w₁, horder, hrun⟩ := Option.bind_eq_some_iff.mp hrun
      obtain ⟨hmay, hrest⟩ := hsafe t node msg₁ rfl hfirst
      have hmem := firstNode_mem _ h.tree hfirst
      obtain ⟨hkept, htable⟩ := hplace t node rfl hmem hmay
      apply kept_of_result hrun
      exact orderFrom_kept _ hkept (htable ▸ hmem) hrest horder

/-- All moves of `/n_order` are safe. -/
def NOrderSafe (fpu : FloatUnit) (w : World) (msg : MsgIter) : Prop :=
  ∀ addAction msg₁ target msg₂, msg.geti fpu 0#32 = some (addAction, msg₁) →
    (addAction = 0#32 → msgGetGroup fpu w msg₁ = some (target, msg₂) →
      NOrderAtSafe fpu w target MayEnter World.moveToHead msg₂) ∧
    (addAction = 1#32 → msgGetGroup fpu w msg₁ = some (target, msg₂) →
      NOrderAtSafe fpu w target MayEnter World.moveToTail msg₂) ∧
    (addAction = 2#32 → msgGetNode fpu w msg₁ = some (target, msg₂) →
      NOrderAtSafe fpu w target MayJoin (fun w target node => w.moveBefore node target) msg₂) ∧
    (addAction = 3#32 → msgGetNode fpu w msg₁ = some (target, msg₂) →
      NOrderAtSafe fpu w target MayJoin (fun w target node => w.moveAfter node target) msg₂)

theorem methNOrder_kept (h : Kept w) {msg : MsgIter} (hsafe : NOrderSafe fpu w msg) {err : SCErr}
    (hrun : methNOrder fpu w msg = some (w', err)) : Kept w' := by
  unfold methNOrder at hrun
  obtain ⟨⟨addAction, msg₁⟩, haddAction, hrun⟩ := Option.bind_eq_some_iff.mp hrun
  dsimp only at hrun
  split_ifs at hrun with h0 h1 h2 h3
  · obtain ⟨⟨target, msg₂⟩, hget, hrun⟩ := Option.bind_eq_some_iff.mp hrun
    refine nOrderAt_kept h ?_ ((hsafe _ _ target msg₂ haddAction).1 h0 hget) hrun
    rintro t s rfl hs hmay
    exact ⟨moveToHead_kept h (msgGetGroup_mem h.tree hget) hs hmay,
      (sameTable_moveToHead w t s).table⟩
  · obtain ⟨⟨target, msg₂⟩, hget, hrun⟩ := Option.bind_eq_some_iff.mp hrun
    refine nOrderAt_kept h ?_ ((hsafe _ _ target msg₂ haddAction).2.1 h1 hget) hrun
    rintro t s rfl hs hmay
    exact ⟨moveToTail_kept h (msgGetGroup_mem h.tree hget) hs hmay,
      (sameTable_moveToTail w t s).table⟩
  · obtain ⟨⟨target, msg₂⟩, hget, hrun⟩ := Option.bind_eq_some_iff.mp hrun
    refine nOrderAt_kept h ?_ ((hsafe _ _ target msg₂ haddAction).2.2.1 h2 hget) hrun
    rintro t s rfl hs hmay
    exact joining_moveBefore w s t h hs (msgGetNode_mem h.tree hget) hmay
  · obtain ⟨⟨target, msg₂⟩, hget, hrun⟩ := Option.bind_eq_some_iff.mp hrun
    refine nOrderAt_kept h ?_ ((hsafe _ _ target msg₂ haddAction).2.2.2 h3 hget) hrun
    rintro t s rfl hs hmay
    exact joining_moveAfter w s t h hs (msgGetNode_mem h.tree hget) hmay
  · exact kept_of_result hrun h

/-! ## Runs -/

/-- The condition under which a command keeps the tree. -/
def NodeMethod.Safe (fpu : FloatUnit) (w : World) (msg : MsgIter) : NodeMethod → Prop
  | sNew => SNewSafe fpu w msg
  | gNew => WhileSafe (gNewOne fpu) (GNewSafe fpu) (msg.size + 1) w msg
  | nFree => True
  | nBefore => NBeforeSafe fpu w msg
  | nAfter => NAfterSafe fpu w msg
  | nOrder => NOrderSafe fpu w msg
  | gHead => WhileSafe (gHeadOne fpu) (GMoveSafe fpu) (msg.size + 1) w msg
  | gTail => WhileSafe (gTailOne fpu) (GMoveSafe fpu) (msg.size + 1) w msg
  | gFreeAll => True
  | gDeepFree => True

theorem meth_kept (h : Kept w) (m : NodeMethod) {msg : MsgIter} (hsafe : m.Safe fpu w msg)
    {err : SCErr} (hrun : m.meth fpu w msg = some (w', err)) : Kept w' := by
  cases m with
  | sNew => exact methSNew_kept h hsafe hrun
  | gNew => exact whileRemain_kept gNewOne_kept _ h hsafe hrun
  | nFree => exact whileRemain_kept nFreeOne_kept _ h (whileSafe_always ..) hrun
  | nBefore => exact methNBefore_kept h hsafe hrun
  | nAfter => exact methNAfter_kept h hsafe hrun
  | nOrder => exact methNOrder_kept h hsafe hrun
  | gHead =>
    refine whileRemain_kept (gMoveOne_kept ?_) _ h hsafe hrun
    exact fun w g s h hg hs hmay => moveToHead_kept h hg hs hmay
  | gTail =>
    refine whileRemain_kept (gMoveOne_kept ?_) _ h hsafe hrun
    exact fun w g s h hg hs hmay => moveToTail_kept h hg hs hmay
  | gFreeAll => exact whileRemain_kept gFreeAllOne_kept _ h (whileSafe_always ..) hrun
  | gDeepFree => exact whileRemain_kept gDeepFreeOne_kept _ h (whileSafe_always ..) hrun

/-- Every packet of a run asks for a command that is safe when it is performed. -/
def PacketsSafe (fpu : FloatUnit) : World → List (List Byte) → Prop
  | _, [] => True
  | w, inData :: packets =>
    (∀ msg m, openMessage inData = some msg → NodeMethod.ofPacket inData = some m →
      m.Safe fpu w msg) ∧
    ∀ w' err, performNodeMessage fpu w inData = some (w', err) → PacketsSafe fpu w' packets

theorem performNodeMessage_kept (h : Kept w) {inData : List Byte}
    (hsafe : ∀ msg m, openMessage inData = some msg → NodeMethod.ofPacket inData = some m →
      m.Safe fpu w msg) {err : SCErr}
    (hrun : performNodeMessage fpu w inData = some (w', err)) : Kept w' := by
  unfold performNodeMessage at hrun
  obtain ⟨msg, hmsg, hrun⟩ := Option.bind_eq_some_iff.mp hrun
  obtain ⟨m, hm, hrun⟩ := Option.bind_eq_some_iff.mp hrun
  exact meth_kept h m (hsafe msg m hmsg hm) hrun

theorem performPackets_kept (packets : List (List Byte)) {w : World} (h : Kept w)
    (hsafe : PacketsSafe fpu w packets) (hrun : performPackets fpu w packets = some w') :
    Kept w' := by
  induction packets generalizing w with
  | nil => exact Option.some.inj hrun ▸ h
  | cons inData packets ih =>
    obtain ⟨⟨w₁, err⟩, hfirst, hrun⟩ := Option.bind_eq_some_iff.mp hrun
    exact ih (performNodeMessage_kept h hsafe.1 hfirst) (hsafe.2 w₁ err hfirst) hrun

theorem kept_new (inOptions : WorldOptions) (graphDefs : List (List Byte)) :
    Kept (World.new inOptions graphDefs) := by
  refine ⟨⟨_, _, rooted_new inOptions graphDefs⟩, ?_⟩
  show (-8#32 : NodeID).toNat % 8 = 0
  decide

/-- In every run of safe commands the nodes of the table are a tree below the root. -/
theorem performPackets_isTree (fpu : FloatUnit) (inOptions : WorldOptions)
    (graphDefs packets : List (List Byte)) (w : World)
    (hsafe : PacketsSafe fpu (World.new inOptions graphDefs) packets)
    (hrun : performPackets fpu (World.new inOptions graphDefs) packets = some w) : IsTree w :=
  (performPackets_kept packets (kept_new inOptions graphDefs) hsafe hrun).tree

/-! ## Messages that are safe -/

theorem whileSafe_once {one : World → MsgIter → Option ((World × SCErr) × MsgIter)}
    {safe : World → MsgIter → Prop} {it : MsgIter} (hsafe : safe w it)
    (hrest : ∀ w' it', one w it = some ((w', .none), it') → it'.At []) (fuel : ℕ) :
    WhileSafe one safe fuel w it := by
  cases fuel with
  | zero => trivial
  | succ fuel =>
    intro _
    refine ⟨hsafe, fun w' it' hone => ?_⟩
    cases fuel with
    | zero => trivial
    | succ fuel => exact fun hremain => absurd (hrest w' it' hone).remain_nil hremain

/-- A group may always be made at the tail of another one. -/
theorem gNew_safe_tail {it : MsgIter} {newGroupID target : Word}
    (h : it.At [.int newGroupID, .int 1#32, .int target]) : NodeMethod.gNew.Safe fpu w it := by
  have h₁ := h.advance_int
  have h₂ := h₁.advance_int
  apply whileSafe_once
  · intro id msg₁ addAction msg₂ t msg₃ hid haction _ hbeside
    rw [h.geti] at hid
    obtain rfl := congrArg Prod.snd (Option.some.inj hid)
    rw [h₁.geti] at haction
    obtain rfl := congrArg Prod.fst (Option.some.inj haction)
    rcases hbeside with hbeside | hbeside | hbeside <;> cases hbeside
  · intro w' it' hone
    unfold gNewOne at hone
    rw [h.geti] at hone
    simp only [Option.bind_eq_bind, Option.bind_some] at hone
    rw [h₁.geti] at hone
    simp only [Option.bind_some, if_neg (show ¬ 1#32 = 0#32 by decide), if_true] at hone
    rw [msgGetGroup_at h₂] at hone
    simp only [Option.bind_some] at hone
    obtain ⟨r, -, hone⟩ := Option.bind_eq_some_iff.mp hone
    obtain rfl := congrArg Prod.snd (Option.some.inj hone)
    exact h₂.advance_int

/-- The root is below no other node. -/
theorem mayEnter_root (h : IsTree w) (n : NodeID) : MayEnter w n 0#32 := by
  obtain ⟨kids, all, h⟩ := h
  by_cases hn : n = 0#32
  · exact .inl hn
  · right
    intro hwithin
    rcases hwithin.cases_head with heq | ⟨p, hparent, -⟩
    · exact hn heq.symm
    · rw [h.root.2.2] at hparent
      cases hparent

/-- Every node may move to the head of the root group. -/
theorem gHead_safe_root (htree : IsTree w) {it : MsgIter} {node : Word}
    (h : it.At [.int 0#32, .int node]) : NodeMethod.gHead.Safe fpu w it := by
  have h₁ := h.advance_int
  apply whileSafe_once
  · intro group msg₁ n msg₂ hgroup _
    rw [msgGetGroup_at h] at hgroup
    have hget : w.getGroup 0#32 = some group := congrArg Prod.fst (Option.some.inj hgroup)
    rw [getGroup_eq_some (by decide) htree.choose_spec.choose_spec.root.1
      htree.choose_spec.choose_spec.root.2.1] at hget
    obtain rfl := Option.some.inj hget
    exact mayEnter_root htree n
  · intro w' it' hone
    unfold gHeadOne gMoveOne at hone
    rw [msgGetGroup_at h] at hone
    simp only [Option.bind_eq_bind, Option.bind_some] at hone
    cases hgroup : w.getGroup 0#32 with
    | none =>
      rw [hgroup] at hone
      cases congrArg (·.1.2) (Option.some.inj hone)
    | some group =>
      rw [hgroup] at hone
      dsimp only at hone
      rw [msgGetNode_at h₁] at hone
      simp only [Option.bind_some] at hone
      cases hnode : w.getNode node with
      | none =>
        rw [hnode] at hone
        cases congrArg (·.1.2) (Option.some.inj hone)
      | some n =>
        rw [hnode] at hone
        obtain rfl := congrArg Prod.snd (Option.some.inj hone)
        exact h₁.advance_int

/-- The bytes of a message that the server's commands read. -/
def packetOf (name : String) (vs : List OSCValue) : List Byte :=
  ((OSCMessage.ofValues (.ofString name) vs).payload).getD []

theorem openMessage_packetOf (name : String) {vs : List OSCValue}
    (hvs : (tagString vs).length = vs.length) {msg : MsgIter}
    (hopen : openMessage (packetOf name vs) = some msg) : msg.At vs := by
  rcases openMessage_ofValues (.ofString name) vs hvs with ⟨packet, it, hp, hopen', hat, -⟩
  unfold packetOf at hopen
  rw [hp, Option.getD_some, hopen'] at hopen
  exact Option.some.inj hopen ▸ hat

/-- A group is made and moved to the head of the root group. -/
def groupToHead : List (List Byte) :=
  [packetOf "/g_new" [.int 1#32, .int 1#32, .int 0#32],
    packetOf "/g_head" [.int 0#32, .int 1#32]]

theorem groupToHead_safe (fpu : FloatUnit) (inOptions : WorldOptions) :
    PacketsSafe fpu (World.new inOptions []) groupToHead := by
  have hfirst : NodeMethod.ofPacket (packetOf "/g_new" [.int 1#32, .int 1#32, .int 0#32]) =
      some .gNew := by decide
  have hsecond : NodeMethod.ofPacket (packetOf "/g_head" [.int 0#32, .int 1#32]) =
      some .gHead := by decide
  have hnew : ∀ msg m, openMessage (packetOf "/g_new" [.int 1#32, .int 1#32, .int 0#32]) = some msg →
      NodeMethod.ofPacket (packetOf "/g_new" [.int 1#32, .int 1#32, .int 0#32]) = some m →
      m.Safe fpu (World.new inOptions []) msg := by
    intro msg m hopen hm
    rw [hfirst] at hm
    cases hm
    exact gNew_safe_tail (openMessage_packetOf _ rfl hopen)
  refine ⟨hnew, fun w err hrun => ⟨fun msg m hopen hm => ?_, fun _ _ _ => trivial⟩⟩
  rw [hsecond] at hm
  cases hm
  exact gHead_safe_root (performNodeMessage_kept (kept_new inOptions []) hnew hrun).tree
    (openMessage_packetOf _ rfl hopen)

theorem groupToHead_isSome :
    (performPackets ⟨fun _ => 0#32, fun _ => 0#32, fun _ => 0#32⟩
      (World.new kDefaultWorldOptions []) groupToHead).isSome := by
  decide

theorem performPackets_isTree_groupToHead :
    IsTree ((performPackets ⟨fun _ => 0#32, fun _ => 0#32, fun _ => 0#32⟩
      (World.new kDefaultWorldOptions []) groupToHead).get groupToHead_isSome) :=
  performPackets_isTree _ kDefaultWorldOptions [] groupToHead _ (groupToHead_safe _ _)
    (Option.some_get groupToHead_isSome).symm

/-! ## A group that is moved into itself -/

/-- `/g_new` of a group, and `/g_head` of that group into itself. -/
def groupIntoItself : List (List Byte) :=
  [packetOf "/g_new" [.int 1#32, .int 1#32, .int 0#32],
    packetOf "/g_head" [.int 1#32, .int 1#32]]

theorem groupIntoItself_isSome :
    (performPackets ⟨fun _ => 0#32, fun _ => 0#32, fun _ => 0#32⟩
      (World.new kDefaultWorldOptions []) groupIntoItself).isSome := by
  decide

/-- A node that is not the root is reached only if the root has a child. -/
theorem not_isTree_of_root_empty (hhead : (w.mNode 0#32).mHead = none) (hn : n ∈ w.mNodeLib)
    (hn0 : n ≠ 0#32) : ¬ IsTree w := by
  rintro ⟨kids, all, h⟩
  have hends := (h.ends 0#32 h.root.1 h.root.2.1).1
  rw [hhead] at hends
  have hkids : kids 0#32 = [] := List.head?_eq_none_iff.mp hends.symm
  rcases h.spans.root_or_kid ((h.registered n).mpr hn) with hroot | ⟨p, hp, hkid⟩
  · exact hn0 (List.mem_singleton.mp hroot)
  · have hleaf : Forest.Spans kids (kids 0#32) [] := by
      rw [hkids]
      exact .nil
    obtain rfl := h.spans.unique hleaf.singleton
    rw [List.mem_singleton.mp hp, hkids] at hkid
    cases hkid

/-- `/g_head 1 1` cuts group 1 off from the root. -/
theorem not_isTree_groupIntoItself :
    ¬ IsTree ((performPackets ⟨fun _ => 0#32, fun _ => 0#32, fun _ => 0#32⟩
      (World.new kDefaultWorldOptions []) groupIntoItself).get groupIntoItself_isSome) :=
  not_isTree_of_root_empty (n := 1#32) (by decide) (by decide) (by decide)

end PoopWorms.Server
