import PoopWorms.Server.RootGroup

/-!
# What a cycle leaves to the commands

Freeing nodes, done actions and the traversal change neither the counter of hidden IDs, nor the
node that `-1` stands for, nor the synth definitions.
-/

namespace PoopWorms.Server

open World

namespace World

/-- What `Node_New` goes by, beside the table. -/
structure SameCounters (w w' : World) : Prop where
  hidden : w'.mHiddenID = w.mHiddenID
  recent : w'.mRecentID = w.mRecentID
  maxNodes : w'.mMaxNodes = w.mMaxNodes
  graphDefs : w'.mGraphDefLib = w.mGraphDefLib

namespace SameCounters

variable {w w₁ w₂ : World} {n : NodeID}

theorem refl (w : World) : SameCounters w w := ⟨rfl, rfl, rfl, rfl⟩

theorem trans (h₁ : SameCounters w w₁) (h₂ : SameCounters w₁ w₂) : SameCounters w w₂ where
  hidden := h₂.hidden.trans h₁.hidden
  recent := h₂.recent.trans h₁.recent
  maxNodes := h₂.maxNodes.trans h₁.maxNodes
  graphDefs := h₂.graphDefs.trans h₁.graphDefs

theorem modify (w : World) (n : NodeID) (f : Node → Node) : SameCounters w (w.modify n f) :=
  ⟨rfl, rfl, rfl, rfl⟩

theorem linkNext (w : World) (prev group x : Option NodeID) :
    SameCounters w (w.linkNext prev group x) := by
  unfold World.linkNext
  split
  · exact modify ..
  · exact modify ..
  · exact refl w

theorem linkPrev (w : World) (next group x : Option NodeID) :
    SameCounters w (w.linkPrev next group x) := by
  unfold World.linkPrev
  split
  · exact modify ..
  · exact modify ..
  · exact refl w

theorem nodeRemove (w : World) (s : NodeID) : SameCounters w (w.nodeRemove s) := by
  unfold World.nodeRemove World.unlink
  exact ((linkNext ..).trans (linkPrev ..)).trans (modify ..)

end SameCounters

end World

namespace Engine

variable {e e' : Engine} {n s g : NodeID} {child : Option NodeID}

/-! ## Freeing -/

theorem counters_nodeRemove (he : e.nodeRemove s = some e') : SameCounters e.world e'.world := by
  obtain rfl := nodeRemove_some he
  exact .nodeRemove e.world s

theorem counters_nodeDtor (he : e.nodeDtor n = some e') : SameCounters e.world e'.world := by
  unfold Engine.nodeDtor at he
  simp only [Option.bind_eq_bind, Option.bind_eq_some_iff] at he
  obtain ⟨-, -, e₁, he₁, he⟩ := he
  obtain rfl := Option.some.inj he
  have h₁ := counters_nodeRemove he₁
  exact ⟨h₁.hidden, h₁.recent, h₁.maxNodes, h₁.graphDefs⟩

theorem counters_graphDtor (he : e.graphDtor n = some e') : SameCounters e.world e'.world :=
  counters_nodeDtor (e := e.modifyGraph n Graph.graphDtor) he

theorem counters_deleteFrom (fuel : ℕ) (he : deleteFrom fuel e child = some e') :
    SameCounters e.world e'.world := by
  induction fuel generalizing e child e' with
  | zero => cases he
  | succ fuel ih =>
    cases child with
    | none =>
      cases he
      exact .refl e.world
    | some child =>
      rw [Engine.deleteFrom] at he
      simp only [Option.bind_eq_bind, Option.bind_eq_some_iff] at he
      obtain ⟨node, -, e₁, hturn, he⟩ := he
      have hunlink : SameCounters e.world (e.world.unlink child) := .modify ..
      have hturn' : SameCounters (e.world.unlink child) e₁.world := by
        split_ifs at hturn
        · cases hturn
          exact .refl _
        · simp only [Option.bind_eq_some_iff] at hturn
          obtain ⟨e₂, hloop, hdtor⟩ := hturn
          have hbelow := ih hloop
          have hclear := counters_nodeDtor hdtor
          exact hbelow.trans ⟨hclear.hidden, hclear.recent, hclear.maxNodes, hclear.graphDefs⟩
        · exact counters_graphDtor hturn
      exact hunlink.trans (hturn'.trans (ih he))

theorem counters_groupDeleteAll (he : e.groupDeleteAll g = some e') :
    SameCounters e.world e'.world := by
  unfold Engine.groupDeleteAll at he
  simp only [Option.bind_eq_bind, Option.bind_eq_some_iff] at he
  obtain ⟨group, -, e₁, hloop, -, -, he⟩ := he
  obtain rfl := Option.some.inj he
  exact (counters_deleteFrom _ hloop).trans ⟨rfl, rfl, rfl, rfl⟩

theorem counters_nodeDelete (he : e.nodeDelete n = some e') : SameCounters e.world e'.world := by
  unfold Engine.nodeDelete at he
  simp only [Option.bind_eq_bind, Option.bind_eq_some_iff] at he
  obtain ⟨node, -, he⟩ := he
  split_ifs at he
  · cases he
    exact .refl e.world
  · simp only [Option.bind_eq_some_iff] at he
    obtain ⟨e₁, hdelete, hdtor⟩ := he
    exact (counters_groupDeleteAll hdelete).trans (counters_nodeDtor hdtor)
  · exact counters_graphDtor he

theorem counters_deepFreeFrom (fuel : ℕ) (he : deepFreeFrom fuel e child = some e') :
    SameCounters e.world e'.world := by
  induction fuel generalizing e child e' with
  | zero => cases he
  | succ fuel ih =>
    cases child with
    | none =>
      cases he
      exact .refl e.world
    | some child =>
      rw [Engine.deepFreeFrom] at he
      simp only [Option.bind_eq_bind, Option.bind_eq_some_iff] at he
      obtain ⟨node, -, e₁, hturn, he⟩ := he
      have hturn' : SameCounters e.world e₁.world := by
        split_ifs at hturn
        · exact ih hturn
        · simp only [Option.bind_eq_some_iff] at hturn
          obtain ⟨e₂, hremove, hdelete⟩ := hturn
          exact (counters_nodeRemove hremove).trans (counters_nodeDelete hdelete)
      exact hturn'.trans (ih he)

theorem counters_groupDeepFreeGraphs (he : e.groupDeepFreeGraphs g = some e') :
    SameCounters e.world e'.world := by
  unfold Engine.groupDeepFreeGraphs at he
  simp only [Option.bind_eq_bind, Option.bind_eq_some_iff] at he
  obtain ⟨group, -, he⟩ := he
  exact counters_deepFreeFrom _ he

/-! ## Done actions -/

theorem counters_nodeSetRun {run : Octets.Word} (he : e.nodeSetRun n run = some e') :
    SameCounters e.world e'.world := by
  unfold Engine.nodeSetRun at he
  simp only [Option.bind_eq_bind, Option.bind_eq_some_iff] at he
  obtain ⟨node, -, -, -, he⟩ := he
  obtain rfl := Option.some.inj he
  split_ifs
  · exact .refl e.world
  · exact .refl e.world

theorem counters_nodeEnd (he : e.nodeEnd n = some e') : SameCounters e.world e'.world := by
  unfold Engine.nodeEnd at he
  simp only [Option.bind_eq_bind, Option.bind_eq_some_iff] at he
  obtain ⟨node, -, he⟩ := he
  obtain rfl := Option.some.inj he
  exact .refl e.world

theorem counters_endFrom {dir : Node → Option NodeID} (fuel : ℕ)
    (he : endFrom dir fuel e child = some e') : SameCounters e.world e'.world := by
  induction fuel generalizing e child with
  | zero => cases he
  | succ fuel ih =>
    cases child with
    | none =>
      cases he
      exact .refl _
    | some n =>
      rw [Engine.endFrom] at he
      simp only [Option.bind_eq_bind, Option.bind_eq_some_iff] at he
      obtain ⟨node, -, e₁, hend, he⟩ := he
      exact (counters_nodeEnd hend).trans (ih he)

theorem counters_groupOrEnd {onGroup : Engine → NodeID → Option Engine}
    (hgroup : ∀ {e' : Engine}, onGroup e n = some e' → SameCounters e.world e'.world)
    (he : groupOrEnd onGroup e n = some e') : SameCounters e.world e'.world := by
  unfold groupOrEnd at he
  simp only [Option.bind_eq_bind, Option.bind_eq_some_iff] at he
  obtain ⟨node, -, he⟩ := he
  split_ifs at he
  · exact hgroup he
  · exact counters_nodeEnd he

theorem counters_unitDoneAction {doneAction : ℕ} (he : e.unitDoneAction s doneAction = some e') :
    SameCounters e.world e'.world := by
  unfold Engine.unitDoneAction at he
  simp only [Option.bind_eq_bind, Option.bind_eq_some_iff] at he
  obtain ⟨node, -, he⟩ := he
  -- the synth is ended, and then something happens to a neighbour
  have hthen : ∀ {side : Option NodeID} {f : Engine → NodeID → Option Engine},
      (∀ {e : Engine} {n : NodeID} {e' : Engine}, f e n = some e' →
        SameCounters e.world e'.world) →
      ((e.nodeEnd s).bind fun e => e.forSome side f) = some e' → SameCounters e.world e'.world := by
    intro side f hf hboth
    rw [Option.bind_eq_some_iff] at hboth
    obtain ⟨e₁, hend, he⟩ := hboth
    apply (counters_nodeEnd hend).trans
    unfold forSome at he
    split at he
    · exact hf he
    · cases he
      exact .refl _
  split at he
  · exact counters_nodeSetRun he
  · exact counters_nodeEnd he
  · exact hthen counters_nodeEnd he
  · exact hthen counters_nodeEnd he
  · exact hthen (counters_groupOrEnd counters_groupDeleteAll) he
  · exact hthen (counters_groupOrEnd counters_groupDeleteAll) he
  · exact counters_endFrom _ he
  · exact counters_endFrom _ he
  · exact hthen counters_nodeSetRun he
  · exact hthen counters_nodeSetRun he
  · exact hthen (counters_groupOrEnd counters_groupDeepFreeGraphs) he
  · exact hthen (counters_groupOrEnd counters_groupDeepFreeGraphs) he
  · simp only [Option.bind_eq_some_iff] at he
    obtain ⟨parent, -, group, -, he⟩ := he
    exact counters_endFrom _ he
  · simp only [Option.bind_eq_some_iff] at he
    obtain ⟨parent, -, he⟩ := he
    exact counters_nodeEnd he
  · cases he
    exact .refl e.world

theorem counters_doneActions (fires : List ℕ) (he : e.doneActions s fires = some e') :
    SameCounters e.world e'.world := by
  induction fires generalizing e with
  | nil =>
    cases he
    exact .refl _
  | cons doneAction fires ih =>
    rw [Engine.doneActions] at he
    simp only [Option.bind_eq_bind, Option.bind_eq_some_iff] at he
    obtain ⟨e₁, hfire, he⟩ := he
    exact (counters_unitDoneAction hfire).trans (ih he)

/-! ## The traversal -/

theorem counters_callNode (he : e.callNode n = some e') : SameCounters e.world e'.world := by
  unfold Engine.callNode at he
  simp only [Option.bind_eq_bind, Option.bind_eq_some_iff] at he
  obtain ⟨node, -, he⟩ := he
  rw [← noteCall_world e n]
  split at he
  · cases he
    exact .refl _
  · exact counters_nodeDelete he
  all_goals
    cases he
    exact .refl _

theorem counters_finish {f : NodeCalcFunc} (he : e.finish f n = some e') :
    SameCounters e.world e'.world := by
  unfold Engine.finish at he
  split at he
  · simp only [Option.map_eq_some_iff] at he
    obtain ⟨-, -, rfl⟩ := he
    exact .refl e.world
  · cases he
    exact .refl e.world

theorem counters_step {fires : List ℕ} (he : e.step fires = some e') :
    SameCounters e.world e'.world := by
  unfold Engine.step at he
  split at he
  · cases he
    exact .refl e.world
  · simp only [Option.bind_eq_bind, Option.bind_eq_some_iff] at he
    obtain ⟨-, -, he⟩ := he
    have h₁ := counters_doneActions _ he
    exact h₁
  · simp only [Option.bind_eq_bind, Option.bind_eq_some_iff] at he
    obtain ⟨e₁, hfinish, he⟩ := he
    have h₁ := counters_finish hfinish
    obtain rfl := Option.some.inj he
    split_ifs
    · exact h₁
    · exact h₁
  · simp only [Option.bind_eq_bind, Option.bind_eq_some_iff] at he
    obtain ⟨node, -, he⟩ := he
    have h₁ := counters_callNode he
    split_ifs at h₁
    · exact h₁
    · exact h₁
  · have h₁ := counters_finish he
    exact h₁

end Engine

end PoopWorms.Server
