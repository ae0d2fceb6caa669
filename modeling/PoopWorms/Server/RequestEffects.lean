import PoopWorms.Server.EngineCounters
import PoopWorms.Server.NodeRuns
import PoopWorms.Server.Standing
import PoopWorms.Server.Traversal

/-!
# What a request does

`Outcome` lists what a request can come to. A request that moves no node below itself has a
result, which is such an outcome, and leaves nodes that stand in lists.
-/

namespace PoopWorms.Server

open Octets Forest LinkedList World

namespace Engine

variable {e e' e₀ : Engine} {kids : NodeID → List NodeID} {g n s t : NodeID} {r : Request}
  {F b l₁ l₂ : List NodeID} {w w' : World}

/-! ## Changes -/

/-- The nodes that a request frees, if it frees any. -/
def frees (e : Engine) : Request → NodeID → Prop
  | .nFree node, n => ∃ y, e.world.getNode node = some y ∧ e.world.Within y n
  | .gFreeAll group, n => ∃ y, e.world.getGroup group = some y ∧ e.world.Within y n
  | .gDeepFree group, n => ∃ y, e.world.getGroup group = some y ∧ e.world.Within y n
  | .sNew _ _ addAction target _ _, n =>
    addAction = 4#32 ∧ ∃ y, e.world.addTarget addAction target = some y ∧ e.world.Within y n
  | .gNew _ addAction target, n =>
    addAction = 4#32 ∧ ∃ y, e.world.addTarget addAction target = some y ∧ e.world.Within y n
  | _, _ => False

/-- The node that a request pauses. -/
def pauses (e : Engine) : Request → NodeID → Prop
  | .nRun node run, n => run = 0 ∧ e.world.getNode node = some n
  | _, _ => False

/-- Only the pointers, and the counters of the world, are others. -/
def Relinked (e e' : Engine) : Prop :=
  ∃ w, e' = e.withWorld w ∧ w.mNodeLib = e.world.mNodeLib ∧
    ∀ n, (w.mNode n).mIsGroup = (e.world.mNode n).mIsGroup

/-- There is a new node, with no unit called yet. -/
structure Made (e : Engine) (s : NodeID) (g : Graph) (e' : Engine) : Prop where
  fresh : s ∉ e.world.mNodeLib
  table : e'.world.mNodeLib = insert s e.world.mNodeLib
  group : ∀ n ≠ s, (e'.world.mNode n).mIsGroup = (e.world.mNode n).mIsGroup
  kind : g = groupGraph ∧ (e'.world.mNode s).mIsGroup = true ∨
    (∃ mNumUnits mCalcUnits, g = .new mNumUnits mCalcUnits) ∧ (e'.world.mNode s).mIsGroup = false
  graph : e'.graph = Function.update e.graph s g
  stack : e'.stack = e.stack
  log : e'.log = e.log

/-- What a request can come to. -/
inductive Outcome (e : Engine) (r : Request) : Engine → Prop
  | relinked {e' : Engine} (hrelinked : Relinked e e') : Outcome e r e'
  | made {s : NodeID} {g : Graph} {e' : Engine} (hmade : Made e s g e') : Outcome e r e'
  /-- a new node takes the place of others -/
  | replaced {s : NodeID} {g : Graph} {e₁ : Engine} {F : List NodeID} {e' : Engine}
      (hmade : Made e s g e₁) (hfreed : Freed e₁ F e')
      (hF : ∀ n ∈ F, n ≠ s ∧ n ∈ e.world.mNodeLib ∧ n ≠ 0#32 ∧ e.frees r n) : Outcome e r e'
  | freed {F : List NodeID} {e' : Engine} (hfreed : Freed e F e')
      (hF : ∀ n ∈ F, n ∈ e.world.mNodeLib ∧ n ≠ 0#32 ∧ e.frees r n) : Outcome e r e'
  /-- a paused node runs again, or a node that runs is traced or dumped -/
  | calcFunc {n : NodeID} {f : NodeCalcFunc} (hn : n ∈ e.world.mNodeLib)
      (hf : f.fits (e.world.mNode n).mIsGroup)
      (hold : (e.graph n).mCalcFunc = f ∨ (e.graph n).mCalcFunc = .nodeNullCalc ∧
          (f = .groupCalc ∨ f = .graphCalc) ∨
        (e.graph n).mCalcFunc = .graphCalc ∧ f = .graphCalcTrace ∨
        (e.graph n).mCalcFunc = .groupCalc ∧
          (f = .groupCalcTrace ∨ f = .groupCalcDumpTree ∨ f = .groupCalcDumpTreeAndControls)) :
      Outcome e r (e.setCalcFunc n f)
  | paused {n : NodeID} (hn : n ∈ e.world.mNodeLib) (hpauses : e.pauses r n) :
      Outcome e r (e.pause n)

/-- Nodes that stand in lists, each with a calc function of its kind, and no loop in progress. -/
structure Idle (e : Engine) (kids : NodeID → List NodeID) : Prop extends Standing e.world kids where
  idle : e.stack = []
  kinds : ∀ n ∈ e.world.mNodeLib, (e.graph n).mCalcFunc.fits (e.world.mNode n).mIsGroup

theorem idle_new (inOptions : WorldOptions) (graphDefs : List (List Byte)) :
    Idle (new inOptions graphDefs) fun _ => [] where
  toStanding := standing_new inOptions graphDefs
  idle := rfl
  kinds _ _ := rfl

section Kinds

variable (hkinds : ∀ n ∈ e.world.mNodeLib, (e.graph n).mCalcFunc.fits (e.world.mNode n).mIsGroup)

include hkinds

theorem Made.kinds {graph : Graph} (h : Made e s graph e') :
    ∀ n ∈ e'.world.mNodeLib, (e'.graph n).mCalcFunc.fits (e'.world.mNode n).mIsGroup := by
  intro n hn
  rw [h.graph]
  by_cases hns : n = s
  · rw [hns, Function.update_self]
    rcases h.kind with ⟨rfl, hs⟩ | ⟨⟨mNumUnits, mCalcUnits, rfl⟩, hs⟩
    · rw [hs]
      rfl
    · rw [hs]
      rfl
  · rw [h.table] at hn
    rw [Function.update_of_ne hns, h.group n hns]
    exact hkinds n ((Finset.mem_insert.mp hn).resolve_left hns)

theorem kinds_setCalcFunc {f : NodeCalcFunc} (hf : f.fits (e.world.mNode n).mIsGroup) :
    ∀ m ∈ e.world.mNodeLib, ((e.setCalcFunc n f).graph m).mCalcFunc.fits (e.world.mNode m).mIsGroup := by
  intro m hm
  by_cases hmn : m = n
  · rw [hmn, setCalcFunc_self]
    exact hf
  · rw [setCalcFunc_of_ne e hmn]
    exact hkinds m hm

omit hkinds in
theorem kinds_freed (h : Freed e F e')
    (hkinds : ∀ n ∈ e.world.mNodeLib, (e.graph n).mCalcFunc.fits (e.world.mNode n).mIsGroup) :
    ∀ n ∈ e'.world.mNodeLib, (e'.graph n).mCalcFunc.fits (e'.world.mNode n).mIsGroup := by
  intro n hn
  obtain ⟨hn, hnF⟩ := (h.table n).mp hn
  rw [h.kept n hnF, h.group n]
  exact hkinds n hn

/-- A request starts no loop, and leaves calc functions of their kind. -/
theorem Outcome.kinds (h : Outcome e r e') : e'.stack = e.stack ∧
    ∀ n ∈ e'.world.mNodeLib, (e'.graph n).mCalcFunc.fits (e'.world.mNode n).mIsGroup := by
  cases h with
  | relinked hrelinked =>
    obtain ⟨w, rfl, htable, hgroup⟩ := hrelinked
    refine ⟨rfl, fun n hn => ?_⟩
    show (e.graph n).mCalcFunc.fits (w.mNode n).mIsGroup
    rw [hgroup n]
    exact hkinds n (htable ▸ hn)
  | made hmade => exact ⟨hmade.stack, hmade.kinds hkinds⟩
  | replaced hmade hfreed _ =>
    exact ⟨hfreed.stack.trans hmade.stack, kinds_freed hfreed (hmade.kinds hkinds)⟩
  | freed hfreed _ => exact ⟨hfreed.stack, kinds_freed hfreed hkinds⟩
  | calcFunc _ hf _ => exact ⟨rfl, kinds_setCalcFunc hkinds hf⟩
  | paused hn _ => exact ⟨rfl, kinds_setCalcFunc hkinds (fits_setRun (hkinds _ hn) 0)⟩

end Kinds

/-! ## Freeing -/

/-- What is freed leaves the lists, with all below it. -/
theorem standing_freed (h : Standing e.world kids) (hlisted : Listed e'.world (without kids F))
    (hcounters : SameCounters e.world e'.world) :
    Standing e'.world (without kids F) where
  toListed := hlisted
  ranked := h.ranked.without F
  hidden := hcounters.hidden.symm ▸ h.hidden

theorem within_below (h : Standing e.world kids) (hb : Spans kids (kids s) b) (hn : n ∈ s :: b)
    (hs : s ∈ e.world.mNodeLib) : n ∈ e.world.mNodeLib ∧ e.world.Within s n := by
  have hnlib : n ∈ e.world.mNodeLib := by
    rcases List.mem_cons.mp hn with rfl | hnb
    · exact hs
    · exact (h.toTree.mem_of_below hb hnb).1
  exact ⟨hnlib, (h.toTree.within_iff hb hnlib).mpr hn⟩

theorem ne_root_of_below (h : Standing e.world kids) (hb : Spans kids (kids s) b) (hn : n ∈ b) :
    n ≠ 0#32 := (h.toTree.mem_of_below hb hn).2

theorem nodeDelete_standing (h : Standing e.world kids) (hs : s ∈ e.world.mNodeLib)
    (hb : Spans kids (kids s) b) :
    ∃ e' kids', e.nodeDelete s = some e' ∧ Standing e'.world kids' ∧
      ∃ F, Freed e F e' ∧ ∀ n ∈ F, n ≠ 0#32 ∧ n ∈ s :: b := by
  by_cases hs0 : s = 0#32
  · subst hs0
    refine ⟨e, kids, ?_, h, [], .refl e, fun _ hn => absurd hn List.not_mem_nil⟩
    unfold Engine.nodeDelete
    rw [touch_eq hs]
    rfl
  · obtain ⟨e', hdelete, hfreed, hlisted⟩ := nodeDelete_freed h.toListed hs hs0 hb
    refine ⟨e', _, hdelete, standing_freed h hlisted (counters_nodeDelete hdelete), _, hfreed,
      fun n hn => ⟨?_, hn⟩⟩
    rcases List.mem_cons.mp hn with rfl | hn
    · exact hs0
    · exact ne_root_of_below h hb hn

theorem groupDeleteAll_standing (h : Standing e.world kids) (hg : g ∈ e.world.mNodeLib)
    (hgroup : (e.world.mNode g).mIsGroup) :
    ∃ e' kids', e.groupDeleteAll g = some e' ∧ Standing e'.world kids' ∧
      ∃ F, Freed e F e' ∧ ∀ n ∈ F, n ∈ e.world.mNodeLib ∧ n ≠ 0#32 ∧ e.world.Within g n := by
  obtain ⟨b, hb⟩ := h.exists_below g
  obtain ⟨e', hdelete, hfreed, hlisted⟩ := groupDeleteAll_freed h.toListed hg hgroup hb
  refine ⟨e', _, hdelete, standing_freed h hlisted (counters_groupDeleteAll hdelete), _, hfreed,
    fun n hn => ?_⟩
  obtain ⟨hnlib, hwithin⟩ := within_below h hb (List.mem_cons_of_mem _ hn) hg
  exact ⟨hnlib, ne_root_of_below h hb hn, hwithin⟩

theorem groupDeepFreeGraphs_standing (h : Standing e.world kids) (hg : g ∈ e.world.mNodeLib)
    (hgroup : (e.world.mNode g).mIsGroup) :
    ∃ e' kids', e.groupDeepFreeGraphs g = some e' ∧ Standing e'.world kids' ∧
      ∃ F, Freed e F e' ∧ ∀ n ∈ F, n ∈ e.world.mNodeLib ∧ n ≠ 0#32 ∧ e.world.Within g n := by
  obtain ⟨b, hb⟩ := h.exists_below g
  obtain ⟨e', hdelete, hfreed, hlisted⟩ := groupDeepFreeGraphs_freed h.toListed hg hgroup hb
  refine ⟨e', _, hdelete, standing_freed h hlisted (counters_groupDeepFreeGraphs hdelete), _, hfreed,
    fun n hn => ?_⟩
  have hnb := List.mem_of_mem_filter hn
  obtain ⟨hnlib, hwithin⟩ := within_below h hb (List.mem_cons_of_mem _ hnb) hg
  exact ⟨hnlib, ne_root_of_below h hb hnb, hwithin⟩

/-! ## New nodes -/

theorem relinked_standing (hplaced : ∃ kids', Standing w kids') (hsame : SameTable e.world w) :
    ∃ e' kids', some (e.withWorld w) = some e' ∧ Standing e'.world kids' ∧ Relinked e e' := by
  obtain ⟨kids', h'⟩ := hplaced
  exact ⟨_, kids', rfl, h', w, rfl, hsame.table, hsame.group⟩

/-- A node that was made, and stands beside the others so far. -/
structure Unplaced (e : Engine) (kids : NodeID → List NodeID) (s : NodeID) : Prop extends
    Standing e.world kids where
  live : s ∈ e.world.mNodeLib
  noRoot : s ≠ 0#32
  unlinked : (e.world.mNode s).mParent = none
  leaf : kids s = []

namespace Unplaced

variable (h : Unplaced e kids s)

include h

/-- Nothing is below the node. -/
theorem not_within (hn : n ∈ e.world.mNodeLib) (hns : n ≠ s) : ¬ e.world.Within s n := by
  have hb : Spans kids (kids s) [] := by
    rw [h.leaf]
    exact .nil
  rw [h.toTree.within_iff hb hn, List.mem_singleton]
  exact hns

/-- The node takes the place of another one. -/
theorem nodeReplace (ht : t ∈ e.world.mNodeLib) (hts : t ≠ s) :
    ∃ e' kids', e.nodeReplace s t = some e' ∧ Standing e'.world kids' ∧ ∃ F, Freed e F e' ∧
      ∀ n ∈ F, n ≠ s ∧ n ∈ e.world.mNodeLib ∧ n ≠ 0#32 ∧ e.world.Within t n := by
  unfold Engine.nodeReplace
  rcases h.cut_or_unlinked ht with ⟨g, l₁, l₂, hkids⟩ | ⟨hparent, -⟩
  · obtain ⟨hparent, -, -⟩ := h.toTree.neighbours hkids
    obtain ⟨hg, hgroup⟩ := h.group g (by simp [hkids])
    have hgs : g ≠ s := by
      rintro rfl
      rw [h.leaf] at hkids
      simp at hkids
    have hlinks := replaceLinks_eq h.toTree hkids h.unlinked
    dsimp only at hlinks ⊢
    rw [hparent]
    simp only [if_neg h.noRoot]
    rw [hlinks]
    -- the replaced node leaves the list, and the node joins it
    obtain ⟨b, hb⟩ := h.exists_below t
    have hgb : g ∉ t :: b := by
      rw [List.mem_cons, not_or]
      constructor
      · rintro rfl
        exact hb.notMem_below (hb.mem_of_root (by simp [hkids]))
      · exact fun hmem => hb.notMem_below (hb.mem_of_kid hmem (by simp [hkids]))
    have hplace : Function.update kids g (l₁ ++ l₂) g = l₁ ++ l₂ := Function.update_self ..
    have hlisted := (h.toListed.eraseAt hkids).insertAt (s := s) hg hgroup h.live h.noRoot
      (by simp [World.eraseAt, h.unlinked]) hplace
    rw [Function.update_idem] at hlisted
    have hranked : Ranked (Function.update kids g (l₁ ++ s :: l₂)) := by
      apply h.ranked.insert (g := g) (s := s)
      · intro p x hx
        by_cases hp : p = g
        · subst hp
          rw [Function.update_self, List.perm_middle.mem_iff, List.mem_cons] at hx
          rcases hx with rfl | hx
          · exact .inr ⟨rfl, rfl⟩
          · left
            rw [hkids, List.perm_middle.mem_iff]
            exact List.mem_cons_of_mem _ hx
        · rw [Function.update_of_ne hp] at hx
          exact .inl hx
      · exact mt h.within_of_path (h.not_within hg hgs)
    have h' : Standing (e.withWorld ((e.world.eraseAt g t l₁ l₂).insertAt g s l₁ l₂)).world
        (Function.update kids g (l₁ ++ s :: l₂)) := ⟨hlisted, hranked, h.hidden⟩
    have hb' : Spans (Function.update kids g (l₁ ++ s :: l₂))
        (Function.update kids g (l₁ ++ s :: l₂) t) b := by
      rw [List.mem_cons, not_or] at hgb
      rw [Function.update_of_ne (Ne.symm hgb.1)]
      exact hb.congr_update hgb.2 _
    have ht' : t ∈ (e.withWorld ((e.world.eraseAt g t l₁ l₂).insertAt g s l₁ l₂)).world.mNodeLib := ht
    obtain ⟨e', kids', hdelete, hstanding, F, hfreed, hF⟩ := nodeDelete_standing h' ht' hb'
    refine ⟨e', kids', hdelete, hstanding, F, Freed.of_world hfreed rfl fun _ => rfl, fun n hn => ?_⟩
    obtain ⟨hn0, hnb⟩ := hF n hn
    obtain ⟨hnlib, hwithin⟩ := within_below h.toStanding hb hnb ht
    refine ⟨?_, hnlib, hn0, hwithin⟩
    rintro rfl
    -- the new node is in no list
    rcases List.mem_cons.mp hnb with heq | hnb
    · exact hts heq.symm
    · obtain ⟨y, -, hkid⟩ := hb.exists_parent hnb
      exact h.toTree.notMem h.unlinked y hkid
  · rw [hparent]
    exact ⟨e, kids, rfl, h.toStanding, [], .refl e, fun _ hn => absurd hn List.not_mem_nil⟩

/-- The node gets its place. -/
theorem place {addAction : Word} (ht : t ∈ e.world.mNodeLib) (hts : t ≠ s)
    (hgroup : addAction = 0#32 ∨ addAction = 1#32 → (e.world.mNode t).mIsGroup)
    (haction : addAction = 0#32 ∨ addAction = 1#32 ∨ addAction = 2#32 ∨ addAction = 3#32 ∨
      addAction = 4#32) :
    ∃ e' kids', e.place addAction t s = some e' ∧ Standing e'.world kids' ∧
      (Relinked e e' ∨ addAction = 4#32 ∧ ∃ F, Freed e F e' ∧
        ∀ n ∈ F, n ≠ s ∧ n ∈ e.world.mNodeLib ∧ n ≠ 0#32 ∧ e.world.Within t n) := by
  have hup := h.not_within ht hts
  have hsame := sameTable_refl e.world
  have hplaced : ∀ {w : World}, (∃ kids', Standing w kids') → SameTable e.world w →
      ∃ e' kids', some (e.withWorld w) = some e' ∧ Standing e'.world kids' ∧
        (Relinked e e' ∨ addAction = 4#32 ∧ ∃ F, Freed e F e' ∧
          ∀ n ∈ F, n ≠ s ∧ n ∈ e.world.mNodeLib ∧ n ≠ 0#32 ∧ e.world.Within t n) := by
    intro w hw hsame
    obtain ⟨e', kids', heq, hstanding, hrelinked⟩ := relinked_standing hw hsame
    exact ⟨e', kids', heq, hstanding, .inl hrelinked⟩
  unfold Engine.place
  split_ifs with h0 h1 h2 h3
  · exact hplaced (h.groupAddHead h.live h.noRoot h.unlinked ht (hgroup (.inl h0)) hup)
      (hsame.groupAddHead t s)
  · exact hplaced (h.groupAddTail h.live h.noRoot h.unlinked ht (hgroup (.inr h1)) hup)
      (hsame.groupAddTail t s)
  · exact hplaced (h.nodeAddBefore h.live h.noRoot h.unlinked ht fun _ => hup)
      (hsame.nodeAddBefore s t)
  · exact hplaced (h.nodeAddAfter h.live h.noRoot h.unlinked ht fun _ => hup)
      (hsame.nodeAddAfter s t)
  · obtain ⟨e', kids', heq, hstanding, hfreed⟩ := h.nodeReplace ht hts
    exact ⟨e', kids', heq, hstanding, .inr ⟨by tauto, hfreed⟩⟩

end Unplaced

/-- The target that an add action goes by. -/
theorem getGroup_mem {group : NodeID} (hget : w.getGroup group = some g) :
    w.getNode group = some g ∧ g ∈ w.mNodeLib ∧ (w.mNode g).mIsGroup = true := by
  unfold World.getGroup at hget
  split at hget
  · rename_i node hnode
    split_ifs at hget with hgroup
    obtain rfl := Option.some.inj hget
    exact ⟨hnode, getNode_mem hnode, hgroup⟩
  · cases hget

theorem addTarget_some {addAction : Word} {target : NodeID}
    (ht : w.addTarget addAction target = some t) :
    t ∈ w.mNodeLib ∧ (addAction = 0#32 ∨ addAction = 1#32 → (w.mNode t).mIsGroup) ∧
      (addAction = 0#32 ∨ addAction = 1#32 ∨ addAction = 2#32 ∨ addAction = 3#32 ∨
        addAction = 4#32) := by
  unfold World.addTarget at ht
  split_ifs at ht with h01 h234
  · obtain ⟨-, hmem, hgroup⟩ := getGroup_mem ht
    refine ⟨hmem, fun _ => hgroup, ?_⟩
    tauto
  · refine ⟨getNode_mem ht, fun h => absurd h h01, ?_⟩
    tauto

/-- The engine with a new node, which is in no list yet. -/
def withNew (e : Engine) (hidden s : NodeID) (mDef : List Byte) (mIsGroup : Bool) (graph : Graph) :
    Engine where
  world := ({ e.world with mHiddenID := hidden } : World).register s mDef mIsGroup
  graph := Function.update e.graph s graph
  stack := e.stack
  log := e.log

section WithNew

variable {hidden : NodeID} {mDef : List Byte} {mIsGroup : Bool} {graph : Graph}

theorem withNew_self : (e.withNew hidden s mDef mIsGroup graph).world.mNode s =
    ⟨mDef, mIsGroup, none, none, none, none, none⟩ := Function.update_self ..

theorem withNew_of_ne (hn : n ≠ s) :
    (e.withNew hidden s mDef mIsGroup graph).world.mNode n = e.world.mNode n :=
  Function.update_of_ne hn ..

theorem withNew_unplaced (h : Standing e.world kids) (hhidden : hidden.toNat % 8 = 0)
    (hs : s ∉ e.world.mNodeLib) : Unplaced (e.withNew hidden s mDef mIsGroup graph) kids s := by
  refine ⟨(h.withHidden hhidden).register hs mDef mIsGroup, Finset.mem_insert_self .., h.ne_root hs,
    ?_, h.toTree.kids_eq_nil hs⟩
  rw [withNew_self]

/-- The new node has no parent, so nothing new is above the others. -/
theorem within_withNew (hwithin : (e.withNew hidden s mDef mIsGroup graph).world.Within t n) :
    e.world.Within t n := by
  apply hwithin.lift id
  intro x y hx
  have hxs : x ≠ s := by
    rintro rfl
    rw [withNew_self] at hx
    cases hx
  rwa [withNew_of_ne hxs] at hx

end WithNew

theorem withNew_made {hidden : NodeID} {mDef : List Byte} {mIsGroup : Bool} {graph : Graph}
    (hs : s ∉ e.world.mNodeLib) (hgraph : graph = groupGraph ∧ mIsGroup = true ∨
      (∃ mNumUnits mCalcUnits, graph = .new mNumUnits mCalcUnits) ∧ mIsGroup = false) :
    Made e s graph (e.withNew hidden s mDef mIsGroup graph) := by
  refine ⟨hs, rfl, fun n hn => ?_, ?_, rfl, rfl, rfl⟩
  · rw [withNew_of_ne hn]
  · rw [withNew_self]
    exact hgraph

theorem Made.relinked {e₁ : Engine} {graph : Graph} (h : Made e s graph e₁)
    (hrelinked : Relinked e₁ e') : Made e s graph e' := by
  obtain ⟨w, rfl, htable, hgroup⟩ := hrelinked
  refine ⟨h.fresh, htable.trans h.table, fun n hn => (hgroup n).trans (h.group n hn), ?_, h.graph,
    h.stack, h.log⟩
  show graph = groupGraph ∧ (w.mNode s).mIsGroup = true ∨ _ ∧ (w.mNode s).mIsGroup = false
  rw [hgroup s]
  exact h.kind

/-- A node that could be made gets its place, and an error leaves the nodes alone. -/
theorem placeNew_outcome (h : Standing e.world kids) {addAction : Word} {target : NodeID}
    {mDef : List Byte} {mIsGroup : Bool} {graph : Graph}
    {made : Except (SCErr × World) (World × NodeID)}
    (hmade : (∃ hidden n, hidden.toNat % 8 = 0 ∧ n ∉ e.world.mNodeLib ∧
        made = .ok ({ e.world with mHiddenID := hidden }.register n mDef mIsGroup, n)) ∨
      ∃ err hidden, hidden.toNat % 8 = 0 ∧
        made = .error (err, { e.world with mHiddenID := hidden }))
    (hgraph : graph = groupGraph ∧ mIsGroup = true ∨
      (∃ mNumUnits mCalcUnits, graph = .new mNumUnits mCalcUnits) ∧ mIsGroup = false)
    (ht : e.world.addTarget addAction target = some t)
    (hfrees : addAction = 4#32 → ∀ n, e.world.Within t n → e.frees r n) :
    ∃ e' kids', e.placeNew made graph addAction t = some e' ∧ Standing e'.world kids' ∧
      Outcome e r e' := by
  obtain ⟨htlib, htgroup, haction⟩ := addTarget_some ht
  rcases hmade with ⟨hidden, s, hhidden, hs, rfl⟩ | ⟨err, hidden, hhidden, rfl⟩
  · have hts : t ≠ s := by
      rintro rfl
      exact hs htlib
    have hmade : Made e s graph (e.withNew hidden s mDef mIsGroup graph) :=
      withNew_made hs hgraph
    obtain ⟨e', kids', hplace, hstanding, hrelinked | ⟨h4, F, hfreed, hF⟩⟩ :=
      (withNew_unplaced h hhidden hs : Unplaced (e.withNew hidden s mDef mIsGroup graph) kids s).place
        (Finset.mem_insert_of_mem htlib) hts
        (fun h01 => by rw [withNew_of_ne hts]; exact htgroup h01) haction
    · exact ⟨e', kids', hplace, hstanding, .made (hmade.relinked hrelinked)⟩
    · refine ⟨e', kids', hplace, hstanding, .replaced hmade hfreed fun n hn => ?_⟩
      obtain ⟨hns, hnlib, hn0, hwithin⟩ := hF n hn
      exact ⟨hns, (Finset.mem_insert.mp hnlib).resolve_left hns, hn0,
        hfrees h4 n (within_withNew hwithin)⟩
  · exact ⟨_, kids, rfl, h.withHidden hhidden, .relinked ⟨_, rfl, rfl, fun _ => rfl⟩⟩

/-! ## Requests -/

/-- No node is moved below itself, and `/g_new` with an ID that is taken names no target without a
parent, for which the server follows a null pointer. -/
def RequestSafe (e : Engine) : Request → Prop
  | .nBefore node target => ∀ s t, e.world.getNode node = some s → e.world.getNode target = some t →
    t = s ∨ e.world.MayMove s t
  | .nAfter node target => ∀ s t, e.world.getNode node = some s → e.world.getNode target = some t →
    t = s ∨ e.world.MayMove s t
  | .gHead group node => ∀ g s, e.world.getGroup group = some g → e.world.getNode node = some s →
    e.world.MayMove s g
  | .gTail group node => ∀ g s, e.world.getGroup group = some g → e.world.getNode node = some s →
    e.world.MayMove s g
  | .gNew nodeID addAction target => ∀ t w, e.world.addTarget addAction target = some t →
    e.world.groupNew nodeID = .error (.duplicateNodeID, w) →
    (e.gNewTaken nodeID addAction t).isSome
  | _ => True

theorem nodeSetRun_of_ne_zero (hn : n ∈ e.world.mNodeLib) (hsides : Sides e.world n) {run : Word}
    (hrun : run ≠ 0) : e.nodeSetRun n run =
      some (e.setCalcFunc n ((e.graph n).mCalcFunc.setRun (e.world.mNode n).mIsGroup run)) := by
  unfold nodeSetRun
  rw [touch_eq hn]
  simp only [Option.bind_eq_bind, Option.bind_some]
  rw [nodeStateMsg_eq hn hsides, ite_self, if_neg hrun]
  rfl

/-- `/n_run` pauses a node, or lets one run that is paused. -/
theorem nRun_outcome (h : Idle e kids) (node : NodeID) (run : Word) :
    ∃ e' kids', e.perform (.nRun node run) = some e' ∧ Standing e'.world kids' ∧
      Outcome e (.nRun node run) e' := by
  simp only [Engine.perform]
  split
  · exact ⟨e, kids, rfl, h.toStanding, .relinked ⟨e.world, rfl, rfl, fun _ => rfl⟩⟩
  · rename_i n hget
    have hn := getNode_mem hget
    have hsides : Sides e.world n := .of_listed h.toListed hn
    by_cases hrun : run = 0
    · subst hrun
      exact ⟨_, kids, nodeSetRun_zero hn hsides, h.toStanding, .paused hn ⟨rfl, hget⟩⟩
    · refine ⟨_, kids, nodeSetRun_of_ne_zero hn hsides hrun, h.toStanding,
        .calcFunc hn (fits_setRun (h.kinds n hn) run) ?_⟩
      unfold NodeCalcFunc.setRun
      rw [if_pos hrun]
      split_ifs with hnull hgroup
      · exact .inr (.inl ⟨hnull, .inl rfl⟩)
      · exact .inr (.inl ⟨hnull, .inr rfl⟩)
      · exact .inl rfl

/-- A node is traced or dumped. -/
theorem calcFunc_outcome (h : Idle e kids) (hn : n ∈ e.world.mNodeLib) {f : NodeCalcFunc}
    (hf : f.fits (e.world.mNode n).mIsGroup)
    (hold : (e.graph n).mCalcFunc = f ∨
      (e.graph n).mCalcFunc = .graphCalc ∧ f = .graphCalcTrace ∨
      (e.graph n).mCalcFunc = .groupCalc ∧
        (f = .groupCalcTrace ∨ f = .groupCalcDumpTree ∨ f = .groupCalcDumpTreeAndControls)) :
    ∃ e' kids', some (e.setCalcFunc n f) = some e' ∧ Standing e'.world kids' ∧
      Outcome e r e' :=
  ⟨_, kids, rfl, h.toStanding, .calcFunc hn hf (by tauto)⟩

/-- A request that moves no node below itself has a result, and leaves nodes that stand in lists. -/
theorem perform_outcome (h : Idle e kids) (hsafe : e.RequestSafe r) :
    ∃ e' kids', e.perform r = some e' ∧ Standing e'.world kids' ∧
      Outcome e r e' := by
  have hstay : ∃ e' kids', some e = some e' ∧ Standing e'.world kids' ∧
      Outcome e r e' := ⟨e, kids, rfl, h.toStanding, .relinked ⟨e.world, rfl, rfl, fun _ => rfl⟩⟩
  cases r with
  | nRun node run => exact nRun_outcome h node run
  | sNew defname nodeID addAction target mNumUnits mCalcUnits =>
    simp only [Engine.perform]
    split
    · exact hstay
    · split
      · exact hstay
      · rename_i t ht
        exact placeNew_outcome h.toStanding (nodeNew_cases_of_hidden h.hidden defname nodeID)
          (.inr ⟨⟨_, _, rfl⟩, rfl⟩) ht fun haction n hn => ⟨haction, t, ht, hn⟩
  | gNew nodeID addAction target =>
    simp only [Engine.perform]
    split
    · exact hstay
    · rename_i t ht
      split
      · rename_i w hnew
        obtain ⟨taken, htaken⟩ := Option.isSome_iff_exists.mp (hsafe t w ht hnew)
        rw [htaken]
        rcases groupNew_cases_of_hidden h.hidden nodeID with
          ⟨hidden, n, hhidden, hn, hok⟩ | ⟨err, hidden, hhidden, herr⟩
        · rw [hok] at hnew
          cases hnew
        · rw [herr] at hnew
          cases hnew
          exact ⟨_, kids, rfl, h.toStanding.withHidden hhidden,
            .relinked ⟨_, rfl, rfl, fun _ => rfl⟩⟩
      · exact placeNew_outcome h.toStanding (groupNew_cases_of_hidden h.hidden nodeID)
          (.inl ⟨rfl, rfl⟩) ht fun haction n hn => ⟨haction, t, ht, hn⟩
  | nFree node =>
    simp only [Engine.perform]
    split
    · exact hstay
    · rename_i s hget
      have hs := getNode_mem hget
      obtain ⟨b, hb⟩ := h.exists_below s
      obtain ⟨e', kids', hdelete, hstanding, F, hfreed, hF⟩ := nodeDelete_standing h.toStanding hs hb
      refine ⟨e', kids', hdelete, hstanding, .freed hfreed fun n hn => ?_⟩
      obtain ⟨hnlib, hwithin⟩ := within_below h.toStanding hb (hF n hn).2 hs
      exact ⟨hnlib, (hF n hn).1, s, hget, hwithin⟩
  | gFreeAll group =>
    simp only [Engine.perform]
    split
    · exact hstay
    · rename_i g hget
      obtain ⟨-, hg, hgroup⟩ := getGroup_mem hget
      obtain ⟨e', kids', hdelete, hstanding, F, hfreed, hF⟩ :=
        groupDeleteAll_standing h.toStanding hg hgroup
      refine ⟨e', kids', hdelete, hstanding, .freed hfreed fun n hn => ?_⟩
      obtain ⟨hnlib, hn0, hwithin⟩ := hF n hn
      exact ⟨hnlib, hn0, g, hget, hwithin⟩
  | gDeepFree group =>
    simp only [Engine.perform]
    split
    · exact hstay
    · rename_i g hget
      obtain ⟨-, hg, hgroup⟩ := getGroup_mem hget
      obtain ⟨e', kids', hdelete, hstanding, F, hfreed, hF⟩ :=
        groupDeepFreeGraphs_standing h.toStanding hg hgroup
      refine ⟨e', kids', hdelete, hstanding, .freed hfreed fun n hn => ?_⟩
      obtain ⟨hnlib, hn0, hwithin⟩ := hF n hn
      exact ⟨hnlib, hn0, g, hget, hwithin⟩
  | nTrace node =>
    simp only [Engine.perform]
    split
    · exact hstay
    · rename_i n hget
      have hn := getNode_mem hget
      have hkind := h.kinds n hn
      cases hgroup : (e.world.mNode n).mIsGroup with
      | true =>
        rw [hgroup] at hkind
        apply calcFunc_outcome h hn
        · rw [hgroup]
          show ((e.graph n).mCalcFunc.groupTrace).fits true = true
          unfold NodeCalcFunc.groupTrace
          split_ifs
          · rfl
          · exact hkind
        · show _ = (e.graph n).mCalcFunc.groupTrace ∨ _
          unfold NodeCalcFunc.nodeTrace NodeCalcFunc.groupTrace
          simp only [if_true]
          split_ifs <;> simp_all
      | false =>
        rw [hgroup] at hkind
        apply calcFunc_outcome h hn
        · rw [hgroup]
          show ((e.graph n).mCalcFunc.graphTrace).fits false = true
          unfold NodeCalcFunc.graphTrace
          split_ifs
          · rfl
          · exact hkind
        · show _ = (e.graph n).mCalcFunc.graphTrace ∨ _
          unfold NodeCalcFunc.nodeTrace NodeCalcFunc.graphTrace
          simp only [Bool.false_eq_true, if_false]
          split_ifs <;> simp_all
  | gDumpTree group flag =>
    simp only [Engine.perform]
    split
    · exact hstay
    · rename_i g hget
      obtain ⟨-, hg, hgroup⟩ := getGroup_mem hget
      have hkind := h.kinds g hg
      rw [hgroup] at hkind
      split_ifs
      · apply calcFunc_outcome h hg
        · rw [hgroup]
          unfold NodeCalcFunc.groupDumpTreeAndControls
          split_ifs
          · rfl
          · exact hkind
        · unfold NodeCalcFunc.groupDumpTreeAndControls
          split_ifs <;> simp_all
      · apply calcFunc_outcome h hg
        · rw [hgroup]
          unfold NodeCalcFunc.groupDumpTree
          split_ifs
          · rfl
          · exact hkind
        · unfold NodeCalcFunc.groupDumpTree
          split_ifs <;> simp_all
  | nBefore node target =>
    simp only [Engine.perform]
    split
    · rename_i s t hs ht
      obtain ⟨e', kids', heq, hstanding, hrelinked⟩ :=
        relinked_standing (h.moveBefore (getNode_mem hs) (getNode_mem ht) (hsafe s t hs ht))
          (sameTable_moveBefore e.world s t)
      exact ⟨e', kids', heq, hstanding, .relinked hrelinked⟩
    · exact hstay
  | nAfter node target =>
    simp only [Engine.perform]
    split
    · rename_i s t hs ht
      obtain ⟨e', kids', heq, hstanding, hrelinked⟩ :=
        relinked_standing (h.moveAfter (getNode_mem hs) (getNode_mem ht) (hsafe s t hs ht))
          (sameTable_moveAfter e.world s t)
      exact ⟨e', kids', heq, hstanding, .relinked hrelinked⟩
    · exact hstay
  | gHead group node =>
    simp only [Engine.perform]
    split
    · rename_i g s hg hs
      obtain ⟨-, hglib, hgroup⟩ := getGroup_mem hg
      obtain ⟨e', kids', heq, hstanding, hrelinked⟩ :=
        relinked_standing (h.moveToHead (getNode_mem hs) hglib hgroup (hsafe g s hg hs))
          (sameTable_moveToHead e.world g s)
      exact ⟨e', kids', heq, hstanding, .relinked hrelinked⟩
    · exact hstay
  | gTail group node =>
    simp only [Engine.perform]
    split
    · rename_i g s hg hs
      obtain ⟨-, hglib, hgroup⟩ := getGroup_mem hg
      obtain ⟨e', kids', heq, hstanding, hrelinked⟩ :=
        relinked_standing (h.moveToTail (getNode_mem hs) hglib hgroup (hsafe g s hg hs))
          (sameTable_moveToTail e.world g s)
      exact ⟨e', kids', heq, hstanding, .relinked hrelinked⟩
    · exact hstay

/-- No request starts a loop. -/
theorem perform_idle (h : Idle e kids) (hsafe : e.RequestSafe r) :
    ∃ e' kids', e.perform r = some e' ∧ Idle e' kids' ∧
      Outcome e r e' := by
  obtain ⟨e', kids', hperform, hstanding, houtcome⟩ := perform_outcome h hsafe
  obtain ⟨hstack, hkinds⟩ := houtcome.kinds h.kinds
  exact ⟨e', kids', hperform, ⟨hstanding, hstack.trans h.idle, hkinds⟩, houtcome⟩

end Engine

end PoopWorms.Server
