import PoopWorms.Server.QueryTreeTheorems

/-!
# `/g_queryTree` and `/g_dumpTree` report the same controls

After commands in any order the query reports, and the dump prints, what the states of the
controls say, as long as the query can tell them. It cannot tell a control that is mapped to an
audio bus, which the dump can.
-/

namespace PoopWorms.Server

open Octets Osc ScPacket Forest LinkedList PreorderTrees

/-- The ID and the values of the controls, as the query reports them. -/
def Reply.Reported.shown : Reply.Reported → NodeID × List Item
  | group mID => (mID, [])
  | synth mID _ controls => (mID, controls.map Prod.snd)

/-- The ID and the values of the controls, as the dump prints them. -/
def DumpLine.shown (line : DumpLine) : NodeID × List Item :=
  (line.mID, line.controls.map Prod.snd)

namespace World

open SynthMemory Reply

variable (w : World) (m : SynthMemory)

/-- What the query reports of the group and the nodes below it. -/
def queryShown (group : NodeID) : Option (List (NodeID × List Item)) := do
  let ops ← w.groupQueryTreeAndControls m group
  let nodes ← takeNodes true (opItems ops).length (opItems ops)
  return nodes.map fun node => node.1.shown

/-- The controls of a node, with `value` for their values. -/
def nodeShown (value : NodeID → ℕ → Item) (x : NodeID) : NodeID × List Item :=
  (x, if (w.mNode x).mIsGroup then [] else (List.range (m.graphs x).mNumControls).map (value x))

variable {w m} {kids : NodeID → List NodeID} {all b l : List NodeID} {x s group : NodeID}
  {t : Trees NodeID} {value : NodeID → ℕ → Item} {state : NodeID → ℕ → ControlState}
  {world : NodeID → ControlWorld} {quotient : Word → ℕ → Word} {calculated : NodeID → Bool}

theorem shown_nodeReport (x : NodeID) :
    (w.nodeReport m true value x).shown = w.nodeShown m value x := by
  unfold nodeReport nodeShown
  cases hisGroup : (w.mNode x).mIsGroup with
  | true => rfl
  | false => simp [Reported.shown, Function.comp_def]

/-! ## The query -/

/-- The numbers of nodes and of controls are `int32`s. -/
structure Counted (w : World) (m : SynthMemory) : Prop where
  nodes : w.mNodeLib.card < 2 ^ 31
  controls : ∀ x, (m.graphs x).mNumControls < 2 ^ 31

theorem Rooted.length_nodes_le (h : Rooted w kids all) (hg : group ∈ w.mNodeLib)
    (ht : t.Of kids [group]) : t.nodes.length ≤ w.mNodeLib.card := by
  obtain ⟨b, hb, hnd, hgb⟩ := h.exists_below hg
  have hnodes := ht.spans.unique (.singleton hb)
  have hsub : t.nodes.toFinset ⊆ w.mNodeLib := fun x hx =>
    mem_nodes h hg ht (List.mem_toFinset.mp hx)
  rw [← List.toFinset_card_of_nodup (show t.nodes.Nodup by
    rw [hnodes]
    exact List.nodup_cons.mpr ⟨hgb, hnd⟩)]
  exact Finset.card_le_card hsub

theorem Rooted.writable (h : Rooted w kids all) (hg : group ∈ w.mNodeLib) (ht : t.Of kids [group])
    (hcounted : Counted w m) (value : NodeID → ℕ → Item) :
    ∀ node ∈ (t.map (w.nodeReport m true value)).spell, Writable true node := by
  intro node hnode
  rw [spell_map_of ht] at hnode
  obtain ⟨x, hx, rfl⟩ := List.mem_map.mp hnode
  have hkids := ht.length_kids_le hx
  have hnodes := h.length_nodes_le hg ht
  have hcard := hcounted.nodes
  unfold nodeReport
  cases hisGroup : (w.mNode x).mIsGroup with
  | true =>
    rw [if_pos rfl]
    show (kids x).length < 2 ^ 32 - 1
    omega
  | false =>
    have hcontrols := hcounted.controls x
    rw [if_neg (by simp), h.toTree.kids_eq_nil_of_synth hisGroup]
    refine ⟨rfl, ?_, nofun⟩
    rw [if_pos rfl, List.length_map, List.length_range]
    omega

/-- With a value for each control, the query reports them. -/
theorem Rooted.queryShown_eq (h : Rooted w kids all) (hg : group ∈ w.mNodeLib)
    (hgroup : (w.mNode group).mIsGroup) (ht : t.Of kids [group]) (hnamed : WellNamed w m)
    (hcounted : Counted w m) (hvalues : Values w m t.nodes value) :
    w.queryShown m group = some (t.nodes.map (w.nodeShown m value)) := by
  obtain ⟨ops, hquery, hitems, -⟩ :=
    h.groupQueryTreeAndControls_eq hg hgroup ht hnamed hvalues
  have hnodes := takeNodes_flatMap (h.writable hg ht hcounted value) _ (Nat.le_refl _)
  unfold queryShown
  simp only [hquery, hitems, hnodes, Option.bind_eq_bind, Option.bind_some]
  rw [spell_map_of ht, List.map_map]
  exact congrArg some (List.map_congr_left fun x _ => shown_nodeReport x)

/-- Without a value for one of the controls, the query reports nothing. -/
theorem Rooted.queryShown_none (h : Rooted w kids all) (hg : group ∈ w.mNodeLib)
    (hgroup : (w.mNode group).mIsGroup) (ht : t.Of kids [group]) (hx : x ∈ t.nodes)
    (hsynth : (w.mNode x).mIsGroup = false) {i : ℕ} (hi : i < (m.graphs x).mNumControls)
    (hnone : m.queryValue x i = none) : w.queryShown m group = none := by
  unfold queryShown
  rw [h.groupQueryTreeAndControls_none hg hgroup ht hx hsynth hi hnone]
  rfl

/-! ## The dump -/

/-- The line of a node. -/
def lineOf (w : World) (m : SynthMemory) (quotient : Word → ℕ → Word) (x : NodeID) : DumpLine :=
  ⟨x, cString (w.mNode x).mDef, if (w.mNode x).mIsGroup then []
    else (List.range (m.graphs x).mNumControls).map fun i =>
      ((nameAt (m.mParamSpecs x) i).map cString, m.dumpValue quotient x i)⟩

theorem dumpLine_eq (hnamed : WellNamed w m) (hx : x ∈ w.mNodeLib) :
    w.dumpLine m quotient x = some (w.lineOf m quotient x) := by
  unfold dumpLine lineOf
  cases hisGroup : (w.mNode x).mIsGroup with
  | true => rfl
  | false =>
    rw [if_neg (by simp)]
    unfold dumpSynth
    simp only [stashNames_eq (hnamed x hx hisGroup), Option.bind_eq_bind, Option.bind_some]
    rfl

/-- The dump prints the lines of the nodes in preorder, without those below a group that is not
calculated. -/
theorem Tree.dumpFrom_eq (h : Tree w kids) (hspans : Spans kids l b) {prev : Option NodeID}
    (hlinked : Linked (fun n => (w.mNode n).mPrev) (fun n => (w.mNode n).mNext) prev l none)
    (hlib : ∀ x ∈ b, x ∈ w.mNodeLib) (hnamed : WellNamed w m) (quotient : Word → ℕ → Word)
    (calculated : NodeID → Bool) (fuel : ℕ) (hfuel : b.length < fuel) :
    ∃ lines, w.dumpFrom m quotient calculated fuel l.head? = some lines ∧
      lines.Sublist (b.map (w.lineOf m quotient)) ∧
      ((∀ x ∈ b, calculated x) → lines = b.map (w.lineOf m quotient)) := by
  induction hspans generalizing prev fuel with
  | nil =>
    cases fuel with
    | zero => simp at hfuel
    | succ fuel => exact ⟨[], rfl, .slnil, fun _ => rfl⟩
  | @cons x xs below rest hbelow hrest ihbelow ihrest =>
    cases fuel with
    | zero => simp at hfuel
    | succ fuel =>
      rw [List.length_cons, List.length_append] at hfuel
      obtain ⟨-, hnext, hlinked'⟩ := hlinked
      have hnext' : (w.mNode x).mNext = xs.head? := by simpa using hnext
      have hx := hlib x List.mem_cons_self
      obtain ⟨behind, hbehind, hsub, hfull⟩ := ihrest hlinked'
        (fun y hy => hlib y (by simp [hy])) fuel (by omega)
      rw [List.head?_cons, dumpFrom, dumpLine_eq hnamed hx, hnext']
      by_cases hgo : (w.mNode x).mIsGroup ∧ calculated x
      · -- a group that is calculated: its children are dumped in its turn
        obtain ⟨inside, hinside, hsub', hfull'⟩ := ihbelow (h.linked x)
          (fun y hy => hlib y (by simp [hy])) fuel (by omega)
        refine ⟨w.lineOf m quotient x :: (inside ++ behind), ?_, ?_, ?_⟩
        · simp only [if_pos hgo, (h.ends x hx hgo.1).1, hinside, hbehind, Option.bind_eq_bind,
            Option.bind_some]
          rfl
        · rw [List.map_cons, List.map_append]
          exact (hsub'.append hsub).cons_cons _
        · intro hall
          rw [hfull' fun y hy => hall y (by simp [hy]), hfull fun y hy => hall y (by simp [hy]),
            List.map_cons, List.map_append]
      · refine ⟨w.lineOf m quotient x :: behind, ?_, ?_, ?_⟩
        · simp only [if_neg hgo, hbehind, Option.bind_eq_bind, Option.bind_some]
          rfl
        · rw [List.map_cons, List.map_append]
          exact (List.sublist_append_of_sublist_right hsub).cons_cons _
        · intro hall
          have hsynth : (w.mNode x).mIsGroup = false := by
            cases hisGroup : (w.mNode x).mIsGroup with
            | true => exact absurd ⟨hisGroup, hall x List.mem_cons_self⟩ hgo
            | false => rfl
          rw [h.kids_eq_nil_of_synth hsynth] at hbelow
          cases hbelow
          rw [hfull fun y hy => hall y (by simp [hy]), List.nil_append, List.map_cons]

theorem shown_lineOf (htold : ∀ i < (m.graphs x).mNumControls, (w.mNode x).mIsGroup = false →
    m.dumpValue quotient x i = value x i) :
    (w.lineOf m quotient x).shown = w.nodeShown m value x := by
  unfold lineOf nodeShown DumpLine.shown
  cases hisGroup : (w.mNode x).mIsGroup with
  | true => rfl
  | false =>
    simp only [Bool.false_eq_true, if_false, List.map_map, Function.comp_def, Prod.mk.injEq,
      true_and, List.map_inj_left, List.mem_range]
    exact fun i hi => htold i hi hisGroup

/-! ## Both together -/

/-- The query reports the states of the controls of all synths of the group, and the dump prints
what the query reports, except below groups that are not calculated. -/
def Agree (w : World) (m : SynthMemory) (quotient : Word → ℕ → Word) (group : NodeID)
    (state : NodeID → ℕ → ControlState) : Prop :=
  ∃ shown, w.queryShown m group = some shown ∧
    (∀ s, w.SynthOf group s → s ∈ shown.map Prod.fst) ∧
    (∀ node ∈ shown, node = w.nodeShown m (fun x i => (state x i).report) node.1) ∧
    ∀ calculated, ∃ lines, w.groupDumpTreeAndControls m quotient calculated group = some lines ∧
      (lines.map DumpLine.shown).Sublist shown.tail ∧
      ((∀ x, calculated x) → lines.map DumpLine.shown = shown.tail)

theorem Rooted.synthOf_iff (h : Rooted w kids all) (hg : group ∈ w.mNodeLib)
    (ht : t.Of kids [group]) :
    w.SynthOf group s ↔ s ∈ t.nodes ∧ (w.mNode s).mIsGroup = false := by
  obtain ⟨b, hb, hspans⟩ := ht.spans.eq_of_singleton
  constructor
  · intro hs
    rw [hb]
    exact ⟨(h.toTree.within_iff hspans hs.1).mp hs.2.2, hs.2.1⟩
  · intro hs
    have hmem := mem_nodes h hg ht hs.1
    refine ⟨hmem, hs.2, (h.toTree.within_iff hspans hmem).mpr ?_⟩
    rw [← hb]
    exact hs.1

theorem Rooted.agree_of_told (h : Rooted w kids all) (hg : group ∈ w.mNodeLib)
    (hgroup : (w.mNode group).mIsGroup) (ht : t.Of kids [group]) (hnamed : WellNamed w m)
    (hcounted : Counted w m) (hshown : Shown w m world state)
    (htold : AllTold w m state t.nodes) (quotient : Word → ℕ → Word) :
    Agree w m quotient group state := by
  have hvalues : Values w m t.nodes fun x i => (state x i).report := by
    intro x hx hsynth i hi
    exact (queryValue_iff (hshown x (mem_nodes h hg ht hx) hsynth i hi)).mpr
      (htold x hx hsynth i hi)
  refine ⟨_, h.queryShown_eq hg hgroup ht hnamed hcounted hvalues, ?_, ?_, fun calculated => ?_⟩
  · intro s hs
    rw [List.map_map]
    exact List.mem_map.mpr ⟨s, ((h.synthOf_iff hg ht).mp hs).1, rfl⟩
  · intro node hnode
    obtain ⟨x, hx, rfl⟩ := List.mem_map.mp hnode
    rfl
  · cases ht with
    | @node _ _ below behind hbelow hbehind =>
      cases hbehind
      rw [Trees.nodes, Trees.nodes, List.append_nil, List.map_cons, List.tail_cons]
      have hlib : ∀ x ∈ below.nodes, x ∈ w.mNodeLib := fun x hx =>
        (h.toTree.mem_of_below hbelow.spans hx).1
      obtain ⟨b, hb, hnd, -⟩ := h.exists_below hg
      have hlen := h.toTree.length_below_le hb hnd
      rw [hb.unique hbelow.spans] at hlen
      obtain ⟨lines, hlines, hsub, hfull⟩ := h.toTree.dumpFrom_eq hbelow.spans (h.linked group)
        hlib hnamed quotient calculated (2 * w.mNodeLib.card + 1) (by omega)
      have hsame : (below.nodes.map (w.lineOf m quotient)).map DumpLine.shown =
          below.nodes.map (w.nodeShown m fun x i => (state x i).report) := by
        rw [List.map_map]
        refine List.map_congr_left fun x hx => shown_lineOf fun i hi hsynth => ?_
        refine dumpValue_eq (hshown x (hlib x hx) hsynth i hi) (htold x ?_ hsynth i hi) quotient
        rw [Trees.nodes, List.mem_cons, List.mem_append]
        exact .inr (.inl hx)
      unfold groupDumpTreeAndControls
      rw [(h.ends group hg hgroup).1, ← hsame]
      by_cases hcalc : calculated group = true
      · rw [if_pos hcalc]
        refine ⟨lines, hlines, hsub.map _, fun hall => ?_⟩
        rw [hfull fun x _ => hall x]
      · rw [if_neg hcalc]
        exact ⟨[], rfl, List.nil_sublist _, fun hall => absurd (hall group) hcalc⟩

theorem Rooted.told_of_agree (h : Rooted w kids all) (hg : group ∈ w.mNodeLib)
    (hgroup : (w.mNode group).mIsGroup) (ht : t.Of kids [group]) (hnamed : WellNamed w m)
    (hcounted : Counted w m) (hshown : Shown w m world state)
    (hagree : Agree w m quotient group state) : AllTold w m state t.nodes := by
  obtain ⟨shown, hquery, -, hstates, -⟩ := hagree
  have hvalues : Values w m t.nodes fun x i => (m.queryValue x i).getD (.int 0#32) := by
    intro y hy hsynth j hj
    cases hvalue : m.queryValue y j with
    | none =>
      rw [h.queryShown_none hg hgroup ht hy hsynth hj hvalue] at hquery
      exact absurd hquery nofun
    | some value => simp only [hvalue, Option.getD_some]
  obtain rfl := Option.some.inj
    (hquery.symm.trans (h.queryShown_eq hg hgroup ht hnamed hcounted hvalues))
  intro x hx hsynth i hi
  have hnode := hstates _ (List.mem_map.mpr ⟨x, hx, rfl⟩)
  unfold nodeShown at hnode
  simp only [hsynth, Bool.false_eq_true, if_false, Prod.mk.injEq, true_and, List.map_inj_left,
    List.mem_range] at hnode
  rw [← queryValue_iff (hshown x (mem_nodes h hg ht hx) hsynth i hi), ← hnode i hi]
  exact hvalues x hx hsynth i hi

/-- After commands in any order, the query and the dump agree on a group exactly if the query can
tell all controls of its synths. -/
theorem query_dump_agree_iff (w : World) (world : NodeID → ControlWorld)
    (numControls : NodeID → ℕ) (values : NodeID → ℕ → Word) (m : SynthMemory)
    (states : NodeID → ℕ → ControlState) (quotient : Word → ℕ → Word) (group : NodeID)
    (htree : w.IsTree) (hg : group ∈ w.mNodeLib) (hgroup : (w.mNode group).mIsGroup)
    (hnamed : WellNamed w m) (hcounted : Counted w m)
    (hrun : ControlRun w world numControls values m.graphs states) :
    Agree w m quotient group states ↔
      ∀ s, w.SynthOf group s → ∀ i < numControls s, (states s i).Told := by
  obtain ⟨kids, all, h⟩ := htree
  obtain ⟨t, ht⟩ := h.exists_tree hg
  have hshown : Shown w m world states := by
    intro x _ _ i hi
    rw [hrun.numControls_eq ⟨kids, all, h⟩] at hi
    exact hrun.shows ⟨kids, all, h⟩ x hi
  have hall : AllTold w m states t.nodes ↔
      ∀ s, w.SynthOf group s → ∀ i < numControls s, (states s i).Told := by
    unfold AllTold
    simp only [h.synthOf_iff hg ht, hrun.numControls_eq ⟨kids, all, h⟩, and_imp]
  rw [← hall]
  constructor
  · exact h.told_of_agree hg hgroup ht hnamed hcounted hshown
  · intro htold
    exact h.agree_of_told hg hgroup ht hnamed hcounted hshown htold quotient

end World

namespace QueryExample

open World Reply

/-- One command for the control of the synth, which is new. -/
def changedMemory (store : ControlStore) : SynthMemory where
  graphs := NOrder.oneSynth.eachGraph
    (fun _ g => g.store sixteenBuses (.index 0#32) 0 store) 1#32
    fun _ => .init 1 fun _ => 0x3f800000#32
  mParamSpecs := fun _ => [⟨nameOf (CString.ofString "freq").bytes, 0⟩]
  mControls := fun _ => -1024
  mAudioBus := 64
  mBufLength := 64

def changedState (store : ControlStore) (s : NodeID) (i : ℕ) : ControlState :=
  if s = 1#32 then
    Controls.stateAfter sixteenBuses (.index 0#32) 0 store i ⟨0x3f800000#32, none⟩
  else ⟨0x3f800000#32, none⟩

theorem synthOf_one {s : NodeID} : NOrder.oneSynth.SynthOf 1#32 s ↔ s = 1#32 := by
  obtain ⟨kids, all, h⟩ := NOrder.isTree_oneSynth
  obtain ⟨t, ht⟩ := h.exists_tree (show (1#32 : NodeID) ∈ NOrder.oneSynth.mNodeLib by decide)
  have hleaf : kids 1#32 = [] := h.toTree.kids_eq_nil_of_synth (by decide)
  have hnodes : t.nodes = [1#32] :=
    ht.spans.unique (.singleton (by rw [hleaf]; exact .nil))
  rw [h.synthOf_iff (by decide) ht, hnodes, List.mem_singleton]
  constructor
  · exact fun hs => hs.1
  · rintro rfl
    exact ⟨rfl, by decide⟩

theorem controlRun_changed (store : ControlStore) :
    ControlRun NOrder.oneSynth (fun _ => sixteenBuses) (fun _ => 1) (fun _ _ => 0x3f800000#32)
      (changedMemory store).graphs (changedState store) := by
  refine .step .new 1#32 (by decide) (.index 0#32) 0 store ?_ ?_
  · intro s i hs
    rw [synthOf_one] at hs
    exact if_pos hs
  · intro s hs
    rw [synthOf_one] at hs
    funext i
    exact if_neg hs

theorem numControls_changed (store : ControlStore) (x : NodeID) :
    ((changedMemory store).graphs x).mNumControls = 1 :=
  (controlRun_changed store).numControls_eq NOrder.isTree_oneSynth x

theorem wellNamed_changed (store : ControlStore) :
    WellNamed NOrder.oneSynth (changedMemory store) := by
  intro x _ _ spec hspec
  rw [List.mem_singleton.mp hspec, numControls_changed]
  exact Nat.one_pos

theorem counted_changed (store : ControlStore) : Counted NOrder.oneSynth (changedMemory store) := by
  constructor
  · decide
  · intro x
    rw [numControls_changed]
    decide

/-- The control has been mapped to the control bus 3. -/
theorem query_dump_agree_iff_controlBus : Agree NOrder.oneSynth (changedMemory (.map 3#32))
    (fun bus _ => bus) 0#32 (changedState (.map 3#32)) := by
  refine (query_dump_agree_iff NOrder.oneSynth (fun _ => sixteenBuses) (fun _ => 1)
    (fun _ _ => 0x3f800000#32) (changedMemory (.map 3#32)) (changedState (.map 3#32)) _ 0#32
    NOrder.isTree_oneSynth NOrder.root_mem_oneSynth (by decide) (wellNamed_changed _)
    (counted_changed _) (controlRun_changed _)).mpr ?_
  intro s _ i hi
  obtain rfl := Nat.lt_one_iff.mp hi
  by_cases hs : s = 1#32
  · subst hs
    intro bus hbus
    exact ⟨3, by decide, (Option.some.inj hbus).symm⟩
  · unfold changedState
    rw [if_neg hs]
    exact nofun

/-- The control has been mapped to the audio bus 0. -/
theorem not_agree_audioBus :
    ¬ ∀ (w : World) (world : NodeID → ControlWorld) (numControls : NodeID → ℕ)
      (values : NodeID → ℕ → Word) (m : SynthMemory) (states : NodeID → ℕ → ControlState)
      (quotient : Word → ℕ → Word) (group : NodeID), w.IsTree → group ∈ w.mNodeLib →
      (w.mNode group).mIsGroup → WellNamed w m → Counted w m →
      ControlRun w world numControls values m.graphs states →
      Agree w m quotient group states := by
  intro hall
  obtain ⟨kids, all, t, h, ht, hmem⟩ := exists_oneSynth
  have hgroup : (NOrder.oneSynth.mNode 0#32).mIsGroup := by decide
  have hrun := controlRun_changed (.mapAudio 0#32)
  have hshown : Shown NOrder.oneSynth (changedMemory (.mapAudio 0#32)) (fun _ => sixteenBuses)
      (changedState (.mapAudio 0#32)) := by
    intro x _ _ i hi
    rw [numControls_changed] at hi
    exact hrun.shows NOrder.isTree_oneSynth x hi
  have hagree := hall NOrder.oneSynth _ _ _ (changedMemory (.mapAudio 0#32)) _ (fun bus _ => bus)
    0#32 NOrder.isTree_oneSynth NOrder.root_mem_oneSynth hgroup (wellNamed_changed _)
    (counted_changed _) hrun
  have htold := h.told_of_agree NOrder.root_mem_oneSynth hgroup ht (wellNamed_changed _)
    (counted_changed _) hshown hagree
  obtain ⟨b, -, hb⟩ := htold 1#32 hmem (by decide) 0
    (by rw [numControls_changed]; exact Nat.one_pos) (.audio 0) (by decide)
  exact absurd hb nofun

end QueryExample

end PoopWorms.Server
