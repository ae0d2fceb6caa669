import PoopWorms.App.AudioTheorems

/-!
# Layouts

The table of nodes without its pointers: the children of every group, and what each node is.
A world shows a layout if its pointers and its table say the same, and every command that the
worms send does to the layout what it says: nodes join, leave, take each other's place.
-/

namespace PoopWorms.App

open Octets Osc Server Client

/-- Who the children of a node are, what kind of node it is, and how many nodes there are. -/
structure Layout where
  kids : NodeID → List NodeID
  kind : NodeID → Option NodeKind
  size : ℕ

namespace Layout

/-- A new node between two children of `g`. -/
def join (L : Layout) (g id : NodeID) (k : NodeKind) (l₁ l₂ : List NodeID) : Layout where
  kids := Function.update L.kids g (l₁ ++ id :: l₂)
  kind := Function.update L.kind id (some k)
  size := L.size + 1

/-- A child of `g` leaves the table. -/
def leave (L : Layout) (g n : NodeID) (l₁ l₂ : List NodeID) : Layout where
  kids := Function.update L.kids g (l₁ ++ l₂)
  kind := Function.update L.kind n none
  size := L.size - 1

/-- All children of `g` leave the table. -/
def empty (L : Layout) (g : NodeID) : Layout where
  kids := Function.update L.kids g []
  kind := fun n => if n ∈ (L.kids g).toFinset then none else L.kind n
  size := L.size - (L.kids g).length

/-- The root group alone. -/
def root : Layout where
  kids := fun _ => []
  kind := fun n => if n = 0#32 then some .group else none
  size := 1

end Layout

/-- The world's pointers and table, with the options and definitions of the worms' server. -/
structure Shows (w : World) (L : Layout) : Prop where
  tree : World.Tree w L.kids
  kind : kind w = L.kind
  card : w.mNodeLib.card = L.size
  max : w.mMaxNodes = 1024
  defs : w.mGraphDefLib = synthdefs.map CString.bytes

namespace Shows

variable {w : World} {L : Layout} {g id n target : NodeID} {l₁ l₂ : List NodeID} {name : CString}

theorem mem_lib (h : Shows w L) (hn : L.kind n ≠ none) : n ∈ w.mNodeLib := by
  rwa [← h.kind, kind_ne_none_iff] at hn

theorem not_mem_lib (h : Shows w L) (hn : L.kind n = none) : n ∉ w.mNodeLib := by
  rwa [← h.kind, kind_eq_none_iff] at hn

theorem fresh (h : Shows w L) (hpos : 0 < id.toInt) (hid : L.kind id = none) : Fresh w id :=
  ⟨hpos, h.not_mem_lib hid⟩

theorem isGroup (h : Shows w L) (hg : L.kind g = some .group) :
    g ∈ w.mNodeLib ∧ (w.mNode g).mIsGroup := by
  rwa [← h.kind, kind_eq_group_iff] at hg

theorem isSynth (h : Shows w L) {k : NodeKind} (hn : L.kind n = some k) (hk : k ≠ .group) :
    n ∈ w.mNodeLib ∧ (w.mNode n).mIsGroup = false := by
  have hmem : n ∈ w.mNodeLib := h.mem_lib (by simp [hn])
  refine ⟨hmem, Bool.eq_false_iff.mpr fun hgroup => hk ?_⟩
  have hkind := (kind_eq_group_iff n).mpr ⟨hmem, hgroup⟩
  rw [h.kind, hn] at hkind
  exact Option.some.inj hkind

/-- A node without a place joins the table, and then a group. -/
theorem register_insertAt (h : Shows w L) (hid : Fresh w id) (hg : L.kind g = some .group)
    (hkids : L.kids g = l₁ ++ l₂) (mDef : List Byte) (mIsGroup : Bool) :
    Shows ((w.register id mDef mIsGroup).insertAt g id l₁ l₂)
      (L.join g id (if mIsGroup then .group else kindOfDef mDef) l₁ l₂) := by
  have hgroup := h.isGroup hg
  have hgid : id ≠ g := fun heq => hid.2 (heq ▸ hgroup.1)
  have hreg := h.tree.register hid.2 mDef mIsGroup
  refine ⟨?_, ?_, ?_, h.max, h.defs⟩
  · refine hreg.insertAt (Finset.mem_insert_of_mem hgroup.1) ?_ (Finset.mem_insert_self ..)
      hid.ne_zero ?_ hkids
    · rw [mNode_register_of_mem hid.2 hgroup.1]
      exact hgroup.2
    · simp [World.register]
  · rw [kind_insertAt, kind_register, h.kind]
    rfl
  · have hcard := Finset.card_insert_of_notMem hid.2
    rw [h.card] at hcard
    exact hcard

/-- A child of a group leaves it, and the table. -/
theorem eraseAt_deregister (h : Shows w L) (hkids : L.kids g = l₁ ++ n :: l₂)
    (hempty : L.kids n = []) : Shows ((w.eraseAt g n l₁ l₂).deregister n) (L.leave g n l₁ l₂) := by
  have hn := h.tree.mem g n (by simp [hkids])
  have hng : n ≠ g := by
    intro heq
    rw [heq, hkids] at hempty
    simp at hempty
  refine ⟨?_, ?_, ?_, h.max, h.defs⟩
  · refine (h.tree.eraseAt hkids).deregister hn.2.1 (by simp [World.eraseAt]) ?_
    rw [Function.update_of_ne hng, hempty]
  · rw [kind_deregister, kind_eraseAt, h.kind]
    rfl
  · have hcard := Finset.card_erase_of_mem hn.1
    rw [h.card] at hcard
    exact hcard

/-! ## Commands that create a node -/

theorem nodeNew_full (h : Shows w L) (hid : Fresh w id) (hfull : 1024 ≤ L.size)
    (mDef : List Byte) : w.nodeNew mDef id = .error (.tooManyNodes, w) := by
  refine World.nodeNew_eq_error mDef hid.1.le hid.2 ?_
  rw [h.max, h.card]
  exact hfull

/-- `/s_new` where `Node_New` refuses the node. -/
theorem sNew_refused (h : Shows w L) {err : SCErr}
    (hnew : w.nodeNew name.bytes id = .error (err, w)) (addAction : AKAddAction)
    (htpos : 0 ≤ target.toInt) (ht : L.kind target = some .group ∨
      (L.kind target ≠ none ∧ addAction ≠ .addToHeadAction ∧ addAction ≠ .addToTailAction))
    (hname : name ∈ synthdefs) :
    sNew w name.bytes id addAction.toInt target = (w, err) := by
  have hdef : name.bytes ∈ w.mGraphDefLib := h.defs ▸ List.mem_map_of_mem hname
  have hnode : w.getNode target = some target := by
    refine getNode_eq_some htpos (h.mem_lib ?_)
    rcases ht with ht | ht
    · simp [ht]
    · exact ht.1
  have hgroup : addAction = .addToHeadAction ∨ addAction = .addToTailAction →
      w.getGroup target = some target := by
    intro hadd
    rcases ht with ht | ht
    · exact getGroup_eq_some htpos (h.isGroup ht).1 (h.isGroup ht).2
    · rcases hadd with hadd | hadd
      · exact absurd hadd ht.2.1
      · exact absurd hadd ht.2.2
  have hfound := sNewAt_refused hnew target
  unfold sNew
  rw [if_neg (by simp [hdef])]
  cases addAction with
  | addToHeadAction => simp [AKAddAction.toInt, hgroup, hfound]
  | addToTailAction => simp [AKAddAction.toInt, hgroup, hfound]
  | addBeforeAction => simp [AKAddAction.toInt, hnode, hfound]
  | addAfterAction => simp [AKAddAction.toInt, hnode, hfound]
  | replaceAction => simp [AKAddAction.toInt, hnode, hfound]

theorem room (h : Shows w L) (hroom : L.size < 1024) : w.mNodeLib.card < w.mMaxNodes := by
  rw [h.max, h.card]
  exact hroom

/-- `/s_new` at the head of a group. -/
theorem sNew_head (h : Shows w L) (hid : Fresh w id) (hroom : L.size < 1024)
    (hgpos : 0 ≤ g.toInt) (hg : L.kind g = some .group) (hname : name ∈ synthdefs) :
    ∃ w', sNew w name.bytes id AKAddAction.addToHeadAction.toInt g = (w', .none) ∧
      Shows w' (L.join g id (kindOfDef name.bytes) [] (L.kids g)) :=
  ⟨_, Server.sNew_head h.tree (h.defs ▸ List.mem_map_of_mem hname) hid (h.room hroom) hgpos
      (h.isGroup hg).1 (h.isGroup hg).2,
    h.register_insertAt hid hg rfl name.bytes false⟩

/-- `/s_new` at the tail of a group. -/
theorem sNew_tail (h : Shows w L) (hid : Fresh w id) (hroom : L.size < 1024)
    (hgpos : 0 ≤ g.toInt) (hg : L.kind g = some .group) (hname : name ∈ synthdefs) :
    ∃ w', sNew w name.bytes id AKAddAction.addToTailAction.toInt g = (w', .none) ∧
      Shows w' (L.join g id (kindOfDef name.bytes) (L.kids g) []) :=
  ⟨_, Server.sNew_tail h.tree (h.defs ▸ List.mem_map_of_mem hname) hid (h.room hroom) hgpos
      (h.isGroup hg).1 (h.isGroup hg).2,
    h.register_insertAt hid hg (List.append_nil _).symm name.bytes false⟩

/-- `/s_new` in front of a node. -/
theorem sNew_before (h : Shows w L) (hid : Fresh w id) (hroom : L.size < 1024)
    (htpos : 0 ≤ target.toInt) (hkids : L.kids g = l₁ ++ target :: l₂)
    (hname : name ∈ synthdefs) :
    ∃ w', sNew w name.bytes id AKAddAction.addBeforeAction.toInt target = (w', .none) ∧
      Shows w' (L.join g id (kindOfDef name.bytes) l₁ (target :: l₂)) := by
  have hg : L.kind g = some .group := by
    rw [← h.kind, kind_eq_group_iff]
    exact h.tree.group g (by simp [hkids])
  exact ⟨_, Server.sNew_before h.tree (h.defs ▸ List.mem_map_of_mem hname) hid (h.room hroom)
    htpos hkids, h.register_insertAt hid hg hkids name.bytes false⟩

/-- `/s_new` in the place of a synth. -/
theorem sNew_replace (h : Shows w L) (hid : Fresh w id) (hroom : L.size < 1024)
    (htpos : 0 ≤ target.toInt) (hkids : L.kids g = l₁ ++ target :: l₂) {k : NodeKind}
    (ht : L.kind target = some k) (hk : k ≠ .group) (hname : name ∈ synthdefs) :
    ∃ w', sNew w name.bytes id AKAddAction.replaceAction.toInt target = (w', .none) ∧
      Shows w' ((L.leave g target l₁ l₂).join g id (kindOfDef name.bytes) l₁ l₂) := by
  have hsynth := h.isSynth ht hk
  have hsynth' : ((w.register id name.bytes false).mNode target).mIsGroup = false := by
    rw [mNode_register_of_mem hid.2 hsynth.1]
    exact hsynth.2
  have hparent : ((w.register id name.bytes false).mNode id).mParent = none := by
    simp [World.register]
  have hne : id ≠ target := fun heq => hid.2 (heq ▸ hsynth.1)
  have hreg := h.tree.register hid.2 name.bytes false
  refine ⟨_, Server.sNew_replace h.tree (h.defs ▸ List.mem_map_of_mem hname) hid (h.room hroom)
    htpos hkids hsynth.2, ?_, ?_, ?_, h.max, h.defs⟩
  · have htree := hreg.nodeReplace hkids hsynth' (Finset.mem_insert_self ..) hid.ne_zero hparent
    rw [World.nodeReplace_eq hreg hkids hsynth' hid.ne_zero hparent] at htree
    simp only [Layout.join, Layout.leave, Function.update_idem]
    exact htree
  · rw [kind_deregister, kind_insertAt, kind_eraseAt, kind_register, h.kind,
      Function.update_comm hne]
    rfl
  · have hcard := Finset.card_erase_of_mem (Finset.mem_insert_of_mem (b := id) hsynth.1)
    have hpos : 0 < w.mNodeLib.card := Finset.card_pos.mpr ⟨target, hsynth.1⟩
    rw [Finset.card_insert_of_notMem hid.2, h.card] at hcard
    rw [h.card] at hpos
    simp only [Layout.join, Layout.leave]
    have hlib : (((((w.register id name.bytes false).eraseAt g target l₁ l₂).insertAt g id l₁ l₂)
        |>.deregister target).mNodeLib).card = L.size + 1 - 1 := hcard
    omega

/-- `/g_new` at the tail of a group. -/
theorem gNewTail (h : Shows w L) (hid : Fresh w id) (hroom : L.size < 1024)
    (hgpos : 0 ≤ g.toInt) (hg : L.kind g = some .group) :
    ∃ w', Server.gNewTail w id g = some (w', .none) ∧
      Shows w' (L.join g id .group (L.kids g) []) :=
  ⟨_, gNewTail_eq h.tree hid (h.room hroom) hgpos (h.isGroup hg).1 (h.isGroup hg).2,
    h.register_insertAt hid hg (List.append_nil _).symm World.groupDefName true⟩

theorem gNewTail_full (h : Shows w L) (hid : Fresh w id) (hfull : 1024 ≤ L.size)
    (hgpos : 0 ≤ g.toInt) (hg : L.kind g = some .group) :
    Server.gNewTail w id g = some (w, .tooManyNodes) := by
  refine Server.gNewTail_full hid ?_ hgpos (h.isGroup hg).1 (h.isGroup hg).2
  rw [h.max, h.card]
  exact hfull

/-! ## Commands without a target -/

/-- `/s_new` at a node that is not in the table. -/
theorem sNew_nowhere (h : Shows w L) (htpos : 0 ≤ target.toInt) (ht : L.kind target = none)
    (hname : name ∈ synthdefs) (addAction : AKAddAction) :
    ∃ err, sNew w name.bytes id addAction.toInt target = (w, err) ∧ err ≠ .tooManyNodes := by
  have hdef : name.bytes ∈ w.mGraphDefLib := h.defs ▸ List.mem_map_of_mem hname
  have hnode := getNode_eq_none htpos (h.not_mem_lib ht)
  have hgroup : w.getGroup target = none := by
    unfold World.getGroup
    rw [hnode]
  unfold sNew
  rw [if_neg (by simp [hdef])]
  cases addAction <;> simp [AKAddAction.toInt, hnode, hgroup, sNewAt]

theorem gFreeAll_nowhere (h : Shows w L) (hgpos : 0 ≤ g.toInt) (hg : L.kind g = none) :
    gFreeAll w g = (w, .groupNotFound) := by
  have hnode := getNode_eq_none hgpos (h.not_mem_lib hg)
  unfold gFreeAll World.getGroup
  rw [hnode]

theorem nFree_nowhere (h : Shows w L) (hnpos : 0 ≤ n.toInt) (hn : L.kind n = none) :
    nFree w n = (w, .nodeNotFound) := by
  unfold nFree
  rw [getNode_eq_none hnpos (h.not_mem_lib hn)]

/-! ## Nodes that go -/

/-- A synth ends. -/
theorem nodeDelete (h : Shows w L) (hkids : L.kids g = l₁ ++ n :: l₂) {k : NodeKind}
    (hn : L.kind n = some k) (hk : k ≠ .group) :
    Shows (w.nodeDelete n) (L.leave g n l₁ l₂) := by
  have hsynth := h.isSynth hn hk
  rw [World.nodeDelete_eq h.tree hkids hsynth.2]
  exact h.eraseAt_deregister hkids (h.tree.kids_eq_nil_of_synth hsynth.2)

/-- `/g_freeAll` of a group of synths. -/
theorem gFreeAll (h : Shows w L) (hgpos : 0 ≤ g.toInt) (hg : L.kind g = some .group)
    (hkids : ∀ n ∈ L.kids g, L.kind n ≠ some .group) :
    ∃ w', Server.gFreeAll w g = (w', .none) ∧ Shows w' (L.empty g) := by
  have hgroup := h.isGroup hg
  have hsynths : ∀ n ∈ L.kids g, (w.mNode n).mIsGroup = false := by
    intro n hn
    refine Bool.eq_false_iff.mpr fun hisGroup => hkids n hn ?_
    rw [← h.kind, kind_eq_group_iff]
    exact ⟨(h.tree.mem g n hn).1, hisGroup⟩
  refine ⟨w.groupDeleteAll g, ?_, ?_⟩
  · unfold Server.gFreeAll
    rw [getGroup_eq_some hgpos hgroup.1 hgroup.2]
  · have hlib : (w.groupDeleteAll g).mNodeLib = w.mNodeLib \ (L.kids g).toFinset := by
      rw [World.groupDeleteAll_eq h.tree hgroup.1 hgroup.2 hsynths]
      rfl
    refine ⟨h.tree.groupDeleteAll hgroup.1 hgroup.2 hsynths, ?_, ?_, ?_, ?_⟩
    · funext n
      simp only [Layout.empty, List.mem_toFinset]
      split_ifs with hn
      · rw [kind_eq_none_iff, hlib]
        simp [hn]
      · rw [← h.kind]
        refine kind_congr (by simp [hlib, hn]) ?_ ?_ <;>
          rw [World.groupDeleteAll_eq h.tree hgroup.1 hgroup.2 hsynths] <;>
          simp [World.free, hn]
    · have hsub : (L.kids g).toFinset ⊆ w.mNodeLib := by
        intro n hn
        exact (h.tree.mem g n (List.mem_toFinset.mp hn)).1
      rw [hlib, Finset.card_sdiff_of_subset hsub, List.toFinset_card_of_nodup (h.tree.nodup g),
        h.card]
      rfl
    · rw [World.groupDeleteAll_eq h.tree hgroup.1 hgroup.2 hsynths]
      exact h.max
    · rw [World.groupDeleteAll_eq h.tree hgroup.1 hgroup.2 hsynths]
      exact h.defs

/-- `/n_free` of an empty group. -/
theorem nFree_group (h : Shows w L) (hgpos : 0 ≤ n.toInt) (hn : L.kind n = some .group)
    (hkids : L.kids g = l₁ ++ n :: l₂) (hempty : L.kids n = []) :
    ∃ w', nFree w n = (w', .none) ∧ Shows w' (L.leave g n l₁ l₂) := by
  have hgroup := h.isGroup hn
  refine ⟨w.nodeDelete n, ?_, ?_⟩
  · unfold nFree
    rw [getNode_eq_some hgpos hgroup.1]
  · rw [World.nodeDelete_group_eq h.tree hkids hgroup.2 hempty]
    exact h.eraseAt_deregister hkids hempty

end Shows

/-- The server before the first worm. -/
theorem shows_init : Shows Audio.init.world Layout.root := by
  refine ⟨⟨⟨Finset.mem_singleton_self _, rfl, rfl⟩, ?_, ?_, ?_, ?_, ?_, ?_⟩, ?_, rfl, rfl, rfl⟩
  · exact fun g n hn => absurd hn List.not_mem_nil
  · exact fun g hg => absurd rfl hg
  · intro n _ g hparent
    exact absurd hparent (Option.some_ne_none _).symm
  · exact fun _ => List.nodup_nil
  · exact fun _ => trivial
  · exact fun _ _ _ => ⟨rfl, rfl⟩
  · funext n
    by_cases hn : n = 0#32 <;> simp [kind, Audio.init, World.new, Layout.root, hn]

end PoopWorms.App
