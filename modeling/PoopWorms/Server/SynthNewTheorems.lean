import PoopWorms.Server.ChildLists
import PoopWorms.Server.NodeRuns
import PoopWorms.Server.SynthNew

/-!
# What `/s_new` leaves behind

An error leaves the nodes and the counters alone. Without one there is a new synth, and it stands
where the add action asks for it, unless that is beside the root group.
-/

namespace PoopWorms.Server

open Octets Osc

namespace CountedWorld

/-! ## The counters are beside the nodes -/

theorem world_deleteFrom (fuel : ℕ) (s : CountedWorld) (child : Option NodeID) :
    (deleteFrom fuel s child).world = World.deleteFrom fuel s.world child := by
  induction fuel generalizing s child with
  | zero => rfl
  | succ fuel ih =>
    cases child with
    | none => rfl
    | some child =>
      rw [deleteFrom, World.deleteFrom, ih]
      by_cases h0 : child = 0#32
      · simp only [if_pos h0]
        rfl
      · simp only [if_neg h0]
        cases hgroup : ((s.withWorld (s.world.unlink child)).world.mNode child).mIsGroup with
        | true =>
          have hgroup' : ((s.world.unlink child).mNode child).mIsGroup = true := hgroup
          rw [if_pos rfl, hgroup', if_pos rfl]
          simp only [withWorld, groupNodeDtor, ih]
        | false =>
          have hgroup' : ((s.world.unlink child).mNode child).mIsGroup = false := hgroup
          rw [if_neg (by simp), hgroup', if_neg (by simp)]
          rfl

theorem world_nodeDelete (s : CountedWorld) (n : NodeID) :
    (s.nodeDelete n).world = s.world.nodeDelete n := by
  unfold nodeDelete World.nodeDelete
  split_ifs
  · rfl
  · simp only [groupDtor, groupDeleteAll, groupNodeDtor, withWorld, World.groupDtor,
      World.groupDeleteAll, world_deleteFrom]
  · rfl

theorem world_nodeReplace (s : CountedWorld) (graph n : NodeID) :
    (s.nodeReplace graph n).world = s.world.nodeReplace graph n := by
  unfold nodeReplace World.nodeReplace
  cases hparent : (s.world.mNode n).mParent with
  | none => rfl
  | some group =>
    dsimp only
    split_ifs
    · rfl
    · exact world_nodeDelete _ n

theorem world_sNewAt {numUnitSpecs : List Byte → Word} {s : CountedWorld} {defname : List Byte}
    {nodeID : NodeID} {target : Option NodeID} {notFound : SCErr}
    {place : CountedWorld → NodeID → NodeID → CountedWorld} {link : World → NodeID → NodeID → World}
    (hplace : ∀ s target graph, (place s target graph).world = link s.world target graph) :
    ((s.sNewAt numUnitSpecs defname nodeID target notFound place).1.world,
      (s.sNewAt numUnitSpecs defname nodeID target notFound place).2) =
      Server.sNewAt s.world defname nodeID target notFound link := by
  cases target with
  | none => rfl
  | some target =>
    unfold sNewAt Server.sNewAt graphNew
    cases s.world.graphNew defname nodeID with
    | error e => rfl
    | ok r => simp only [hplace]; rfl

theorem hasGraphDef_iff {s : CountedWorld} {defname : List Byte} :
    s.hasGraphDef defname = true ↔ defname ∈ s.world.mGraphDefLib := by
  simp [hasGraphDef]

/-- The nodes are those of `/s_new` without the counters. -/
theorem world_methSNew (fpu : FloatUnit) (numUnitSpecs : List Byte → Word) (s : CountedWorld)
    (msg : MsgIter) :
    (s.methSNew fpu numUnitSpecs msg).map (fun r => (r.1.world, r.2)) =
      Server.methSNew fpu s.world msg := by
  have hlinked : ∀ (link : World → NodeID → NodeID → World) s target graph,
      (linked link s target graph).world = link s.world target graph := fun _ _ _ _ => rfl
  unfold methSNew Server.methSNew
  cases hname : msg.gets4 none with
  | none => rfl
  | some r =>
    obtain ⟨defname, msg₁⟩ := r
    cases defname with
    | none => rfl
    | some defname =>
      simp only [Option.bind_eq_bind, Option.bind_some]
      cases hid : msg₁.geti fpu 0#32 with
      | none => rfl
      | some r =>
        obtain ⟨nodeID, msg₂⟩ := r
        simp only [Option.bind_some]
        cases haction : msg₂.geti fpu 0#32 with
        | none => rfl
        | some r =>
          obtain ⟨addAction, msg₃⟩ := r
          simp only [Option.bind_some]
          by_cases hdef : defname ∉ s.world.mGraphDefLib
          · rw [if_pos (mt hasGraphDef_iff.mp hdef), if_pos hdef]
            rfl
          · rw [if_neg (not_not.mpr (hasGraphDef_iff.mpr (not_not.mp hdef))), if_neg hdef]
            split_ifs
            · cases msgGetGroup fpu s.world msg₃ with
              | none => rfl
              | some r => exact congrArg some (world_sNewAt (hlinked World.groupAddHead))
            · cases msgGetGroup fpu s.world msg₃ with
              | none => rfl
              | some r => exact congrArg some (world_sNewAt (hlinked World.groupAddTail))
            · cases msgGetNode fpu s.world msg₃ with
              | none => rfl
              | some r => exact congrArg some (world_sNewAt (hlinked _))
            · cases msgGetNode fpu s.world msg₃ with
              | none => rfl
              | some r => exact congrArg some (world_sNewAt (hlinked _))
            · cases msgGetNode fpu s.world msg₃ with
              | none => rfl
              | some r =>
                exact congrArg some
                  (world_sNewAt fun s target graph => world_nodeReplace s graph target)
            · rfl

end CountedWorld

/-! ## The new node -/

namespace World

variable {w : World} {kids : NodeID → List NodeID} {all m₁ m₂ l₁ l₂ : List NodeID}
  {n g target : NodeID}

/-- `Node_New` takes the ID: it is a new one, and there is room in the table. `-1` asks for the
next hidden ID. -/
def Admits (w : World) (inID : NodeID) : Prop :=
  w.mNodeLib.card < w.mMaxNodes ∧
    (inID = -1#32 ∧ ((w.mHiddenID - 8#32) ||| 0x80000000#32) ∉ w.mNodeLib ∨
      0 ≤ inID.toInt ∧ inID ∉ w.mNodeLib)

theorem getNode_eq_none_iff (hn : n ≠ -1#32) : w.getNode n = none ↔ n ∉ w.mNodeLib := by
  unfold getNode
  dsimp only
  rw [if_neg hn]
  split_ifs with hmem <;> simp [hmem]

/-- `Node_New` with the ID that the node is to have. -/
def nodeNewWith (w : World) (mDef : List Byte) (id : NodeID) :
    Except (SCErr × World) (World × NodeID) :=
  match w.getNode id with
  | some _ => .error (.duplicateNodeID, w)
  | none =>
    match (w.modify id fun _ => ⟨mDef, false, none, none, none, none, none⟩).addNode id with
    | none => .error (.tooManyNodes, w)
    | some w => .ok ({ w with mRecentID := id }, id)

theorem nodeNewWith_isOk_iff (mDef : List Byte) (hn : n ≠ -1#32) :
    (∃ r, w.nodeNewWith mDef n = .ok r) ↔ w.mNodeLib.card < w.mMaxNodes ∧ n ∉ w.mNodeLib := by
  unfold nodeNewWith
  cases hget : w.getNode n with
  | some x =>
    have hmem : n ∈ w.mNodeLib := by
      by_contra hnot
      rw [(getNode_eq_none_iff hn).mpr hnot] at hget
      cases hget
    simp [hmem]
  | none =>
    have hnot := (getNode_eq_none_iff hn).mp hget
    by_cases hfull : w.mMaxNodes ≤ w.mNodeLib.card
    · have hadd : (w.modify n fun _ => ⟨mDef, false, none, none, none, none, none⟩).addNode n =
          none := if_pos hfull
      have hroom : ¬ w.mNodeLib.card < w.mMaxNodes := by omega
      simp [hadd, hroom]
    · have hadd : (w.modify n fun _ => ⟨mDef, false, none, none, none, none, none⟩).addNode n =
          some _ := if_neg hfull
      have hroom : w.mNodeLib.card < w.mMaxNodes := by omega
      simp [hadd, hroom, hnot]

theorem nodeNew_isOk_iff (h : Kept w) (mDef : List Byte) (inID : NodeID) :
    (∃ r, w.nodeNew mDef inID = .ok r) ↔ w.Admits inID := by
  unfold Admits
  by_cases hminus : inID = -1#32
  · -- the ID is the next hidden one
    have hhidden : ((w.mHiddenID - 8#32) ||| 0x80000000#32) ≠ -1#32 := by
      intro heq
      have hmod := hidden_mod h.hidden
      rw [heq] at hmod
      exact absurd hmod (by decide)
    have hnew : w.nodeNew mDef inID =
        ({ w with mHiddenID := (w.mHiddenID - 8#32) ||| 0x80000000#32 } : World).nodeNewWith mDef
          ((w.mHiddenID - 8#32) ||| 0x80000000#32) := by
      unfold nodeNew
      rw [if_neg fun hne => hne.2 hminus]
      simp only [if_pos hminus]
      rfl
    have hneg : ¬ 0 ≤ inID.toInt := by
      rw [hminus]
      decide
    rw [hnew, nodeNewWith_isOk_iff mDef hhidden]
    apply and_congr_right
    intro _
    exact ⟨fun hnot => .inl ⟨hminus, hnot⟩, fun hid => (hid.resolve_right fun hid => hneg hid.1).2⟩
  · by_cases hreserved : inID.toInt < 0
    · have hnew : w.nodeNew mDef inID = .error (.reservedNodeID, w) := if_pos ⟨hreserved, hminus⟩
      have hneg : ¬ 0 ≤ inID.toInt := by omega
      rw [hnew]
      constructor
      · rintro ⟨r, hr⟩
        cases hr
      · rintro ⟨-, hid | hid⟩
        · exact absurd hid.1 hminus
        · exact absurd hid.1 hneg
    · have hnew : w.nodeNew mDef inID = w.nodeNewWith mDef inID := by
        unfold nodeNew
        rw [if_neg fun hne => hreserved hne.1]
        simp only [if_neg hminus]
        rfl
      have hpos : 0 ≤ inID.toInt := by omega
      rw [hnew, nodeNewWith_isOk_iff mDef hminus]
      apply and_congr_right
      intro _
      exact ⟨fun hnot => .inr ⟨hpos, hnot⟩, fun hid => (hid.resolve_left fun hid => hminus hid.1).2⟩

/-- What becomes of the list of a group when the synth `n` joins it. -/
inductive Put (n target : NodeID) : Word → NodeID → List NodeID → List NodeID → Prop
  | head (l : List NodeID) : Put n target 0#32 target l (n :: l)
  | tail (l : List NodeID) : Put n target 1#32 target l (l ++ [n])
  | before (g : NodeID) (l₁ l₂ : List NodeID) :
    Put n target 2#32 g (l₁ ++ target :: l₂) (l₁ ++ n :: target :: l₂)
  | after (g : NodeID) (l₁ l₂ : List NodeID) :
    Put n target 3#32 g (l₁ ++ target :: l₂) (l₁ ++ target :: n :: l₂)
  | replace (g : NodeID) (l₁ l₂ : List NodeID) :
    Put n target 4#32 g (l₁ ++ target :: l₂) (l₁ ++ n :: l₂)

/-- From `w` to `w'` the synth `n` is made, in the place that the add action and the target ask
for. A replaced node is gone with all that is below it. -/
structure NewSynth (w w' : World) (addAction : Word) (target n : NodeID) : Prop where
  tree : IsTree w'
  fresh : n ∉ w.mNodeLib
  synth : (w'.mNode n).mIsGroup = false
  table : ∀ x, x ∈ w'.mNodeLib ↔
    x = n ∨ x ∈ w.mNodeLib ∧ ¬ (addAction = 4#32 ∧ w.Within target x)
  kinds : ∀ x ∈ w.mNodeLib, (w'.mNode x).mIsGroup = (w.mNode x).mIsGroup
  place : ∃ g, Surgery.IsGroup w g ∧ Put n target addAction g (w.children g) (w'.children g) ∧
    ∀ x ≠ g, Surgery.IsGroup w' x → w'.children x = w.children x

section Place

variable {addAction : Word} {mDef : List Byte}

theorem Rooted.newSynth_insertAt (h : Rooted w kids all) (hn : n ∉ w.mNodeLib) (hn0 : n ≠ 0#32)
    (hkids : kids g = m₁ ++ m₂) (hg : Surgery.IsGroup w g) (haction : addAction ≠ 4#32)
    (hput : Put n target addAction g (m₁ ++ m₂) (m₁ ++ n :: m₂)) :
    NewSynth w ((w.register n mDef false).insertAt g n m₁ m₂) addAction target n := by
  have hng : g ≠ n := by
    rintro rfl
    exact hn hg.1
  have hnode : ∀ x ≠ n, (w.register n mDef false).mNode x = w.mNode x :=
    fun x hx => Function.update_of_ne hx ..
  have hself : ((w.register n mDef false).mNode n).mIsGroup = false := by
    show (Function.update w.mNode n _ n).mIsGroup = false
    rw [Function.update_self]
  obtain ⟨all', htree⟩ := (h.register hn hn0 mDef false).insertAt hkids
    ((h.registered g).mpr hg.1) (by rw [hnode g hng]; exact hg.2)
  have hkinds : ∀ x ∈ w.mNodeLib,
      (((w.register n mDef false).insertAt g n m₁ m₂).mNode x).mIsGroup =
        (w.mNode x).mIsGroup := by
    intro x hx
    have hxn : x ≠ n := by
      rintro rfl
      exact hn hx
    show ((w.register n mDef false).mNode x).mIsGroup = _
    rw [hnode x hxn]
  have hlist : ∀ x ∈ w.mNodeLib, (w.mNode x).mIsGroup →
      ((w.register n mDef false).insertAt g n m₁ m₂).children x =
        Function.update kids g (m₁ ++ n :: m₂) x := by
    intro x hx hgroup
    exact htree.toTree.children_eq (Finset.mem_insert_of_mem hx) ((hkinds x hx).trans hgroup)
  refine ⟨⟨_, _, htree⟩, hn, hself, fun x => ?_, hkinds, g, hg, ?_, fun x hxg hx => ?_⟩
  · show x ∈ insert n w.mNodeLib ↔ _
    rw [Finset.mem_insert]
    simp [haction]
  · rw [hlist g hg.1 hg.2, Function.update_self, h.toTree.children_eq hg.1 hg.2, hkids]
    exact hput
  · have hxn : x ≠ n := by
      rintro rfl
      have hgroup : ((w.register x mDef false).mNode x).mIsGroup = true := hx.2
      rw [hself] at hgroup
      cases hgroup
    have hxlib : x ∈ w.mNodeLib := (Finset.mem_insert.mp hx.1).resolve_left hxn
    have hgroup : (w.mNode x).mIsGroup := (hkinds x hxlib).symm.trans hx.2
    rw [hlist x hxlib hgroup, Function.update_of_ne hxg, h.toTree.children_eq hxlib hgroup]

/-- How the cases of `/s_new` link the new synth. -/
def link (addAction : Word) (w : World) (target n : NodeID) : World :=
  if addAction = 0#32 then w.groupAddHead target n
  else if addAction = 1#32 then w.groupAddTail target n
  else if addAction = 2#32 then w.nodeAddBefore n target
  else if addAction = 3#32 then w.nodeAddAfter n target
  else w.nodeReplace n target

/-- The add action is one of the five. -/
def IsAddAction (addAction : Word) : Prop :=
  addAction = 0#32 ∨ addAction = 1#32 ∨ addAction = 2#32 ∨ addAction = 3#32 ∨ addAction = 4#32

/-- The new synth takes the place of another node. -/
theorem Rooted.newSynth_replace (h : Rooted w kids all) (hn : n ∉ w.mNodeLib) (hn0 : n ≠ 0#32)
    (hkids : kids g = l₁ ++ target :: l₂) (hg : Surgery.IsGroup w g) :
    NewSynth w ((w.register n mDef false).nodeReplace n target) 4#32 target n := by
  have htarget := (h.mem_table_of_cut hkids).1
  obtain ⟨b, hb, -, htb⟩ := h.exists_below htarget
  obtain ⟨all', htree, hall⟩ := (h.register hn hn0 mDef false).nodeReplace hkids
    ((h.registered g).mpr hg.1) hb
  have hnode : ∀ x ≠ n, (w.register n mDef false).mNode x = w.mNode x :=
    fun x hx => Function.update_of_ne hx ..
  have hself : ((w.register n mDef false).mNode n).mIsGroup = false := by
    show (Function.update w.mNode n _ n).mIsGroup = false
    rw [Function.update_self]
  have hbelow : ∀ x ∈ target :: b, x ∈ w.mNodeLib := by
    intro x hx
    rcases List.mem_cons.mp hx with rfl | hx
    · exact htarget
    · exact (h.toTree.mem_of_below hb hx).1
  have hnb : n ∉ target :: b := fun hmem => hn (hbelow n hmem)
  have htable : ∀ x, x ∈ ((w.register n mDef false).nodeReplace n target).mNodeLib ↔
      x = n ∨ x ∈ w.mNodeLib ∧ ¬ (4#32 = 4#32 ∧ w.Within target x) := by
    intro x
    rw [← htree.registered x, hall x]
    show x ∈ insert n w.mNodeLib ∧ _ ↔ _
    rw [Finset.mem_insert]
    by_cases hxn : x = n
    · simp [hxn, hnb]
    · simp only [hxn, false_or, true_and]
      apply and_congr_right
      intro hx
      rw [h.toTree.within_iff hb hx]
  have hkinds : ∀ x, x ≠ n → (((w.register n mDef false).nodeReplace n target).mNode x).mIsGroup =
      (w.mNode x).mIsGroup := by
    intro x hx
    rw [mIsGroup_nodeReplace, hnode x hx]
  -- the groups that are left keep their lists, but for the one
  have hlist : ∀ x, Surgery.IsGroup ((w.register n mDef false).nodeReplace n target) x →
      Surgery.IsGroup w x ∧ ((w.register n mDef false).nodeReplace n target).children x =
        Function.update kids g (l₁ ++ n :: l₂) x := by
    intro x hx
    have hxn : x ≠ n := by
      rintro rfl
      have hgroup := hx.2
      rw [mIsGroup_nodeReplace, hself] at hgroup
      cases hgroup
    have hxall := (hall x).mp ((htree.registered x).mpr hx.1)
    have hxb : ¬ (x = target ∨ x ∈ b) := fun hmem => hxall.2 (List.mem_cons.mpr hmem)
    refine ⟨⟨(Finset.mem_insert.mp hxall.1).resolve_left hxn, (hkinds x hxn).symm.trans hx.2⟩, ?_⟩
    rw [htree.toTree.children_eq hx.1 hx.2, if_neg hxb]
  -- the group that the target is in is not below it
  have htg : target ∈ kids g := by simp [hkids]
  have hgb : g ∉ target :: b := by
    intro hmem
    rcases List.mem_cons.mp hmem with rfl | hmem
    · exact htb (hb.mem_of_root htg)
    · exact htb (hb.mem_of_kid hmem htg)
  have hgn : g ≠ n := by
    rintro rfl
    exact hn hg.1
  have hg' : Surgery.IsGroup ((w.register n mDef false).nodeReplace n target) g :=
    ⟨(htree.registered g).mp ((hall g).mpr ⟨Finset.mem_insert_of_mem hg.1, hgb⟩),
      (hkinds g hgn).trans hg.2⟩
  refine ⟨⟨_, _, htree⟩, hn, ?_, htable, fun x hx => hkinds x ?_, g, hg, ?_, fun x hxg hx => ?_⟩
  · rw [mIsGroup_nodeReplace, hself]
  · rintro rfl
    exact hn hx
  · rw [(hlist g hg').2, Function.update_self, h.toTree.children_eq hg.1 hg.2, hkids]
    exact .replace g l₁ l₂
  · obtain ⟨hxgroup, hxlist⟩ := hlist x hx
    rw [hxlist, Function.update_of_ne hxg, h.toTree.children_eq hxgroup.1 hxgroup.2]

/-- The target that the add action needs: a group, or a node that has one. -/
def FitsAdd (w : World) (addAction : Word) (target : NodeID) : Prop :=
  if addAction = 0#32 ∨ addAction = 1#32 then Surgery.IsGroup w target
  else target ∈ w.mNodeLib ∧ target ≠ 0#32

theorem Rooted.newSynth_link (h : Rooted w kids all) (hn : n ∉ w.mNodeLib) (hn0 : n ≠ 0#32)
    (haction : IsAddAction addAction) (hfits : w.FitsAdd addAction target) :
    NewSynth w (link addAction (w.register n mDef false) target n) addAction target n := by
  have hnode : ∀ x ∈ w.mNodeLib, (w.register n mDef false).mNode x = w.mNode x := by
    intro x hx
    apply Function.update_of_ne
    rintro rfl
    exact hn hx
  have hreg := h.toTree.register hn mDef false
  have hparent := mParent_register w n mDef false
  rcases haction with rfl | rfl | rfl | rfl | rfl
  · have hg : Surgery.IsGroup w target := hfits
    have hne : n ≠ target := by
      rintro rfl
      exact hn hg.1
    change NewSynth w ((w.register n mDef false).groupAddHead target n) _ _ _
    rw [groupAddHead_eq hreg (Finset.mem_insert_of_mem hg.1) (by rw [hnode _ hg.1]; exact hg.2) hn0
      hne hparent]
    exact h.newSynth_insertAt hn hn0 (List.nil_append _).symm hg (by decide) (.head _)
  · have hg : Surgery.IsGroup w target := hfits
    have hne : n ≠ target := by
      rintro rfl
      exact hn hg.1
    change NewSynth w ((w.register n mDef false).groupAddTail target n) _ _ _
    rw [groupAddTail_eq hreg (Finset.mem_insert_of_mem hg.1) (by rw [hnode _ hg.1]; exact hg.2) hn0
      hne hparent]
    refine h.newSynth_insertAt hn hn0 (List.append_nil _).symm hg (by decide) ?_
    rw [List.append_nil]
    exact .tail _
  all_goals
    obtain ⟨htarget, ht0⟩ : target ∈ w.mNodeLib ∧ target ≠ 0#32 := hfits
    obtain ⟨g, l₁, l₂, hkids⟩ := h.exists_cut htarget ht0
    have hg : Surgery.IsGroup w g := h.parent_mem hkids
  · change NewSynth w ((w.register n mDef false).nodeAddBefore n target) _ _ _
    rw [nodeAddBefore_eq hreg hkids hn0 hparent]
    exact h.newSynth_insertAt hn hn0 hkids hg (by decide) (.before g l₁ l₂)
  · change NewSynth w ((w.register n mDef false).nodeAddAfter n target) _ _ _
    rw [nodeAddAfter_eq hreg hkids hn0 hparent]
    refine h.newSynth_insertAt hn hn0 (by rw [hkids]; simp) hg (by decide) ?_
    rw [List.append_assoc, List.append_assoc]
    exact .after g l₁ l₂
  · exact h.newSynth_replace hn hn0 hkids hg

/-- Beside the root, nothing is linked, and the new node hangs nowhere. -/
theorem not_isTree_beside (h : IsTree w) (hn : n ∉ w.mNodeLib)
    (haction : addAction = 2#32 ∨ addAction = 3#32 ∨ addAction = 4#32) :
    ¬ IsTree (link addAction (w.register n mDef false) 0#32 n) := by
  obtain ⟨kids, all, h⟩ := h
  have hn0 : n ≠ 0#32 := by
    rintro rfl
    exact hn h.root.1
  have hroot : ((w.register n mDef false).mNode 0#32).mParent = none := by
    rw [root_register hn0]
    exact h.root.2.2
  have hsame : link addAction (w.register n mDef false) 0#32 n = w.register n mDef false := by
    rcases haction with rfl | rfl | rfl
    · show (w.register n mDef false).nodeAddBefore n 0#32 = _
      unfold nodeAddBefore
      rw [hroot]
    · show (w.register n mDef false).nodeAddAfter n 0#32 = _
      unfold nodeAddAfter
      rw [hroot]
    · show (w.register n mDef false).nodeReplace n 0#32 = _
      unfold nodeReplace
      rw [hroot]
  rw [hsame]
  rintro ⟨kids', all', h'⟩
  obtain ⟨p, l₁, l₂, hkids⟩ := h'.exists_cut (Finset.mem_insert_self n w.mNodeLib) hn0
  have hparent := (h'.mem p n (by simp [hkids])).2.2
  rw [mParent_register] at hparent
  cases hparent

end Place

end World

namespace CountedWorld

variable {fpu : FloatUnit} {numUnitSpecs : List Byte → Word} {s s' : CountedWorld}
  {it : MsgIter} {err : SCErr}

/-- The message asks for a synth of the definition, with the ID, at a place beside the target, if
there is such a node. -/
def Asks (fpu : FloatUnit) (w : World) (it : MsgIter) (defname : List Byte)
    (nodeID addAction : Word) (target : Option NodeID) : Prop :=
  ∃ msg₁ msg₂ msg₃ msg₄ : MsgIter, it.gets4 none = some (some defname, msg₁) ∧
    msg₁.geti fpu 0#32 = some (nodeID, msg₂) ∧ msg₂.geti fpu 0#32 = some (addAction, msg₃) ∧
    msgGetNode fpu w msg₃ = some (target, msg₄)

/-- Nothing has happened to the nodes and the counters. -/
def SameNodes (s s' : CountedWorld) : Prop :=
  s'.world.mNode = s.world.mNode ∧ s'.world.mNodeLib = s.world.mNodeLib ∧
    s'.graphNumUnits = s.graphNumUnits ∧ s'.counters = s.counters

/-- After an error all is as before; without one, a new synth is where it was asked for. -/
def AllOrNothing (fpu : FloatUnit) (s : CountedWorld) (it : MsgIter) (s' : CountedWorld)
    (err : SCErr) : Prop :=
  (err ≠ .none → SameNodes s s') ∧
    (err = .none → ∃ defname nodeID addAction target n,
      Asks fpu s.world it defname nodeID addAction (some target) ∧
        s.world.NewSynth s'.world addAction target n)

theorem nodeNew_error_ne {w w' : World} {mDef : List Byte} {inID : NodeID}
    (h : w.nodeNew mDef inID = .error (err, w')) : err ≠ .none := by
  rintro rfl
  unfold World.nodeNew at h
  split at h
  · cases h
  · dsimp only at h
    split at h
    · cases h
    · split at h
      · cases h
      · cases h

/-- How a case of `/s_new` ends. -/
theorem sNewAt_cases {defname : List Byte} {nodeID addAction : Word} {target : Option NodeID}
    {notFound : SCErr} {place : CountedWorld → NodeID → NodeID → CountedWorld}
    (h : s.world.Kept) (hnotFound : notFound ≠ .none)
    (hplace : ∀ s target graph, (place s target graph).world =
      World.link addAction s.world target graph)
    (hrun : s.sNewAt numUnitSpecs defname nodeID target notFound place = (s', err)) :
    (err ≠ .none ∧ SameNodes s s' ∧ (target = none ∨ ¬ s.world.Admits nodeID)) ∨
      err = .none ∧ s.world.Admits nodeID ∧ ∃ t hidden n, target = some t ∧ n ∉ s.world.mNodeLib ∧
        s'.world = World.link addAction
          (({ s.world with mHiddenID := hidden } : World).register n defname false) t n := by
  have hisOk := World.nodeNew_isOk_iff h defname nodeID
  unfold sNewAt at hrun
  cases target with
  | none =>
    cases hrun
    exact .inl ⟨hnotFound, ⟨rfl, rfl, rfl, rfl⟩, .inl rfl⟩
  | some t =>
    unfold graphNew World.graphNew at hrun
    rcases World.nodeNew_cases h defname nodeID with
      ⟨hidden, n, -, hn, hok⟩ | ⟨err', hidden, -, herr⟩
    · rw [hok] at hrun
      cases hrun
      exact .inr ⟨rfl, hisOk.mp ⟨_, hok⟩, t, hidden, n, rfl, hn, hplace _ t n⟩
    · have hne := nodeNew_error_ne herr
      have hrefused : ¬ s.world.Admits nodeID := by
        intro hadmits
        obtain ⟨r, hr⟩ := hisOk.mpr hadmits
        rw [herr] at hr
        cases hr
      rw [herr] at hrun
      cases hrun
      exact .inl ⟨hne, ⟨rfl, rfl, rfl, rfl⟩, .inr hrefused⟩

/-- The target that a case of `/s_new` works with. -/
def targetOf (w : World) (addAction : Word) (node : Option NodeID) : Option NodeID :=
  if addAction = 0#32 ∨ addAction = 1#32 then node.filter fun n => (w.mNode n).mIsGroup else node

/-- The message asks for a synth that cannot be refused. -/
def Accepts (fpu : FloatUnit) (w : World) (it : MsgIter) (addAction : Word) (target : NodeID) :
    Prop :=
  ∃ defname nodeID, Asks fpu w it defname nodeID addAction (some target) ∧
    defname ∈ w.mGraphDefLib ∧ World.IsAddAction addAction ∧
    (addAction = 0#32 ∨ addAction = 1#32 → (w.mNode target).mIsGroup) ∧ w.Admits nodeID

/-- How `/s_new` ends: with an error that the message could not avoid, or with a new node. -/
def Ends (fpu : FloatUnit) (s : CountedWorld) (it : MsgIter) (s' : CountedWorld) (err : SCErr) :
    Prop :=
  (err ≠ .none ∧ SameNodes s s' ∧ ∀ addAction target,
      ¬ Accepts fpu s.world it addAction target) ∨
    err = .none ∧ ∃ addAction target defname hidden n,
      Accepts fpu s.world it addAction target ∧ n ∉ s.world.mNodeLib ∧
      s'.world = World.link addAction
        (({ s.world with mHiddenID := hidden } : World).register n defname false) target n

section Ends

variable {defname : List Byte} {nodeID addAction : Word} {node : Option NodeID}
  {msg₁ msg₂ msg₃ msg₄ : MsgIter}

theorem Asks.eq (hname : it.gets4 none = some (some defname, msg₁))
    (hid : msg₁.geti fpu 0#32 = some (nodeID, msg₂))
    (haction : msg₂.geti fpu 0#32 = some (addAction, msg₃))
    (hnode : msgGetNode fpu s.world msg₃ = some (node, msg₄))
    {defname' : List Byte} {nodeID' addAction' : Word} {target : Option NodeID}
    (hasks : Asks fpu s.world it defname' nodeID' addAction' target) :
    defname' = defname ∧ nodeID' = nodeID ∧ addAction' = addAction ∧ target = node := by
  obtain ⟨_, _, _, _, hname', hid', haction', hnode'⟩ := hasks
  rw [hname] at hname'
  cases hname'
  rw [hid] at hid'
  cases hid'
  rw [haction] at haction'
  cases haction'
  rw [hnode] at hnode'
  cases hnode'
  exact ⟨rfl, rfl, rfl, rfl⟩

theorem ends_sNewAt (numUnitSpecs : List Byte → Word) (notFound : SCErr)
    (place : CountedWorld → NodeID → NodeID → CountedWorld)
    (h : s.world.Kept) (hname : it.gets4 none = some (some defname, msg₁))
    (hid : msg₁.geti fpu 0#32 = some (nodeID, msg₂))
    (haction : msg₂.geti fpu 0#32 = some (addAction, msg₃))
    (hnode : msgGetNode fpu s.world msg₃ = some (node, msg₄))
    (hdef : defname ∈ s.world.mGraphDefLib) (hfive : World.IsAddAction addAction)
    (hnotFound : notFound ≠ .none)
    (hplace : ∀ s target graph, (place s target graph).world =
      World.link addAction s.world target graph)
    (hrun : s.sNewAt numUnitSpecs defname nodeID (targetOf s.world addAction node) notFound place =
      (s', err)) : Ends fpu s it s' err := by
  rcases sNewAt_cases h hnotFound hplace hrun with
    ⟨hne, hsame, hrefused⟩ | ⟨hnone, hadmits, t, hidden, n, ht, hn, hworld⟩
  · refine .inl ⟨hne, hsame, ?_⟩
    rintro addAction' target ⟨defname', nodeID', hasks, -, -, hgroup, hadmits⟩
    obtain ⟨rfl, rfl, rfl, rfl⟩ := hasks.eq hname hid haction hnode
    rcases hrefused with hnone | hnot
    · unfold targetOf at hnone
      split_ifs at hnone with hends
      · simp [hgroup hends] at hnone
    · exact hnot hadmits
  · refine .inr ⟨hnone, addAction, t, defname, hidden, n, ⟨defname, nodeID, ?_, hdef, hfive, ?_,
      hadmits⟩, hn, hworld⟩
    · have hnode' : node = some t := by
        unfold targetOf at ht
        split_ifs at ht
        · exact (Option.filter_eq_some_iff.mp ht).1
        · exact ht
      exact ⟨msg₁, msg₂, msg₃, msg₄, hname, hid, haction, hnode' ▸ hnode⟩
    · intro hends
      unfold targetOf at ht
      rw [if_pos hends] at ht
      exact (Option.filter_eq_some_iff.mp ht).2

theorem methSNew_ends (h : s.world.Kept)
    (hrun : s.methSNew fpu numUnitSpecs it = some (s', err)) : Ends fpu s it s' err := by
  unfold methSNew at hrun
  simp only [Option.bind_eq_bind, Option.bind_eq_some_iff] at hrun
  obtain ⟨⟨defname, msg₁⟩, hname, hrun⟩ := hrun
  cases defname with
  | none =>
    cases hrun
    refine .inl ⟨by simp, ⟨rfl, rfl, rfl, rfl⟩, ?_⟩
    rintro addAction target ⟨defname, nodeID, ⟨_, _, _, _, hname', -⟩, -⟩
    rw [hname] at hname'
    cases hname'
  | some defname =>
    simp only [Option.bind_eq_some_iff] at hrun
    obtain ⟨⟨nodeID, msg₂⟩, hid, ⟨addAction, msg₃⟩, haction, hrun⟩ := hrun
    have hasks : ∀ {defname' : List Byte} {nodeID' addAction' : Word} {target : Option NodeID},
        Asks fpu s.world it defname' nodeID' addAction' target →
        defname' = defname ∧ addAction' = addAction := by
      rintro _ _ _ _ ⟨_, _, _, _, hname', hid', haction', -⟩
      rw [hname] at hname'
      cases hname'
      rw [hid] at hid'
      cases hid'
      rw [haction] at haction'
      cases haction'
      exact ⟨rfl, rfl⟩
    by_cases hdef : defname ∈ s.world.mGraphDefLib
    · rw [if_neg (not_not.mpr (hasGraphDef_iff.mpr hdef))] at hrun
      -- the target of each add action
      have hends : addAction = 0#32 ∨ addAction = 1#32 → targetOf s.world addAction =
          Option.filter fun n => (s.world.mNode n).mIsGroup := fun h => funext fun _ => if_pos h
      have hbeside : addAction ≠ 0#32 → addAction ≠ 1#32 → targetOf s.world addAction = id :=
        fun h0 h1 => funext fun _ => if_neg (not_or.mpr ⟨h0, h1⟩)
      by_cases h0 : addAction = 0#32
      · rw [if_pos h0] at hrun
        obtain ⟨group, hgroup, hnew⟩ := Option.bind_eq_some_iff.mp hrun
        obtain ⟨⟨node, msg₄⟩, hnode, hfilter⟩ := Option.bind_eq_some_iff.mp hgroup
        cases hfilter
        refine ends_sNewAt numUnitSpecs .groupNotFound (linked World.groupAddHead) h hname hid
          haction hnode hdef (.inl h0) (by simp) (fun _ _ _ => by rw [h0]; rfl) ?_
        rw [hends (.inl h0)]
        exact Option.some.inj hnew
      rw [if_neg h0] at hrun
      by_cases h1 : addAction = 1#32
      · rw [if_pos h1] at hrun
        obtain ⟨group, hgroup, hnew⟩ := Option.bind_eq_some_iff.mp hrun
        obtain ⟨⟨node, msg₄⟩, hnode, hfilter⟩ := Option.bind_eq_some_iff.mp hgroup
        cases hfilter
        refine ends_sNewAt numUnitSpecs .groupNotFound (linked World.groupAddTail) h hname hid
          haction hnode hdef (.inr (.inl h1)) (by simp) (fun _ _ _ => by rw [h1]; rfl) ?_
        rw [hends (.inr h1)]
        exact Option.some.inj hnew
      rw [if_neg h1] at hrun
      by_cases h2 : addAction = 2#32
      · rw [if_pos h2] at hrun
        obtain ⟨⟨node, msg₄⟩, hnode, hnew⟩ := Option.bind_eq_some_iff.mp hrun
        refine ends_sNewAt numUnitSpecs .nodeNotFound (linked fun w t n => w.nodeAddBefore n t) h
          hname hid haction hnode hdef (.inr (.inr (.inl h2))) (by simp)
          (fun _ _ _ => by rw [h2]; rfl) ?_
        rw [hbeside h0 h1]
        exact Option.some.inj hnew
      rw [if_neg h2] at hrun
      by_cases h3 : addAction = 3#32
      · rw [if_pos h3] at hrun
        obtain ⟨⟨node, msg₄⟩, hnode, hnew⟩ := Option.bind_eq_some_iff.mp hrun
        refine ends_sNewAt numUnitSpecs .nodeNotFound (linked fun w t n => w.nodeAddAfter n t) h
          hname hid haction hnode hdef (.inr (.inr (.inr (.inl h3)))) (by simp)
          (fun _ _ _ => by rw [h3]; rfl) ?_
        rw [hbeside h0 h1]
        exact Option.some.inj hnew
      rw [if_neg h3] at hrun
      by_cases h4 : addAction = 4#32
      · rw [if_pos h4] at hrun
        obtain ⟨⟨node, msg₄⟩, hnode, hnew⟩ := Option.bind_eq_some_iff.mp hrun
        refine ends_sNewAt numUnitSpecs .nodeNotFound (fun s t n => s.nodeReplace n t) h hname hid
          haction hnode hdef (.inr (.inr (.inr (.inr h4)))) (by simp)
          (fun s t n => by rw [h4]; exact world_nodeReplace s n t) ?_
        rw [hbeside h0 h1]
        exact Option.some.inj hnew
      -- no such add action
      rw [if_neg h4] at hrun
      cases hrun
      refine .inl ⟨by simp, ⟨rfl, rfl, rfl, rfl⟩, ?_⟩
      rintro _ target ⟨defname', nodeID', hasks', -, haction', -⟩
      rw [(hasks hasks').2] at haction'
      rcases haction' with heq | heq | heq | heq | heq
      · exact h0 heq
      · exact h1 heq
      · exact h2 heq
      · exact h3 heq
      · exact h4 heq
    · rw [if_pos (mt hasGraphDef_iff.mp hdef)] at hrun
      cases hrun
      refine .inl ⟨by simp, ⟨rfl, rfl, rfl, rfl⟩, ?_⟩
      rintro _ target ⟨defname', nodeID', hasks', hdef', -⟩
      exact hdef ((hasks hasks').1 ▸ hdef')

theorem Asks.unique {defname' : List Byte} {nodeID' addAction' : Word} {target : Option NodeID}
    (hasks : Asks fpu s.world it defname nodeID addAction node)
    (hasks' : Asks fpu s.world it defname' nodeID' addAction' target) :
    addAction' = addAction ∧ target = node := by
  obtain ⟨_, _, _, _, hname, hid, haction, hnode⟩ := hasks
  exact (hasks'.eq hname hid haction hnode).2.2

end Ends

theorem children_withHidden (w : World) (hidden : Word) (g : NodeID) :
    ({ w with mHiddenID := hidden } : World).children g = w.children g := by
  have hsiblings : ∀ (fuel : ℕ) (child : Option NodeID),
      ({ w with mHiddenID := hidden } : World).siblingsFrom fuel child =
        w.siblingsFrom fuel child := by
    intro fuel
    induction fuel with
    | zero => exact fun _ => rfl
    | succ fuel ih =>
      intro child
      cases child with
      | none => rfl
      | some child => exact congrArg (child :: ·) (ih (w.mNode child).mNext)
  exact hsiblings w.mNodeLib.card (w.mNode g).mHead

/-- The hidden ID that is used up does not matter. -/
theorem newSynth_withHidden {w w' : World} {hidden addAction : Word} {target n : NodeID}
    (h : World.NewSynth { w with mHiddenID := hidden } w' addAction target n) :
    w.NewSynth w' addAction target n := by
  have hplace := h.place
  simp only [children_withHidden] at hplace
  exact ⟨h.tree, h.fresh, h.synth, h.table, h.kinds, hplace⟩

theorem allOrNothing_of_apart (h : s.world.Kept)
    (hrun : s.methSNew fpu numUnitSpecs it = some (s', err))
    (happart : ∀ addAction, Accepts fpu s.world it addAction 0#32 →
      addAction = 0#32 ∨ addAction = 1#32) : AllOrNothing fpu s it s' err := by
  rcases methSNew_ends h hrun with ⟨hne, hsame, -⟩ |
    ⟨hnone, addAction, target, defname, hidden, n, haccepts, hn, hworld⟩
  · exact ⟨fun _ => hsame, fun hnone => absurd hnone hne⟩
  · refine ⟨fun hne => absurd hnone hne, fun _ => ?_⟩
    obtain ⟨defname', nodeID, hasks, -, haction, hgroup, -⟩ := id haccepts
    obtain ⟨_, _, _, _, -, -, -, hnode⟩ := id hasks
    have htarget := msgGetNode_mem h.tree hnode
    have hfits : s.world.FitsAdd addAction target := by
      unfold World.FitsAdd
      split_ifs with hends
      · exact ⟨htarget, hgroup hends⟩
      · refine ⟨htarget, ?_⟩
        rintro rfl
        exact hends (happart addAction haccepts)
    have hn0 := h.ne_root hn
    obtain ⟨kids, all, htree⟩ := h.tree
    have htree' : World.Rooted { s.world with mHiddenID := hidden } kids all :=
      ⟨⟨htree.root, htree.mem, htree.group, htree.complete, htree.nodup, htree.linked,
        htree.ends⟩, htree.spans, htree.once, htree.registered, htree.alone⟩
    refine ⟨defname', nodeID, addAction, target, n, hasks, ?_⟩
    rw [hworld]
    exact newSynth_withHidden (htree'.newSynth_link hn hn0 haction hfits)

theorem not_allOrNothing_beside (h : s.world.Kept)
    (hrun : s.methSNew fpu numUnitSpecs it = some (s', err)) {addAction : Word}
    (haccepts : Accepts fpu s.world it addAction 0#32)
    (hbeside : addAction ≠ 0#32 ∧ addAction ≠ 1#32) : ¬ AllOrNothing fpu s it s' err := by
  intro hall
  rcases methSNew_ends h hrun with ⟨-, -, hrefused⟩ |
    ⟨hnone, addAction', target, defname, hidden, n, haccepts', hn, hworld⟩
  · exact hrefused addAction 0#32 haccepts
  · obtain ⟨_, _, hasks, -, haction, -⟩ := haccepts
    obtain ⟨_, _, hasks', -⟩ := haccepts'
    obtain ⟨_, _, _, _, x, hasks'', hnew⟩ := hall.2 hnone
    obtain ⟨rfl, htarget⟩ := hasks.unique hasks'
    obtain ⟨rfl, htarget'⟩ := hasks.unique hasks''
    cases htarget
    cases htarget'
    have haction' := (haction.resolve_left hbeside.1).resolve_left hbeside.2
    obtain ⟨htree, hhidden⟩ := h
    have htree' : World.IsTree { s.world with mHiddenID := hidden } := by
      obtain ⟨kids, all, htree⟩ := htree
      exact ⟨kids, all, ⟨htree.root, htree.mem, htree.group, htree.complete, htree.nodup,
        htree.linked, htree.ends⟩, htree.spans, htree.once, htree.registered, htree.alone⟩
    rw [hworld] at hnew
    exact World.not_isTree_beside htree' hn haction' hnew.tree

/-- `/s_new` is all or nothing exactly when it is not an acceptable request for a synth beside the
root group, or in its place. -/
theorem allOrNothing_iff (fpu : FloatUnit) (numUnitSpecs : List Byte → Word) (s s' : CountedWorld)
    (it : MsgIter) (err : SCErr) (h : s.world.Kept)
    (hrun : s.methSNew fpu numUnitSpecs it = some (s', err)) :
    AllOrNothing fpu s it s' err ↔
      ∀ addAction, Accepts fpu s.world it addAction 0#32 →
        addAction = 0#32 ∨ addAction = 1#32 := by
  constructor
  · intro hall addAction haccepts
    by_contra hbeside
    exact not_allOrNothing_beside h hrun haccepts (not_or.mp hbeside) hall
  · exact allOrNothing_of_apart h hrun

/-! ## Two messages to a new world -/

theorem asks_at {name : CString} {nodeID addAction target : Word} {vs : List OSCValue}
    (h : it.At (.string name :: .int nodeID :: .int addAction :: .int target :: vs)) :
    Asks fpu s.world it name.bytes nodeID addAction (s.world.getNode target) :=
  ⟨_, _, _, _, MsgIter.At.gets h none, h.advance_string.geti 0#32,
    h.advance_string.advance_int.geti 0#32, msgGetNode_at h.advance_string.advance_int.advance_int⟩

def beep : CString := .ofString "beep"

/-- A world with one definition, and no synth. -/
def beepWorld : CountedWorld where
  world := .new kDefaultWorldOptions [beep.bytes]
  graphNumUnits := fun _ => 0#32
  counters := ⟨0#32, 0#32, 1#32⟩

/-- The request for a synth is performed. -/
theorem methSNew_beep (fpu : FloatUnit) (numUnitSpecs : List Byte → Word) (addAction : Word) :
    ∃ packet it s' err, (OSCMessage.ofValues (.ofString "/s_new")
        [.string beep, .int 1000#32, .int addAction, .int 0#32]).payload = some packet ∧
      openMessage packet = some it ∧
      beepWorld.methSNew fpu numUnitSpecs it = some (s', err) ∧
      Asks fpu beepWorld.world it beep.bytes 1000#32 addAction (some 0#32) := by
  rcases openMessage_ofValues (.ofString "/s_new")
    [.string beep, .int 1000#32, .int addAction, .int 0#32] rfl with ⟨packet, it, hp, hopen, hat, -⟩
  have hworld := world_methSNew fpu numUnitSpecs beepWorld it
  rw [methSNew_at hat] at hworld
  obtain ⟨⟨s', err⟩, hrun, -⟩ := Option.map_eq_some_iff.mp hworld
  exact ⟨packet, it, s', err, hp, hopen, hrun, asks_at hat⟩

theorem allOrNothing_iff_head : ∃ packet it s' err, (OSCMessage.ofValues (.ofString "/s_new")
      [.string beep, .int 1000#32, .int 0#32, .int 0#32]).payload = some packet ∧
    openMessage packet = some it ∧
    beepWorld.methSNew ⟨fun _ => 0#32, fun _ => 0#32, fun _ => 0#32⟩ (fun _ => 2#32) it =
      some (s', err) ∧
    AllOrNothing ⟨fun _ => 0#32, fun _ => 0#32, fun _ => 0#32⟩ beepWorld it s' err := by
  obtain ⟨packet, it, s', err, hp, hopen, hrun, hasks⟩ :=
    methSNew_beep ⟨fun _ => 0#32, fun _ => 0#32, fun _ => 0#32⟩ (fun _ => 2#32) 0#32
  refine ⟨packet, it, s', err, hp, hopen, hrun, ?_⟩
  apply (allOrNothing_iff _ _ beepWorld s' it err (kept_new _ _) hrun).mpr
  rintro addAction ⟨_, _, hasks', -⟩
  exact .inl (hasks.unique hasks').1

/-- `/s_new beep 1000 3 0`: the synth is made, and it is nowhere in the tree. -/
theorem not_allOrNothing_afterRoot :
    ¬ ∀ (fpu : FloatUnit) (numUnitSpecs : List Byte → Word) (s s' : CountedWorld) (it : MsgIter)
      (err : SCErr), s.world.Kept → s.methSNew fpu numUnitSpecs it = some (s', err) →
      AllOrNothing fpu s it s' err := by
  intro hall
  obtain ⟨packet, it, s', err, -, -, hrun, hasks⟩ :=
    methSNew_beep ⟨fun _ => 0#32, fun _ => 0#32, fun _ => 0#32⟩ (fun _ => 2#32) 3#32
  have hkept : beepWorld.world.Kept := kept_new _ _
  have hadmits : beepWorld.world.Admits 1000#32 := ⟨by decide, .inr ⟨by decide, by decide⟩⟩
  have haccepts : Accepts _ beepWorld.world it 3#32 0#32 :=
    ⟨beep.bytes, 1000#32, hasks, List.mem_singleton_self _, .inr (.inr (.inr (.inl rfl))),
      fun _ => rfl, hadmits⟩
  exact not_allOrNothing_beside hkept hrun haccepts (by decide) (hall _ _ _ _ _ _ hkept hrun)

end CountedWorld

end PoopWorms.Server
