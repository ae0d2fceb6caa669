import PoopWorms.Server.Commands
import PoopWorms.Server.MsgIterTheorems
import PoopWorms.Server.WorldTheorems

/-!
# What the client's messages do

The commands on the payloads that the client writes, in terms of the values of the message,
and their effect on the node tree.
-/

namespace PoopWorms.Server

open Octets Osc World

variable {fpu : FloatUnit} {w : World}

/-! ## From the bytes to the values -/

section Reads

variable {it : MsgIter} {n : Word} {vs : List OSCValue}

theorem MsgIter.At.advance_int (h : it.At (.int n :: vs)) : ((it.skip 4).next).At vs :=
  h.advance (chr 'i') rfl

theorem MsgIter.At.advance_string {s : CString} (h : it.At (.string s :: vs)) :
    ((it.skip (roundUp4 s.bytes.length)).next).At vs := h.advance (chr 's') rfl

/-- A node given by its ID. -/
theorem msgGetNode_at (h : it.At (.int n :: vs)) :
    msgGetNode fpu w it = some (w.getNode n, (it.skip 4).next) := by
  have htag := h.nextTag_eq (chr 'i') rfl
  have hne : ¬ (it.tags.isSome = true ∧ chr 'i' = chr 's') := fun hc => absurd hc.2 (by decide)
  unfold msgGetNode
  rw [htag]
  simp only [Option.bind_eq_bind, Option.bind_some, if_neg hne, h.geti]
  rfl

theorem getGroup_eq (w : World) (n : NodeID) :
    (w.getNode n).filter (fun x => (w.mNode x).mIsGroup) = w.getGroup n := by
  unfold World.getGroup
  cases w.getNode n with
  | none => rfl
  | some x => cases hx : (w.mNode x).mIsGroup <;> simp [Option.filter, hx]

theorem msgGetGroup_at (h : it.At (.int n :: vs)) :
    msgGetGroup fpu w it = some (w.getGroup n, (it.skip 4).next) := by
  unfold msgGetGroup
  rw [msgGetNode_at h]
  simp only [Option.bind_eq_bind, Option.bind_some, getGroup_eq]
  rfl

end Reads

theorem methSNew_at {it : MsgIter} {name : CString} {nodeID addAction target : Word}
    {vs : List OSCValue}
    (h : it.At (.string name :: .int nodeID :: .int addAction :: .int target :: vs)) :
    methSNew fpu w it = some (sNew w name.bytes nodeID addAction target) := by
  have h₁ := h.advance_string
  have h₂ := h₁.advance_int
  have h₃ := h₂.advance_int
  unfold methSNew sNew MsgIter.gets4
  rw [h.gets]
  simp only [Option.bind_eq_bind, Option.bind_some]
  rw [h₁.geti]
  simp only [Option.bind_some]
  rw [h₂.geti]
  simp only [Option.bind_some]
  split_ifs
  · rw [msgGetGroup_at h₃]
    rfl
  · rw [msgGetGroup_at h₃]
    rfl
  · rw [msgGetNode_at h₃]
    rfl
  · rw [msgGetNode_at h₃]
    rfl
  · rw [msgGetNode_at h₃]
    rfl
  · rfl
  · rfl

/-- `/g_new` of one group at the tail of another, on the values of the message. -/
def gNewTail (w : World) (newGroupID target : Word) : Option (World × SCErr) :=
  gNewAt w newGroupID (w.getGroup target) .groupNotFound
    (fun parent group => some (decide (parent = group))) World.groupAddTail

theorem MsgIter.At.remain_nil {it : MsgIter} (h : it.At []) : it.remain = 0 := by
  rw [h.remain_eq]
  rfl

/-- A loop whose one turn reads the whole message. -/
theorem whileRemain_once {one : World → MsgIter → Option ((World × SCErr) × MsgIter)}
    {it it' : MsgIter} {v : OSCValue} {vs : List OSCValue} (h : it.At (v :: vs))
    (hv : 0 < v.bufferLength) (h' : it'.At []) {r : World × SCErr}
    (hone : one w it = some (r, it')) :
    whileRemain one (it.size + 1) w it = some r := by
  have hremain := h.remain_pos hv
  have hsize : 0 < it.size := by
    unfold MsgIter.remain at hremain
    omega
  obtain ⟨k, hk⟩ : ∃ k, it.size = k + 1 := ⟨it.size - 1, by omega⟩
  have hturn : whileRemain one (k + 1) r.1 it' = some (r.1, .none) := by
    rw [whileRemain, if_pos h'.remain_nil]
  rw [whileRemain, if_neg (fun heq => hremain heq.le), hone, hk]
  simp only [Option.bind_eq_bind, Option.bind_some]
  by_cases herr : r.2 = .none
  · rw [if_pos herr, hturn, ← herr]
  · rw [if_neg herr]
    rfl

theorem methGNew_at {it : MsgIter} {newGroupID target : Word}
    (h : it.At [.int newGroupID, .int 1#32, .int target]) {r : World × SCErr}
    (hr : gNewTail w newGroupID target = some r) : methGNew fpu w it = some r := by
  have h₁ := h.advance_int
  have h₂ := h₁.advance_int
  have h₃ := h₂.advance_int
  have hne : ¬ 1#32 = 0#32 := by decide
  refine whileRemain_once h (Nat.zero_lt_succ 3) h₃ ?_
  unfold gNewOne
  rw [h.geti]
  simp only [Option.bind_eq_bind, Option.bind_some]
  rw [h₁.geti]
  simp only [Option.bind_some, if_neg hne, if_true]
  rw [msgGetGroup_at h₂]
  simp only [Option.bind_some]
  unfold gNewTail at hr
  rw [hr]
  rfl

/-- `/n_free` of one node. -/
def nFree (w : World) (nodeID : Word) : World × SCErr :=
  match w.getNode nodeID with
  | none => (w, .nodeNotFound)
  | some node => (w.nodeDelete node, .none)

/-- `/g_freeAll` of one group. -/
def gFreeAll (w : World) (groupID : Word) : World × SCErr :=
  match w.getGroup groupID with
  | none => (w, .groupNotFound)
  | some group => (w.groupDeleteAll group, .none)

theorem methNFree_at {it : MsgIter} {nodeID : Word} (h : it.At [.int nodeID]) :
    methNFree fpu w it = some (nFree w nodeID) := by
  refine whileRemain_once h (Nat.zero_lt_succ 3) h.advance_int ?_
  unfold nFreeOne nFree
  rw [msgGetNode_at h]
  simp only [Option.bind_eq_bind, Option.bind_some]
  cases w.getNode nodeID <;> rfl

theorem methGFreeAll_at {it : MsgIter} {groupID : Word} (h : it.At [.int groupID]) :
    methGFreeAll fpu w it = some (gFreeAll w groupID) := by
  refine whileRemain_once h (Nat.zero_lt_succ 3) h.advance_int ?_
  unfold gFreeAllOne gFreeAll
  rw [msgGetGroup_at h]
  simp only [Option.bind_eq_bind, Option.bind_some]
  cases w.getGroup groupID <;> rfl

/-! ## Whole messages -/

/-- The server finds the command by the address of the message. -/
theorem openMessage_ofValues (a : CString) (vs : List OSCValue)
    (hvs : (tagString vs).length = vs.length) :
    ∃ packet it, (OSCMessage.ofValues a vs).payload = some packet ∧ openMessage packet = some it ∧
      it.At vs ∧ packet.takeWhile (· ≠ 0#8) = (OSCMessage.slashed a).bytes := by
  rcases openMessage_payload a vs hvs with ⟨packet, it, hp, hopen, hat⟩
  refine ⟨packet, it, hp, hopen, hat, ?_⟩
  have hpacket := payload_ofValues a vs
  rw [hp, Option.some.injEq] at hpacket
  rw [hpacket, List.append_assoc, takeWhile_padded (OSCMessage.slashed a).ne_zero]

theorem perform_s_new (fpu : FloatUnit) (w : World) (name : CString)
    (nodeID addAction target : Word) (vs : List OSCValue)
    (hvs : (tagString vs).length = vs.length) :
    perform fpu w (.ofValues (.ofString "/s_new")
        (.string name :: .int nodeID :: .int addAction :: .int target :: vs))
      = some (sNew w name.bytes nodeID addAction target) := by
  rcases openMessage_ofValues (.ofString "/s_new")
    (.string name :: .int nodeID :: .int addAction :: .int target :: vs)
    (by simpa [OSCValue.tags] using hvs) with ⟨packet, it, hp, hopen, hat, hname⟩
  have hslash : OSCMessage.slashed (.ofString "/s_new") = .ofString "/s_new" := by decide
  rw [hslash] at hname
  unfold perform performOSCMessage
  rw [hp]
  simp only [Option.bind_eq_bind, Option.bind_some, hopen, hname, if_true]
  exact methSNew_at hat

theorem perform_g_new (fpu : FloatUnit) (w : World) (newGroupID target : Word) :
    ∀ r, gNewTail w newGroupID target = some r →
      perform fpu w (.ofValues (.ofString "/g_new")
        [.int newGroupID, .int 1#32, .int target]) = some r := by
  intro r hr
  rcases openMessage_ofValues (.ofString "/g_new")
    [.int newGroupID, .int 1#32, .int target] rfl with ⟨packet, it, hp, hopen, hat, hname⟩
  have hslash : OSCMessage.slashed (.ofString "/g_new") = .ofString "/g_new" := by decide
  have hne : ¬ (CString.ofString "/g_new").bytes = (CString.ofString "/s_new").bytes := by decide
  rw [hslash] at hname
  unfold perform performOSCMessage
  rw [hp]
  simp only [Option.bind_eq_bind, Option.bind_some, hopen, hname, if_neg hne, if_true]
  exact methGNew_at hat hr

theorem perform_g_freeAll (fpu : FloatUnit) (w : World) (groupID : Word) :
    perform fpu w (.ofValues (.ofString "/g_freeAll") [.int groupID])
      = some (gFreeAll w groupID) := by
  rcases openMessage_ofValues (.ofString "/g_freeAll") [.int groupID] rfl
    with ⟨packet, it, hp, hopen, hat, hname⟩
  have hslash : OSCMessage.slashed (.ofString "/g_freeAll") = .ofString "/g_freeAll" := by decide
  have hne₁ : ¬ (CString.ofString "/g_freeAll").bytes = (CString.ofString "/s_new").bytes := by
    decide
  have hne₂ : ¬ (CString.ofString "/g_freeAll").bytes = (CString.ofString "/g_new").bytes := by
    decide
  have hne₃ : ¬ (CString.ofString "/g_freeAll").bytes = (CString.ofString "/n_free").bytes := by
    decide
  rw [hslash] at hname
  unfold perform performOSCMessage
  rw [hp]
  simp only [Option.bind_eq_bind, Option.bind_some, hopen, hname, if_neg hne₁, if_neg hne₂,
    if_neg hne₃, if_true]
  exact methGFreeAll_at hat

theorem perform_n_free (fpu : FloatUnit) (w : World) (nodeID : Word) :
    perform fpu w (.ofValues (.ofString "/n_free") [.int nodeID]) = some (nFree w nodeID) := by
  rcases openMessage_ofValues (.ofString "/n_free") [.int nodeID] rfl
    with ⟨packet, it, hp, hopen, hat, hname⟩
  have hslash : OSCMessage.slashed (.ofString "/n_free") = .ofString "/n_free" := by decide
  have hne₁ : ¬ (CString.ofString "/n_free").bytes = (CString.ofString "/s_new").bytes := by
    decide
  have hne₂ : ¬ (CString.ofString "/n_free").bytes = (CString.ofString "/g_new").bytes := by
    decide
  rw [hslash] at hname
  unfold perform performOSCMessage
  rw [hp]
  simp only [Option.bind_eq_bind, Option.bind_some, hopen, hname, if_neg hne₁, if_neg hne₂, if_true]
  exact methNFree_at hat

/-! ## What becomes of the tree -/

section Tree

variable {kids : NodeID → List NodeID} {g id target : NodeID} {defname : List Byte}
  {l₁ l₂ : List NodeID}

theorem getNode_eq_some (hpos : 0 ≤ target.toInt) (h : target ∈ w.mNodeLib) :
    w.getNode target = some target := by
  have hne : target ≠ -1#32 := by
    intro heq
    subst heq
    exact absurd hpos (by decide)
  unfold World.getNode
  simp only [if_neg hne, if_pos h]

theorem getNode_eq_none (hpos : 0 ≤ target.toInt) (h : target ∉ w.mNodeLib) :
    w.getNode target = none := by
  have hne : target ≠ -1#32 := by
    intro heq
    subst heq
    exact absurd hpos (by decide)
  unfold World.getNode
  simp only [if_neg hne, if_neg h]

theorem getGroup_eq_some (hpos : 0 ≤ target.toInt) (h : target ∈ w.mNodeLib)
    (hgroup : (w.mNode target).mIsGroup) : w.getGroup target = some target := by
  unfold World.getGroup
  rw [getNode_eq_some hpos h]
  simp [hgroup]

/-- An ID that a client may use and that is not in use. -/
def Fresh (w : World) (id : NodeID) : Prop := 0 < id.toInt ∧ id ∉ w.mNodeLib

theorem Fresh.ne_zero (h : Fresh w id) : id ≠ 0#32 := by
  intro heq
  subst heq
  exact absurd h.1 (by decide)

theorem mNode_register_of_mem (hid : id ∉ w.mNodeLib) {x : NodeID} (hx : x ∈ w.mNodeLib)
    (mDef : List Byte) (mIsGroup : Bool) :
    (w.register id mDef mIsGroup).mNode x = w.mNode x := by
  have hne : x ≠ id := fun heq => hid (heq ▸ hx)
  exact Function.update_of_ne hne _ _

/-- `/s_new` where `Node_New` refuses the node. -/
theorem sNewAt_refused {err : SCErr} (hnew : w.nodeNew defname id = .error (err, w)) (n : NodeID)
    (notFound : SCErr) (place : World → NodeID → NodeID → World) :
    sNewAt w defname id (some n) notFound place = (w, err) := by
  unfold sNewAt World.graphNew
  rw [hnew]

theorem sNewAt_room (hid : Fresh w id) (hroom : w.mNodeLib.card < w.mMaxNodes) (n : NodeID)
    (notFound : SCErr) (place : World → NodeID → NodeID → World) :
    sNewAt w defname id (some n) notFound place
      = (place (w.register id defname false) n id, .none) := by
  unfold sNewAt World.graphNew
  rw [nodeNew_eq_ok defname hid.1.le hid.2 hroom]

/-- `/s_new` at the head of a group. -/
theorem sNew_head (h : World.Tree w kids) (hdef : defname ∈ w.mGraphDefLib) (hid : Fresh w id)
    (hroom : w.mNodeLib.card < w.mMaxNodes) (hgpos : 0 ≤ g.toInt) (hg : g ∈ w.mNodeLib)
    (hgroup : (w.mNode g).mIsGroup) :
    sNew w defname id 0#32 g
      = ((w.register id defname false).insertAt g id [] (kids g), .none) := by
  have hgid : id ≠ g := fun heq => hid.2 (heq ▸ hg)
  have hreg := h.register hid.2 defname false
  unfold sNew
  rw [if_neg (by simp [hdef]), if_pos rfl, getGroup_eq_some hgpos hg hgroup,
    sNewAt_room hid hroom]
  rw [groupAddHead_eq hreg (Finset.mem_insert_of_mem hg)
    (by rw [mNode_register_of_mem hid.2 hg]; exact hgroup) hid.ne_zero hgid
    (by simp [World.register])]

/-- `/s_new` at the tail of a group. -/
theorem sNew_tail (h : World.Tree w kids) (hdef : defname ∈ w.mGraphDefLib) (hid : Fresh w id)
    (hroom : w.mNodeLib.card < w.mMaxNodes) (hgpos : 0 ≤ g.toInt) (hg : g ∈ w.mNodeLib)
    (hgroup : (w.mNode g).mIsGroup) :
    sNew w defname id 1#32 g
      = ((w.register id defname false).insertAt g id (kids g) [], .none) := by
  have hgid : id ≠ g := fun heq => hid.2 (heq ▸ hg)
  have hreg := h.register hid.2 defname false
  unfold sNew
  rw [if_neg (by simp [hdef]), if_neg (by decide), if_pos rfl,
    getGroup_eq_some hgpos hg hgroup, sNewAt_room hid hroom]
  rw [groupAddTail_eq hreg (Finset.mem_insert_of_mem hg)
    (by rw [mNode_register_of_mem hid.2 hg]; exact hgroup) hid.ne_zero hgid
    (by simp [World.register])]

/-- `/s_new` in front of a node of a group. -/
theorem sNew_before (h : World.Tree w kids) (hdef : defname ∈ w.mGraphDefLib) (hid : Fresh w id)
    (hroom : w.mNodeLib.card < w.mMaxNodes) (htpos : 0 ≤ target.toInt)
    (hkids : kids g = l₁ ++ target :: l₂) :
    sNew w defname id 2#32 target
      = ((w.register id defname false).insertAt g id l₁ (target :: l₂), .none) := by
  have ht := h.mem g target (by simp [hkids])
  have hreg := h.register hid.2 defname false
  unfold sNew
  rw [if_neg (by simp [hdef]), if_neg (by decide), if_neg (by decide), if_pos rfl,
    getNode_eq_some htpos ht.1, sNewAt_room hid hroom]
  rw [nodeAddBefore_eq hreg hkids hid.ne_zero (by simp [World.register])]

/-- `/s_new` in the place of a synth of a group. -/
theorem sNew_replace (h : World.Tree w kids) (hdef : defname ∈ w.mGraphDefLib)
    (hid : Fresh w id) (hroom : w.mNodeLib.card < w.mMaxNodes) (htpos : 0 ≤ target.toInt)
    (hkids : kids g = l₁ ++ target :: l₂) (hsynth : (w.mNode target).mIsGroup = false) :
    sNew w defname id 4#32 target
      = (((w.register id defname false).eraseAt g target l₁ l₂).insertAt g id l₁ l₂
          |>.deregister target, .none) := by
  have ht := h.mem g target (by simp [hkids])
  have hreg := h.register hid.2 defname false
  unfold sNew
  rw [if_neg (by simp [hdef]), if_neg (by decide), if_neg (by decide), if_neg (by decide),
    if_neg (by decide), if_pos rfl, getNode_eq_some htpos ht.1, sNewAt_room hid hroom]
  rw [nodeReplace_eq hreg hkids (by rw [mNode_register_of_mem hid.2 ht.1]; exact hsynth)
    hid.ne_zero (by simp [World.register])]

/-- `/g_new` at the tail of a group. -/
theorem gNewTail_eq (h : World.Tree w kids) (hid : Fresh w id)
    (hroom : w.mNodeLib.card < w.mMaxNodes) (hgpos : 0 ≤ g.toInt) (hg : g ∈ w.mNodeLib)
    (hgroup : (w.mNode g).mIsGroup) :
    gNewTail w id g
      = some ((w.register id groupDefName true).insertAt g id (kids g) [], .none) := by
  have hgid : id ≠ g := fun heq => hid.2 (heq ▸ hg)
  have hreg := h.register hid.2 groupDefName true
  have hnew : w.groupNew id = .ok (w.register id groupDefName true, id) := by
    unfold World.groupNew
    rw [nodeNew_eq_ok groupDefName hid.1.le hid.2 hroom]
    simp only [Except.ok.injEq, Prod.mk.injEq, and_true]
    refine World.ext (funext fun x => ?_) rfl rfl rfl rfl rfl
    by_cases hx : x = id <;> simp [mNode_modify, World.register, hx]
  unfold gNewTail gNewAt
  rw [getGroup_eq_some hgpos hg hgroup]
  simp only [hnew]
  rw [groupAddTail_eq hreg (Finset.mem_insert_of_mem hg)
    (by rw [mNode_register_of_mem hid.2 hg]; exact hgroup) hid.ne_zero hgid
    (by simp [World.register])]

/-- `/g_new` into a full table. -/
theorem gNewTail_full (hid : Fresh w id) (hfull : w.mMaxNodes ≤ w.mNodeLib.card)
    (hgpos : 0 ≤ g.toInt) (hg : g ∈ w.mNodeLib) (hgroup : (w.mNode g).mIsGroup) :
    gNewTail w id g = some (w, .tooManyNodes) := by
  have hnew : w.groupNew id = .error (.tooManyNodes, w) := by
    unfold World.groupNew
    rw [nodeNew_eq_error groupDefName hid.1.le hid.2 hfull]
  unfold gNewTail gNewAt
  rw [getGroup_eq_some hgpos hg hgroup]
  simp only [hnew]

end Tree

end PoopWorms.Server
