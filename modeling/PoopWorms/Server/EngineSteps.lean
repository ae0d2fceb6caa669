import PoopWorms.Server.EngineFrees

/-!
# What one step of a cycle does

A step of the traversal is made of a few effects: a node is ended or paused, nodes are freed,
a unit is called, a loop ends, a node gets its turn. Every step has a result, and what each
effect keeps is kept by the step.
-/

namespace PoopWorms.Server

open Forest LinkedList World

/-! ## Done actions as lists of operations -/

/-- What done actions are made of. -/
inductive DoneOp
  | nodeEnd (n : NodeID)
  | nodePause (n : NodeID)
  | groupDeleteAll (g : NodeID)
  | groupDeepFreeGraphs (g : NodeID)
deriving DecidableEq

namespace World

/-- The node and those that follow it along `dir`. -/
def siblingsAlong (w : World) (dir : Node → Option NodeID) : ℕ → Option NodeID → List NodeID
  | 0, _ => []
  | _ + 1, none => []
  | fuel + 1, some n => n :: siblingsAlong w dir fuel (dir (w.mNode n))

/-- What a done action does to a neighbour. -/
def neighbourOps (w : World) (onGroup : NodeID → DoneOp) (side : Option NodeID) : List DoneOp :=
  side.toList.map fun n => if (w.mNode n).mIsGroup then onGroup n else .nodeEnd n

/-- The operations of `Unit_DoneAction`, for a unit of the synth `s`. -/
def doneOps (w : World) (s : NodeID) (doneAction : ℕ) : List DoneOp :=
  match doneAction with
  | 1 => [.nodePause s]
  | 2 => [.nodeEnd s]
  | 3 => .nodeEnd s :: (w.mNode s).mPrev.toList.map .nodeEnd
  | 4 => .nodeEnd s :: (w.mNode s).mNext.toList.map .nodeEnd
  | 5 => .nodeEnd s :: w.neighbourOps .groupDeleteAll (w.mNode s).mPrev
  | 6 => .nodeEnd s :: w.neighbourOps .groupDeleteAll (w.mNode s).mNext
  | 7 => (w.siblingsAlong Node.mPrev (w.mNodeLib.card + 1) (some s)).map .nodeEnd
  | 8 => (w.siblingsAlong Node.mNext (w.mNodeLib.card + 1) (some s)).map .nodeEnd
  | 9 => .nodeEnd s :: (w.mNode s).mPrev.toList.map .nodePause
  | 10 => .nodeEnd s :: (w.mNode s).mNext.toList.map .nodePause
  | 11 => .nodeEnd s :: w.neighbourOps .groupDeepFreeGraphs (w.mNode s).mPrev
  | 12 => .nodeEnd s :: w.neighbourOps .groupDeepFreeGraphs (w.mNode s).mNext
  | 13 => (w.mNode s).mParent.toList.flatMap fun parent =>
      (w.siblingsAlong Node.mNext (w.mNodeLib.card + 1) (w.mNode parent).mHead).map .nodeEnd
  | 14 => (w.mNode s).mParent.toList.map .nodeEnd
  | _ => []

variable {w : World} {kids : NodeID → List NodeID} {g s : NodeID} {l₁ l₂ : List NodeID}

/-- Along `mNext` come the rest of the children. -/
theorem siblingsAlong_next (h : Tree w kids) (hkids : kids g = l₁ ++ l₂) (fuel : ℕ)
    (hfuel : l₂.length < fuel) : w.siblingsAlong Node.mNext fuel l₂.head? = l₂ := by
  induction l₂ generalizing l₁ fuel with
  | nil =>
    cases fuel with
    | zero => simp at hfuel
    | succ fuel => rfl
  | cons x xs ih =>
    cases fuel with
    | zero => simp at hfuel
    | succ fuel =>
      rw [List.length_cons] at hfuel
      rw [List.head?_cons, siblingsAlong, (h.neighbours hkids).2.2]
      rw [ih (show kids g = (l₁ ++ [x]) ++ xs by rw [hkids]; simp) fuel (by omega)]

/-- Along `mPrev` come the children before, last to first. -/
theorem siblingsAlong_prev (h : Tree w kids) (hkids : kids g = l₁ ++ l₂) (fuel : ℕ)
    (hfuel : l₁.length < fuel) : w.siblingsAlong Node.mPrev fuel l₁.getLast? = l₁.reverse := by
  induction l₁ using List.reverseRecOn generalizing l₂ fuel with
  | nil =>
    cases fuel with
    | zero => simp at hfuel
    | succ fuel => rfl
  | append_singleton xs x ih =>
    cases fuel with
    | zero => simp at hfuel
    | succ fuel =>
      rw [List.length_append, List.length_singleton] at hfuel
      have hcut : kids g = xs ++ x :: l₂ := by
        rw [hkids]
        simp
      rw [List.getLast?_append, List.getLast?_singleton, Option.some_or, siblingsAlong,
        (h.neighbours hcut).2.1, ih hcut fuel (by omega), List.reverse_append]
      rfl

end World

namespace Engine

variable {e e' : Engine} {kids : NodeID → List NodeID} {g n s : NodeID}

def performOp (e : Engine) : DoneOp → Option Engine
  | .nodeEnd n => e.nodeEnd n
  | .nodePause n => e.nodeSetRun n 0
  | .groupDeleteAll g => e.groupDeleteAll g
  | .groupDeepFreeGraphs g => e.groupDeepFreeGraphs g

def performOps (e : Engine) : List DoneOp → Option Engine
  | [] => some e
  | op :: ops => do
    let e ← e.performOp op
    e.performOps ops

theorem setCalcFunc_self (e : Engine) (n : NodeID) (f : NodeCalcFunc) :
    (e.setCalcFunc n f).graph n = { e.graph n with mCalcFunc := f } := Function.update_self ..

theorem setCalcFunc_of_ne (e : Engine) {m : NodeID} (hm : m ≠ n) (f : NodeCalcFunc) :
    (e.setCalcFunc n f).graph m = e.graph m := Function.update_of_ne hm ..

theorem nodeEnd_eq (hn : n ∈ e.world.mNodeLib) :
    e.nodeEnd n = some ((e.setCalcFunc n .nodeDelete).record (.ended n)) := by
  unfold nodeEnd
  rw [touch_eq hn]
  rfl

/-- `Node_SetRun` with a zero. -/
def pause (e : Engine) (n : NodeID) : Engine :=
  (e.setCalcFunc n ((e.graph n).mCalcFunc.setRun (e.world.mNode n).mIsGroup 0)).record (.paused n)

theorem nodeSetRun_zero (hn : n ∈ e.world.mNodeLib) (hsides : Sides e.world n) :
    e.nodeSetRun n 0 = some (e.pause n) := by
  unfold nodeSetRun
  rw [touch_eq hn]
  simp only [Option.bind_eq_bind, Option.bind_some]
  rw [nodeStateMsg_eq hn hsides, ite_self]
  rfl

theorem forSome_eq (side : Option NodeID) (f : Engine → NodeID → Option Engine)
    (op : NodeID → DoneOp) (hop : ∀ n, side = some n → f e n = e.performOp (op n)) :
    e.forSome side f = e.performOps (side.toList.map op) := by
  cases side with
  | none => rfl
  | some n =>
    show f e n = (e.performOp (op n)).bind fun e => some e
    rw [hop n rfl]
    exact (Option.bind_fun_some _).symm

theorem noteCall_graph (e : Engine) (x : NodeID) : (e.noteCall x).graph = e.graph := by
  unfold noteCall
  split_ifs <;> rfl

theorem noteCall_world (e : Engine) (x : NodeID) : (e.noteCall x).world = e.world := by
  unfold noteCall
  split_ifs <;> rfl

theorem noteCall_stack (e : Engine) (x : NodeID) : (e.noteCall x).stack = e.stack := by
  unfold noteCall
  split_ifs <;> rfl

/-- Ending along a list of live siblings. -/
theorem endFrom_eq (dir : Node → Option NodeID) (fuel : ℕ) (n : Option NodeID)
    (hlen : (e.world.siblingsAlong dir fuel n).length < fuel)
    (hlive : ∀ x ∈ e.world.siblingsAlong dir fuel n, x ∈ e.world.mNodeLib) :
    endFrom dir fuel e n = e.performOps ((e.world.siblingsAlong dir fuel n).map .nodeEnd) := by
  induction fuel generalizing e n with
  | zero => simp at hlen
  | succ fuel ih =>
    cases n with
    | none => rfl
    | some n =>
      rw [siblingsAlong, List.length_cons] at hlen
      rw [siblingsAlong] at hlive
      have hn := hlive n List.mem_cons_self
      rw [siblingsAlong, List.map_cons, endFrom, touch_eq hn, performOps]
      show (e.nodeEnd n).bind _ = (e.nodeEnd n).bind _
      rw [nodeEnd_eq hn, Option.bind_some, Option.bind_some]
      exact ih (e := (e.setCalcFunc n .nodeDelete).record (.ended n)) _
        (Nat.lt_of_succ_lt_succ hlen) fun x hx => hlive x (List.mem_cons_of_mem _ hx)

/-- An operation that may be performed while a unit of `s`, in the group `g`, is called. -/
def OpOk (w : World) (kids : NodeID → List NodeID) (g s : NodeID) : DoneOp → Prop
  | .nodeEnd n => n ∈ w.mNodeLib
  | .nodePause n => n ∈ w.mNodeLib
  | .groupDeleteAll y => y ∈ kids g ∧ y ≠ s ∧ (w.mNode y).mIsGroup = true
  | .groupDeepFreeGraphs y => y ∈ kids g ∧ y ≠ s ∧ (w.mNode y).mIsGroup = true

/-- Nodes are freed by the last operation only. -/
def OpsOk (w : World) (kids : NodeID → List NodeID) (g s : NodeID) : List DoneOp → Prop
  | [] => True
  | [op] => OpOk w kids g s op
  | op :: ops => ((∃ n ∈ w.mNodeLib, op = .nodeEnd n) ∨ ∃ n ∈ w.mNodeLib, op = .nodePause n) ∧
    OpsOk w kids g s ops

theorem opsOk_nodeEnd {l : List NodeID} {w : World} (hl : ∀ n ∈ l, n ∈ w.mNodeLib) :
    OpsOk w kids g s (l.map .nodeEnd) := by
  induction l with
  | nil => trivial
  | cons x xs ih =>
    have hx := hl x List.mem_cons_self
    have hxs := ih fun n hn => hl n (List.mem_cons_of_mem _ hn)
    cases xs with
    | nil => exact hx
    | cons y ys => exact ⟨.inl ⟨x, hx, rfl⟩, hxs⟩

/-- What a done action finds in the tree. -/
structure DoneSite (w : World) (kids : NodeID → List NodeID) (g s : NodeID) : Prop where
  live : s ∈ w.mNodeLib
  parent : (w.mNode s).mParent = some g
  group : g ∈ w.mNodeLib
  sibling : ∀ n, (w.mNode s).mPrev = some n ∨ (w.mNode s).mNext = some n →
    n ∈ w.mNodeLib ∧ n ∈ kids g ∧ n ≠ s
  before : (w.siblingsAlong Node.mPrev (w.mNodeLib.card + 1) (some s)).length < w.mNodeLib.card + 1 ∧
    ∀ n ∈ w.siblingsAlong Node.mPrev (w.mNodeLib.card + 1) (some s), n ∈ w.mNodeLib
  after : (w.siblingsAlong Node.mNext (w.mNodeLib.card + 1) (some s)).length < w.mNodeLib.card + 1 ∧
    ∀ n ∈ w.siblingsAlong Node.mNext (w.mNodeLib.card + 1) (some s), n ∈ w.mNodeLib
  siblings : (w.siblingsAlong Node.mNext (w.mNodeLib.card + 1) (w.mNode g).mHead).length <
      w.mNodeLib.card + 1 ∧
    ∀ n ∈ w.siblingsAlong Node.mNext (w.mNodeLib.card + 1) (w.mNode g).mHead, n ∈ w.mNodeLib

theorem doneSite {w : World} (h : Listed w kids) (hs : s ∈ kids g) : DoneSite w kids g s := by
  obtain ⟨l₁, l₂, hkids⟩ := List.append_of_mem hs
  obtain ⟨hparent, hprev, hnext⟩ := h.toTree.neighbours hkids
  obtain ⟨hg, hgroup⟩ := h.group g (by simp [hkids])
  have hlen := h.toTree.length_kids_le g
  have hlive : ∀ n ∈ kids g, n ∈ w.mNodeLib := fun n hn => (h.mem g n hn).1
  have hnd := h.nodup g
  rw [hkids, List.length_append, List.length_cons] at hlen
  rw [hkids, List.nodup_append, List.nodup_cons] at hnd
  have hcut : kids g = (l₁ ++ [s]) ++ l₂ := by
    rw [hkids]
    simp
  have hlast : (l₁ ++ [s]).getLast? = some s := by simp
  have hbefore := siblingsAlong_prev h.toTree hcut (w.mNodeLib.card + 1) (by simp; omega)
  have hafter := siblingsAlong_next h.toTree hkids (w.mNodeLib.card + 1) (by simp; omega)
  have hall := siblingsAlong_next h.toTree (List.nil_append (kids g)).symm (w.mNodeLib.card + 1)
    (by rw [hkids]; simp; omega)
  rw [hlast] at hbefore
  rw [List.head?_cons] at hafter
  rw [← (h.ends g hg hgroup).1] at hall
  constructor
  · exact hlive s hs
  · exact hparent
  · exact hg
  · rintro n (hn | hn)
    · rw [hprev] at hn
      have hmem := List.mem_of_getLast? hn
      have hkid : n ∈ kids g := by simp [hkids, hmem]
      refine ⟨hlive n hkid, hkid, ?_⟩
      rintro rfl
      exact hnd.2.2 n hmem n List.mem_cons_self rfl
    · rw [hnext] at hn
      have hmem := List.mem_of_head? hn
      have hkid : n ∈ kids g := by simp [hkids, hmem]
      refine ⟨hlive n hkid, hkid, ?_⟩
      rintro rfl
      exact hnd.2.1.1 hmem
  · rw [hbefore]
    refine ⟨by simp; omega, fun n hn => hlive n ?_⟩
    rw [hcut]
    exact List.mem_append_left _ (List.mem_reverse.mp hn)
  · rw [hafter]
    refine ⟨by simp; omega, fun n hn => hlive n ?_⟩
    rw [hkids]
    exact List.mem_append_right _ hn
  · rw [hall]
    exact ⟨by rw [hkids]; simp; omega, hlive⟩

theorem opsOk_neighbour {w : World} (hsite : DoneSite w kids g s) {side : Option NodeID}
    (hside : ∀ n, side = some n → (w.mNode s).mPrev = some n ∨ (w.mNode s).mNext = some n)
    {onGroup : NodeID → DoneOp} (hgroup : ∀ y, y ∈ kids g ∧ y ≠ s ∧ (w.mNode y).mIsGroup = true →
      OpOk w kids g s (onGroup y)) :
    OpsOk w kids g s (.nodeEnd s :: w.neighbourOps onGroup side) := by
  cases side with
  | none => exact hsite.live
  | some n =>
    obtain ⟨hn, hkid, hne⟩ := hsite.sibling n (hside n rfl)
    refine ⟨.inl ⟨s, hsite.live, rfl⟩, ?_⟩
    show OpOk w kids g s (if (w.mNode n).mIsGroup then onGroup n else .nodeEnd n)
    split_ifs with hisGroup
    · exact hgroup n ⟨hkid, hne, hisGroup⟩
    · exact hn

theorem opsOk_doneOps {w : World} (hsite : DoneSite w kids g s) (doneAction : ℕ) :
    OpsOk w kids g s (w.doneOps s doneAction) := by
  have hends : ∀ side : Option NodeID,
      (∀ n, side = some n → (w.mNode s).mPrev = some n ∨ (w.mNode s).mNext = some n) →
      OpsOk w kids g s ((s :: side.toList).map .nodeEnd) := by
    intro side hside
    apply opsOk_nodeEnd
    intro n hn
    rcases List.mem_cons.mp hn with rfl | hn
    · exact hsite.live
    · exact (hsite.sibling n (hside n (Option.mem_toList.mp hn))).1
  have hpauses : ∀ side : Option NodeID,
      (∀ n, side = some n → (w.mNode s).mPrev = some n ∨ (w.mNode s).mNext = some n) →
      OpsOk w kids g s (.nodeEnd s :: side.toList.map .nodePause) := by
    intro side hside
    cases side with
    | none => exact hsite.live
    | some n => exact ⟨.inl ⟨s, hsite.live, rfl⟩, (hsite.sibling n (hside n rfl)).1⟩
  unfold World.doneOps
  split
  · exact hsite.live
  · exact hsite.live
  · exact hends _ fun n hn => .inl hn
  · exact hends _ fun n hn => .inr hn
  · exact opsOk_neighbour hsite (fun n hn => .inl hn) fun y hy => hy
  · exact opsOk_neighbour hsite (fun n hn => .inr hn) fun y hy => hy
  · exact opsOk_nodeEnd hsite.before.2
  · exact opsOk_nodeEnd hsite.after.2
  · exact hpauses _ fun n hn => .inl hn
  · exact hpauses _ fun n hn => .inr hn
  · exact opsOk_neighbour hsite (fun n hn => .inl hn) fun y hy => hy
  · exact opsOk_neighbour hsite (fun n hn => .inr hn) fun y hy => hy
  · rw [hsite.parent]
    show OpsOk w kids g s (List.flatMap _ [g])
    rw [List.flatMap_singleton]
    exact opsOk_nodeEnd hsite.siblings.2
  · rw [hsite.parent]
    exact hsite.group
  · trivial

theorem groupOrEnd_eq (onGroup : Engine → NodeID → Option Engine) (op : NodeID → DoneOp)
    (hn : n ∈ e.world.mNodeLib) (hop : onGroup e n = e.performOp (op n)) :
    groupOrEnd onGroup e n =
      e.performOp (if (e.world.mNode n).mIsGroup then op n else .nodeEnd n) := by
  unfold groupOrEnd
  rw [touch_eq hn]
  simp only [Option.bind_eq_bind, Option.bind_some]
  split_ifs
  · exact hop
  · rfl

/-- Ending the synth, and then something with a neighbour. -/
theorem nodeEnd_forSome (hsite : DoneSite e.world kids g s) {side : Option NodeID}
    (f : Engine → NodeID → Option Engine) (op : NodeID → DoneOp)
    (hop : ∀ e', e'.world = e.world → ∀ n, side = some n → f e' n = e'.performOp (op n)) :
    ((e.nodeEnd s).bind fun e => e.forSome side f) =
      e.performOps (.nodeEnd s :: side.toList.map op) := by
  show _ = (e.nodeEnd s).bind _
  rw [nodeEnd_eq hsite.live, Option.bind_some, Option.bind_some]
  exact forSome_eq side f op (hop _ rfl)

/-- A done action performs its operations. -/
theorem unitDoneAction_eq (hsite : DoneSite e.world kids g s) (doneAction : ℕ) :
    e.unitDoneAction s doneAction = e.performOps (e.world.doneOps s doneAction) := by
  have hside : ∀ (op : NodeID → DoneOp) (onGroup : Engine → NodeID → Option Engine),
      (∀ e n, onGroup e n = e.performOp (op n)) → ∀ side : Option NodeID,
      (∀ n, side = some n → (e.world.mNode s).mPrev = some n ∨ (e.world.mNode s).mNext = some n) →
      ((e.nodeEnd s).bind fun e => e.forSome side (groupOrEnd onGroup)) =
        e.performOps (.nodeEnd s :: e.world.neighbourOps op side) := by
    intro op onGroup hop side hneighbour
    apply nodeEnd_forSome hsite
    intro e' hworld n hn
    have hlive := (hsite.sibling n (hneighbour n hn)).1
    rw [← hworld] at hlive ⊢
    exact groupOrEnd_eq onGroup op hlive (hop e' n)
  have hlast : ∀ op, e.performOps [op] = e.performOp op := by
    intro op
    exact Option.bind_fun_some _
  unfold unitDoneAction World.doneOps
  rw [touch_eq hsite.live]
  simp only [Option.bind_eq_bind, Option.bind_some]
  split
  · exact (hlast (.nodePause s)).symm
  · exact (hlast (.nodeEnd s)).symm
  · exact nodeEnd_forSome hsite _ _ fun _ _ _ _ => rfl
  · exact nodeEnd_forSome hsite _ _ fun _ _ _ _ => rfl
  · exact hside .groupDeleteAll groupDeleteAll (fun _ _ => rfl) _ fun n hn => .inl hn
  · exact hside .groupDeleteAll groupDeleteAll (fun _ _ => rfl) _ fun n hn => .inr hn
  · exact endFrom_eq _ _ _ hsite.before.1 hsite.before.2
  · exact endFrom_eq _ _ _ hsite.after.1 hsite.after.2
  · exact nodeEnd_forSome hsite _ _ fun _ _ _ _ => rfl
  · exact nodeEnd_forSome hsite _ _ fun _ _ _ _ => rfl
  · exact hside .groupDeepFreeGraphs groupDeepFreeGraphs (fun _ _ => rfl) _ fun n hn => .inl hn
  · exact hside .groupDeepFreeGraphs groupDeepFreeGraphs (fun _ _ => rfl) _ fun n hn => .inr hn
  · rw [hsite.parent, Option.bind_some, touch_eq hsite.group, Option.bind_some]
    show _ = e.performOps (List.flatMap _ [g])
    rw [List.flatMap_singleton]
    exact endFrom_eq _ _ _ hsite.siblings.1 hsite.siblings.2
  · rw [hsite.parent]
    exact (hlast (.nodeEnd g)).symm
  · -- no done action
    first
    | rfl
    | split <;> first | contradiction | rfl

end Engine

end PoopWorms.Server
