import PoopWorms.Server.EngineSteps

/-!
# The traversal of the node tree

`Config` adds to the engine the lists of children, the path of nodes that the loops are in,
and the nodes that are still to come. `Effect` lists all that can happen in a step, and
`step_effects` says that a step has a result and is made of effects. What every effect keeps
is therefore kept by every step.
-/

namespace PoopWorms.Server

open Forest LinkedList World

/-- The function is one for groups, or one for synths. -/
def NodeCalcFunc.fits (mIsGroup : Bool) : NodeCalcFunc → Bool
  | .nodeNullCalc => true
  | .nodeDelete => true
  | .graphFirstCalc => !mIsGroup
  | .graphNullFirstCalc => !mIsGroup
  | .graphCalc => !mIsGroup
  | .graphCalcTrace => !mIsGroup
  | _ => mIsGroup

namespace Engine

variable {isGroup : NodeID → Bool} {kids : NodeID → List NodeID} {g n s x y : NodeID}
  {F a all b below path pend rest : List NodeID} {stack : List Frame} {f : NodeCalcFunc}

/-! ## The loops in progress -/

/-- The loops in progress, the nodes that they are in, innermost first, and the nodes that they
are still to come to, with all below those. -/
inductive Loops (isGroup : NodeID → Bool) (kids : NodeID → List NodeID) :
    List Frame → List NodeID → List NodeID → Prop
  | idle : Loops isGroup kids [] [] []
  | group {f : NodeCalcFunc} {g : NodeID} {stack : List Frame} {path pend done l a : List NodeID}
      (hloops : Loops isGroup kids stack path pend) (hplace : ∀ p, path.head? = some p → g ∈ kids p)
      (hf : f.fits true) (hg : isGroup g = true) (hkids : kids g = done ++ l)
      (hspans : Spans kids l a) :
      Loops isGroup kids (.group f g l.head? :: stack) (g :: path) (a ++ pend)
  | graph {f : NodeCalcFunc} {s p : NodeID} {calls : List UnitCall} {stack : List Frame}
      {path pend : List NodeID} (hloops : Loops isGroup kids stack (p :: path) pend)
      (hplace : s ∈ kids p) (hf : f.fits false) (hs : isGroup s = false) :
      Loops isGroup kids (.graph f s calls :: stack) (s :: p :: path) pend

/-- Each node of the path is a child of the next one. -/
theorem Loops.mem_of_closed (h : Loops isGroup kids stack path pend) (hF : Closed kids F)
    (hn : n ∈ path) (hnF : n ∈ F) : ∃ s, path.head? = some s ∧ s ∈ F := by
  induction h with
  | idle => cases hn
  | @group f g stack path pend done l a _ hplace _ _ _ _ ih =>
    rcases List.mem_cons.mp hn with rfl | hn
    · exact ⟨n, rfl, hnF⟩
    · obtain ⟨p, hp, hpF⟩ := ih hn
      exact ⟨g, rfl, hF p hpF g (hplace p hp)⟩
  | @graph f s p calls stack path pend _ hplace _ _ ih =>
    rcases List.mem_cons.mp hn with rfl | hn
    · exact ⟨n, rfl, hnF⟩
    · obtain ⟨q, hq, hqF⟩ := ih hn
      cases hq
      exact ⟨s, rfl, hF p hqF s hplace⟩

theorem Loops.mem_parent (h : Loops isGroup kids stack path pend) (hpath : path = s :: g :: rest) :
    s ∈ kids g := by
  cases h with
  | idle => cases hpath
  | group _ hplace _ _ _ _ =>
    cases hpath
    exact hplace g rfl
  | graph _ hplace _ _ =>
    cases hpath
    exact hplace

/-- The innermost loop goes over the children of a group. -/
theorem Loops.group_inv {child : Option NodeID}
    (h : Loops isGroup kids (.group f g child :: stack) path pend) :
    ∃ path' pend' done l a, path = g :: path' ∧ pend = a ++ pend' ∧ child = l.head? ∧
      kids g = done ++ l ∧ Spans kids l a ∧ Loops isGroup kids stack path' pend' ∧
      (∀ p, path'.head? = some p → g ∈ kids p) ∧ f.fits true ∧ isGroup g = true := by
  cases h with
  | group hloops hplace hf hg hkids hspans =>
    exact ⟨_, _, _, _, _, rfl, rfl, rfl, hkids, hspans, hloops, hplace, hf, hg⟩

/-- The innermost loop goes over the units of a synth. -/
theorem Loops.graph_inv {calls : List UnitCall}
    (h : Loops isGroup kids (.graph f s calls :: stack) path pend) :
    ∃ p path', path = s :: p :: path' ∧ Loops isGroup kids stack (p :: path') pend ∧
      s ∈ kids p ∧ f.fits false ∧ isGroup s = false := by
  cases h with
  | graph hloops hplace hf hs => exact ⟨_, _, rfl, hloops, hplace, hf, hs⟩

/-- Nodes that are neither on the path nor children to come are taken out. -/
theorem Loops.without (h : Loops isGroup kids stack path pend) (hF : Closed kids F)
    (hpath : ∀ n ∈ path, n ∉ F) (hkids : ∀ g ∈ path, ∀ y ∈ kids g, y ∈ pend → y ∉ F) :
    Loops isGroup (without kids F) stack path (pend.filter fun y => !F.contains y) := by
  induction h with
  | idle => exact .idle
  | @group f g stack path pend done l a _ hplace hf hg hcut hspans ih =>
    have hgF := hpath g List.mem_cons_self
    have hl : ∀ y ∈ l, y ∉ F := by
      intro y hy
      apply hkids g List.mem_cons_self
      · rw [hcut]
        exact List.mem_append_right _ hy
      · exact List.mem_append_left _ (hspans.mem_of_root hy)
    have hspans' := hspans.without hF
    rw [filter_eq_self_of_notMem hl] at hspans'
    have hcut' : Forest.without kids F g = (done.filter fun y => !F.contains y) ++ l := by
      rw [without_of_notMem hgF, hcut, List.filter_append, filter_eq_self_of_notMem hl]
    rw [List.filter_append]
    refine .group (ih (fun n hn => hpath n (List.mem_cons_of_mem _ hn)) ?_) ?_ hf hg hcut' hspans'
    · intro p hp y hy hypend
      exact hkids p (List.mem_cons_of_mem _ hp) y hy (List.mem_append_right _ hypend)
    · intro p hp
      rw [mem_without]
      exact ⟨hpath p (List.mem_cons_of_mem _ (List.mem_of_head? hp)), hplace p hp, hgF⟩
  | @graph f s p calls stack path pend _ hplace hf hs ih =>
    refine .graph (ih (fun n hn => hpath n (List.mem_cons_of_mem _ hn)) ?_) ?_ hf hs
    · intro q hq y hy hypend
      exact hkids q (List.mem_cons_of_mem _ hq) y hy hypend
    · rw [mem_without]
      exact ⟨hpath p (by simp), hplace, hpath s List.mem_cons_self⟩

/-! ## Configurations -/

structure Config where
  engine : Engine
  kids : NodeID → List NodeID
  path : List NodeID
  pend : List NodeID

namespace Config

/-- The nodes are in lists, those on the path with a finite tree below them; the nodes on the path
and those to come are different nodes of the table, and every node has a function of its kind. -/
structure Sound (c : Config) : Prop where
  tree : Listed c.engine.world c.kids
  deep : ∀ n ∈ c.path, ∃ b, Spans c.kids (c.kids n) b
  once : (c.path ++ c.pend).Nodup
  live : ∀ n ∈ c.path ++ c.pend, n ∈ c.engine.world.mNodeLib
  kinds : ∀ n ∈ c.engine.world.mNodeLib,
    (c.engine.graph n).mCalcFunc.fits (c.engine.world.mNode n).mIsGroup

/-- The path and the nodes to come are those of the loops in progress. -/
structure Ok (c : Config) : Prop extends Sound c where
  loops : Loops (fun n => (c.engine.world.mNode n).mIsGroup) c.kids c.engine.stack c.path c.pend

end Config

/-- The calc function after a loop over the node. -/
def finished (e : Engine) (f : NodeCalcFunc) (n : NodeID) : Engine :=
  match f.atEnd with
  | some g => e.setCalcFunc n g
  | none => e

/-- The turn of `x` comes: `e` is the engine in which the calc function of `x` is called, `b` is
below `x`, and `rest` comes later. -/
structure Turn (c : Config) (x : NodeID) (b rest : List NodeID) (e : Engine) : Prop where
  world : e.world = c.engine.world
  log : e.log = c.engine.log
  kept : ∀ n ≠ x, e.graph n = c.engine.graph n
  self : ∃ f, e.graph x = { c.engine.graph x with mCalcFunc := f } ∧
    (f = (c.engine.graph x).mCalcFunc ∨ (c.engine.graph x).mCalcFunc = .groupCalc ∧
      (f = .groupCalcDumpTree ∨ f = .groupCalcDumpTreeAndControls))
  pend : c.pend = x :: (b ++ rest)
  spans : Spans c.kids (c.kids x) b
  parent : ∀ p, c.path.head? = some p → x ∈ c.kids p
  root : c.path = [] → x = 0#32
  loops : Loops (fun n => (c.engine.world.mNode n).mIsGroup) c.kids e.stack c.path rest

/-- What an effect is about. -/
inductive Atom
  | op (op : DoneOp)
  | unit (s : NodeID) (call : UnitCall)
  | finish (f : NodeCalcFunc) (n : NodeID)
  | call (n : NodeID)

/-- The loop that a calc function starts. -/
def frameOf (e : Engine) (x : NodeID) : Frame :=
  match (e.graph x).mCalcFunc with
  | .graphFirstCalc => .graph .graphFirstCalc x (e.graph x).ctorCalls
  | .graphNullFirstCalc => .graph .graphNullFirstCalc x (e.graph x).ctorCalls
  | .graphCalc => .graph .graphCalc x (e.graph x).calcCalls
  | .graphCalcTrace => .graph .graphCalcTrace x (e.graph x).calcCalls
  | f => .group f x (e.world.mNode x).mHead

/-- What can happen in a step. -/
inductive Effect : Config → Atom → Config → Prop
  | ended {c : Config} {n : NodeID} (hn : n ∈ c.engine.world.mNodeLib) :
      Effect c (.op (.nodeEnd n))
        { c with engine := (c.engine.setCalcFunc n .nodeDelete).record (.ended n) }
  | paused {c : Config} {n : NodeID} (hn : n ∈ c.engine.world.mNodeLib) :
      Effect c (.op (.nodePause n)) { c with engine := c.engine.pause n }
  | freed {c : Config} {op : DoneOp} {F : List NodeID} {e : Engine}
      (hop : ∃ y, (op = .groupDeleteAll y ∨ op = .groupDeepFreeGraphs y) ∧
        ∀ n ∈ F, n ∈ c.engine.world.mNodeLib ∧ c.engine.world.Within y n)
      (hfreed : Freed c.engine F e) (hclosed : Closed c.kids F) (hpath : ∀ n ∈ c.path, n ∉ F) :
      Effect c (.op op)
        ⟨e, Forest.without c.kids F, c.path, c.pend.filter fun y => !F.contains y⟩
  | unit {c : Config} {f : NodeCalcFunc} {s : NodeID} {call : UnitCall} {calls : List UnitCall}
      {stack : List Frame} {path : List NodeID}
      (hstack : c.engine.stack = .graph f s (call :: calls) :: stack) (hpath : c.path = s :: path) :
      Effect c (.unit s call)
        { c with
          engine := { c.engine with stack := .graph f s calls :: stack }.modifyGraph s fun g =>
            { g with calls := g.calls ++ [call] } }
  | finishGroup {c : Config} {f : NodeCalcFunc} {g : NodeID} {stack : List Frame}
      {path : List NodeID} (hstack : c.engine.stack = .group f g none :: stack)
      (hpath : c.path = g :: path) :
      Effect c (.finish f g) { c with engine := { c.engine with stack }.finished f g, path }
  | finishGraph {c : Config} {f : NodeCalcFunc} {s : NodeID} {stack : List Frame}
      {path : List NodeID} (hstack : c.engine.stack = .graph f s [] :: stack)
      (hpath : c.path = s :: path) (hf : f ≠ .graphFirstCalc) :
      Effect c (.finish f s) { c with engine := { c.engine with stack }.finished f s, path }
  | finishFirst {c : Config} {s : NodeID} {stack : List Frame} {path : List NodeID}
      (hstack : c.engine.stack = .graph .graphFirstCalc s [] :: stack) (hpath : c.path = s :: path) :
      Effect c (.finish .graphFirstCalc s)
        { c with
          engine := ({ c.engine with stack }.finished .graphFirstCalc s).push
            (.graph .graphCalc s (c.engine.graph s).calcCalls) }
  | skip {c : Config} {x : NodeID} {b rest : List NodeID} {e : Engine} (ht : Turn c x b rest e)
      (hf : (e.graph x).mCalcFunc = .nodeNullCalc ∨ (e.graph x).mCalcFunc = .nodeDelete ∧ x = 0#32) :
      Effect c (.call x) { c with engine := e.noteCall x, pend := rest }
  | delete {c : Config} {x : NodeID} {b rest : List NodeID} {e e' : Engine} (ht : Turn c x b rest e)
      (hf : (e.graph x).mCalcFunc = .nodeDelete) (hx0 : x ≠ 0#32)
      (hfreed : Freed (e.noteCall x) (x :: b) e') :
      Effect c (.call x) ⟨e', Forest.without c.kids (x :: b), c.path, rest⟩
  | enter {c : Config} {x : NodeID} {b rest : List NodeID} {e : Engine} (ht : Turn c x b rest e)
      (hnull : (e.graph x).mCalcFunc ≠ .nodeNullCalc) (hend : (e.graph x).mCalcFunc ≠ .nodeDelete) :
      Effect c (.call x)
        ⟨(e.noteCall x).push (e.frameOf x), c.kids, x :: c.path, b ++ rest⟩

/-! ## Effects keep configurations -/

section Keep

variable {c : Config} {e' : Engine} {rest : List NodeID}

theorem fits_setRun {mIsGroup : Bool} (h : f.fits mIsGroup) (inRun : Octets.Word) :
    (f.setRun mIsGroup inRun).fits mIsGroup := by
  unfold NodeCalcFunc.setRun
  cases mIsGroup <;> cases f <;> simp_all [NodeCalcFunc.fits] <;> split_ifs <;> rfl

/-- Only the calc functions of nodes change, and they stay of their kind. -/
theorem Config.Ok.withEngine (h : c.Ok) (hworld : e'.world = c.engine.world)
    (hstack : e'.stack = c.engine.stack)
    (hkinds : ∀ n ∈ c.engine.world.mNodeLib,
      (e'.graph n).mCalcFunc.fits (c.engine.world.mNode n).mIsGroup) :
    Config.Ok { c with engine := e' } where
  tree := hworld ▸ h.tree
  deep := h.deep
  once := h.once
  live := hworld ▸ h.live
  kinds := hworld ▸ hkinds
  loops := by
    show Loops (fun n => (e'.world.mNode n).mIsGroup) c.kids e'.stack c.path c.pend
    rw [hworld, hstack]
    exact h.loops

/-- Nodes that are neither on the path nor children of the path are freed. -/
theorem Config.Ok.freed (h : c.Ok) (hfreed : Freed c.engine F e') (hclosed : Closed c.kids F)
    (htree : Listed e'.world (Forest.without c.kids F)) (hpath : ∀ n ∈ c.path, n ∉ F)
    (hkids : ∀ g ∈ c.path, ∀ y ∈ c.kids g, y ∉ F) :
    Config.Ok ⟨e', Forest.without c.kids F, c.path, c.pend.filter fun y => !F.contains y⟩ where
  tree := htree
  deep n hn := by
    obtain ⟨b, hb⟩ := h.deep n hn
    have hspans := hb.without hclosed
    rw [← without_of_notMem (hpath n hn)] at hspans
    exact ⟨_, hspans⟩
  once := h.once.sublist ((List.Sublist.refl _).append List.filter_sublist)
  live n hn := by
    rw [hfreed.table n]
    rcases List.mem_append.mp hn with hn | hn
    · exact ⟨h.live n (List.mem_append_left _ hn), hpath n hn⟩
    · obtain ⟨hn, hnF⟩ := List.mem_filter.mp hn
      exact ⟨h.live n (List.mem_append_right _ hn), by simpa using hnF⟩
  kinds n hn := by
    obtain ⟨hn, hnF⟩ := (hfreed.table n).mp hn
    show (e'.graph n).mCalcFunc.fits (e'.world.mNode n).mIsGroup
    rw [hfreed.kept n hnF, hfreed.group n]
    exact h.kinds n hn
  loops := by
    show Loops (fun n => (e'.world.mNode n).mIsGroup) _ e'.stack _ _
    simp only [hfreed.group]
    rw [hfreed.stack]
    exact h.loops.without hclosed hpath fun g hg y hy _ => hkids g hg y hy

/-- What is below a sibling is neither on the path nor a child of the path. -/
theorem Config.Ok.apart (h : c.Ok) (hpath : c.path = s :: g :: rest) (hy : y ∈ c.kids g)
    (hys : y ≠ s) (hb : Spans c.kids (c.kids y) b) :
    (∀ n ∈ c.path, n ∉ b) ∧ ∀ p ∈ c.path, ∀ n ∈ c.kids p, n ∉ b := by
  have htree := h.tree.toTree
  have hyb := hb.notMem_below
  -- the group is not below the sibling, so the synth is not
  have hgy : g ≠ y := by
    rintro rfl
    exact hyb (hb.mem_of_root hy)
  have hgb : g ∉ b := fun hmem => hyb (hb.mem_of_kid hmem hy)
  have hsg : s ∈ c.kids g := h.loops.mem_parent hpath
  have hsb : s ∉ b := htree.not_below_of_kid hb hgy hgb hsg
  have hsF : s ∉ y :: b := by
    rw [List.mem_cons, not_or]
    exact ⟨hys.symm, hsb⟩
  have hout : ∀ n ∈ c.path, n ∉ y :: b := by
    intro n hn hnF
    obtain ⟨x, hx, hxF⟩ := h.loops.mem_of_closed (closed_below hb) hn hnF
    rw [hpath] at hx
    cases hx
    exact hsF hxF
  refine ⟨fun n hn hnb => hout n hn (List.mem_cons_of_mem _ hnb), fun p hp n hn => ?_⟩
  have hp' := hout p hp
  rw [List.mem_cons, not_or] at hp'
  exact htree.not_below_of_kid hb hp'.1 hp'.2 hn

/-- Below a child of a node on the path there is a finite tree. -/
theorem Config.Ok.exists_below (h : c.Ok) (hg : g ∈ c.path) (hy : y ∈ c.kids g) :
    ∃ b, Spans c.kids (c.kids y) b := by
  obtain ⟨a, ha⟩ := h.deep g hg
  obtain ⟨A, b, B, -, hb⟩ := ha.exists_below (ha.mem_of_root hy)
  exact ⟨b, hb⟩

theorem Config.Ok.within_below (h : c.Ok) (hb : Spans c.kids (c.kids y) b) (hn : n ∈ b) :
    n ∈ c.engine.world.mNodeLib ∧ c.engine.world.Within y n := by
  have hnlib := (h.tree.toTree.mem_of_below hb hn).1
  exact ⟨hnlib, (h.tree.toTree.within_iff hb hnlib).mpr (List.mem_cons_of_mem _ hn)⟩

theorem performOp_effect (h : c.Ok) (hpath : c.path = s :: g :: rest) {op : DoneOp}
    (hop : OpOk c.engine.world c.kids g s op) :
    ∃ c', c.engine.performOp op = some c'.engine ∧ Effect c (.op op) c' ∧ c'.Ok ∧
      c'.path = c.path := by
  cases op with
  | nodeEnd n =>
    refine ⟨{ c with engine := (c.engine.setCalcFunc n .nodeDelete).record (.ended n) },
      nodeEnd_eq hop, .ended hop, h.withEngine rfl rfl fun m hm => ?_, rfl⟩
    show (Function.update c.engine.graph n _ m).mCalcFunc.fits _
    by_cases hmn : m = n
    · rw [hmn, Function.update_self]
      rfl
    · rw [Function.update_of_ne hmn]
      exact h.kinds m hm
  | nodePause n =>
    refine ⟨{ c with engine := c.engine.pause n }, nodeSetRun_zero hop (.of_listed h.tree hop),
      .paused hop, h.withEngine rfl rfl fun m hm => ?_, rfl⟩
    show (Function.update c.engine.graph n _ m).mCalcFunc.fits _
    by_cases hmn : m = n
    · rw [hmn, Function.update_self]
      exact fits_setRun (h.kinds n hop) 0
    · rw [Function.update_of_ne hmn]
      exact h.kinds m hm
  | groupDeleteAll y =>
    obtain ⟨hy, hys, hgroup⟩ := hop
    have hylib := (h.tree.mem g y hy).1
    obtain ⟨b, hb⟩ := h.exists_below (by simp [hpath]) hy
    obtain ⟨e', hdelete, hfreed, htree⟩ := groupDeleteAll_freed h.tree hylib hgroup hb
    obtain ⟨hout, hkids⟩ := h.apart hpath hy hys hb
    have hclosed : Closed c.kids b := fun x hx z hz => hb.mem_of_kid hx hz
    exact ⟨⟨e', Forest.without c.kids b, c.path, c.pend.filter fun y => !b.contains y⟩, hdelete,
      .freed ⟨y, .inl rfl, fun n hn => h.within_below hb hn⟩ hfreed hclosed hout,
      h.freed hfreed hclosed htree hout hkids, rfl⟩
  | groupDeepFreeGraphs y =>
    obtain ⟨hy, hys, hgroup⟩ := hop
    have hylib := (h.tree.mem g y hy).1
    obtain ⟨b, hb⟩ := h.exists_below (by simp [hpath]) hy
    obtain ⟨e', hdelete, hfreed, htree⟩ := groupDeepFreeGraphs_freed h.tree hylib hgroup hb
    obtain ⟨hout, hkids⟩ := h.apart hpath hy hys hb
    have hclosed : Closed c.kids (b.filter fun x => !(c.engine.world.mNode x).mIsGroup) := by
      intro x hx z hz
      -- a synth has no children
      rw [h.tree.toTree.kids_eq_nil_of_synth (by simpa using (List.mem_filter.mp hx).2)] at hz
      cases hz
    have hout' : ∀ n ∈ c.path, n ∉ b.filter fun x => !(c.engine.world.mNode x).mIsGroup :=
      fun n hn hmem => hout n hn (List.mem_of_mem_filter hmem)
    exact ⟨⟨e', Forest.without c.kids (b.filter fun x => !(c.engine.world.mNode x).mIsGroup), c.path,
      c.pend.filter fun y => !(b.filter fun x => !(c.engine.world.mNode x).mIsGroup).contains y⟩,
      hdelete, .freed ⟨y, .inr rfl, fun n hn => h.within_below hb (List.mem_of_mem_filter hn)⟩ hfreed
        hclosed hout',
      h.freed hfreed hclosed htree hout'
        fun p hp n hn hmem => hkids p hp n hn (List.mem_of_mem_filter hmem), rfl⟩

end Keep

/-! ## Guarded steps -/

section Guard

variable (Guard : Engine → Atom → Prop)

/-- The guard allows all operations, each in the engine in which it is performed. -/
def OpsSafe (e : Engine) : List DoneOp → Prop
  | [] => True
  | op :: ops => Guard e (.op op) ∧ ∀ e', e.performOp op = some e' → OpsSafe e' ops

/-- The guard allows all done actions that a unit of `s` fires. -/
def FiresSafe (e : Engine) (s : NodeID) : List ℕ → Prop
  | [] => True
  | doneAction :: fires => OpsSafe Guard e (e.world.doneOps s doneAction) ∧
    ∀ e', e.unitDoneAction s doneAction = some e' → FiresSafe e' s fires

/-- The guard allows all effects of a step. -/
def StepSafe (e : Engine) (fires : List ℕ) : Prop :=
  match e.stack with
  | [] => True
  | .graph f s (call :: calls) :: stack => Guard e (.unit s call) ∧
    FiresSafe Guard ({ e with stack := .graph f s calls :: stack }.modifyGraph s fun g =>
      { g with calls := g.calls ++ [call] }) s fires
  | .graph f s [] :: _ => Guard e (.finish f s)
  | .group _ _ (some child) :: _ => Guard e (.call child)
  | .group f g none :: _ => Guard e (.finish f g)

/-- An operation of a done action that the guard allows. -/
def OpStep (c c' : Config) : Prop :=
  ∃ op, c.Ok ∧ Guard c.engine (.op op) ∧ Effect c (.op op) c'

variable {Guard} {c : Config} {rest : List NodeID}

theorem performOps_effects (h : c.Ok) (hpath : c.path = s :: g :: rest) (ops : List DoneOp)
    (hops : OpsOk c.engine.world c.kids g s ops) (hsafe : OpsSafe Guard c.engine ops) :
    ∃ c', c.engine.performOps ops = some c'.engine ∧ Relation.ReflTransGen (OpStep Guard) c c' ∧
      c'.Ok ∧ c'.path = c.path := by
  induction ops generalizing c with
  | nil => exact ⟨c, rfl, .refl, h, rfl⟩
  | cons op ops ih =>
    have hop : OpOk c.engine.world c.kids g s op := by
      cases ops with
      | nil => exact hops
      | cons op' ops =>
        rcases hops.1 with ⟨n, hn, rfl⟩ | ⟨n, hn, rfl⟩
        · exact hn
        · exact hn
    obtain ⟨c₁, hperform, heffect, h₁, hpath₁⟩ := performOp_effect h hpath hop
    have hops₁ : OpsOk c₁.engine.world c₁.kids g s ops := by
      cases ops with
      | nil => trivial
      | cons op' ops =>
        -- an operation that others follow leaves the tree alone
        obtain ⟨hfirst, hrest⟩ := hops
        rcases hfirst with ⟨n, hn, rfl⟩ | ⟨n, hn, rfl⟩
        · cases heffect with
          | ended _ => exact hrest
          | freed hop _ _ _ => obtain ⟨y, hy | hy, -⟩ := hop <;> cases hy
        · cases heffect with
          | paused _ => exact hrest
          | freed hop _ _ _ => obtain ⟨y, hy | hy, -⟩ := hop <;> cases hy
    obtain ⟨c₂, hperform₂, hsteps, h₂, hpath₂⟩ := ih h₁ (hpath₁.trans hpath) hops₁
      (hsafe.2 _ hperform)
    refine ⟨c₂, ?_, .head ⟨op, h, hsafe.1, heffect⟩ hsteps, h₂, hpath₂.trans hpath₁⟩
    rw [performOps, hperform]
    exact hperform₂

theorem doneActions_effects (h : c.Ok) (hpath : c.path = s :: g :: rest) (fires : List ℕ)
    (hsafe : FiresSafe Guard c.engine s fires) :
    ∃ c', c.engine.doneActions s fires = some c'.engine ∧
      Relation.ReflTransGen (OpStep Guard) c c' ∧ c'.Ok ∧ c'.path = c.path := by
  induction fires generalizing c with
  | nil => exact ⟨c, rfl, .refl, h, rfl⟩
  | cons doneAction fires ih =>
    have hsite := doneSite h.tree (h.loops.mem_parent hpath)
    have hfires := unitDoneAction_eq hsite doneAction
    obtain ⟨c₁, hperform, hsteps₁, h₁, hpath₁⟩ := performOps_effects h hpath _
      (opsOk_doneOps hsite doneAction) hsafe.1
    rw [← hfires] at hperform
    obtain ⟨c₂, hrest, hsteps₂, h₂, hpath₂⟩ := ih h₁ (hpath₁.trans hpath) (hsafe.2 _ hperform)
    refine ⟨c₂, ?_, hsteps₁.trans hsteps₂, h₂, hpath₂.trans hpath₁⟩
    rw [doneActions, hperform]
    exact hrest

end Guard

/-! ## Turns -/

section Turns

variable {c : Config} {e : Engine} {rest : List NodeID}

theorem Turn.fits (h : c.Sound) (ht : Turn c x b rest e) (hn : n ∈ c.engine.world.mNodeLib) :
    (e.graph n).mCalcFunc.fits (c.engine.world.mNode n).mIsGroup := by
  by_cases hnx : n = x
  · subst hnx
    obtain ⟨f, hself, hf⟩ := ht.self
    have hkind := h.kinds n hn
    rw [hself]
    rcases hf with rfl | ⟨hgroup, hf⟩
    · exact hkind
    · rw [hgroup] at hkind
      rcases hf with rfl | rfl
      · exact hkind
      · exact hkind
  · rw [ht.kept n hnx]
    exact h.kinds n hn

/-- The loop that a node starts goes on top of the others. -/
theorem loops_frameOf (h : c.Sound) (ht : Turn c x b rest e)
    (hnull : (e.graph x).mCalcFunc ≠ .nodeNullCalc) (hend : (e.graph x).mCalcFunc ≠ .nodeDelete)
    {stack : List Frame}
    (hloops : Loops (fun n => ((e.noteCall x).world.mNode n).mIsGroup) c.kids stack c.path rest) :
    Loops (fun n => ((e.noteCall x).world.mNode n).mIsGroup) c.kids (e.frameOf x :: stack)
      (x :: c.path) (b ++ rest) := by
  have htree := h.tree
  have hx : x ∈ c.engine.world.mNodeLib := h.live x (by simp [ht.pend])
  have hkind := ht.fits h hx
  rw [noteCall_world, ht.world] at hloops ⊢
  cases hgroup : (c.engine.world.mNode x).mIsGroup with
  | true =>
    have hhead := (htree.ends x hx hgroup).1
    rw [hgroup] at hkind
    have hframe : e.frameOf x = .group (e.graph x).mCalcFunc x (c.kids x).head? := by
      unfold frameOf
      rw [ht.world, hhead]
      cases hf : (e.graph x).mCalcFunc with
      | nodeNullCalc => exact absurd hf hnull
      | nodeDelete => exact absurd hf hend
      | _ => first | rfl | (rw [hf] at hkind; cases hkind)
    rw [hframe]
    exact .group hloops ht.parent hkind hgroup (List.nil_append _).symm ht.spans
  | false =>
    have hleaf := htree.toTree.kids_eq_nil_of_synth hgroup
    have hspans := ht.spans
    rw [hleaf] at hspans
    cases hspans
    rw [hgroup] at hkind
    have hframe : ∃ calls, e.frameOf x = .graph (e.graph x).mCalcFunc x calls := by
      unfold frameOf
      cases hf : (e.graph x).mCalcFunc with
      | nodeNullCalc => exact absurd hf hnull
      | nodeDelete => exact absurd hf hend
      | _ => first | exact ⟨_, rfl⟩ | (rw [hf] at hkind; cases hkind)
    obtain ⟨calls, hframe⟩ := hframe
    rw [hframe, List.nil_append]
    cases hpath : c.path with
    | nil =>
      -- the root is a group
      rw [ht.root hpath, htree.root.2.1] at hgroup
      cases hgroup
    | cons p path =>
      rw [hpath] at hloops
      exact .graph hloops (ht.parent p (by rw [hpath]; rfl)) hkind hgroup

/-- A node gets its turn. -/
theorem callNode_effect (h : c.Sound) (ht : Turn c x b rest e) :
    ∃ c', e.callNode x = some c'.engine ∧ Effect c (.call x) c' ∧ c'.Ok := by
  have hx : x ∈ c.engine.world.mNodeLib := h.live x (by simp [ht.pend])
  have honce := h.once
  have hlive := h.live
  rw [ht.pend] at honce hlive
  have hkind := ht.fits h hx
  have hkinds : ∀ n ∈ (e.noteCall x).world.mNodeLib,
      ((e.noteCall x).graph n).mCalcFunc.fits ((e.noteCall x).world.mNode n).mIsGroup := by
    rw [noteCall_world, noteCall_graph, ht.world]
    exact fun n hn => ht.fits h hn
  have htree' : Listed (e.noteCall x).world c.kids := by
    rw [noteCall_world, ht.world]
    exact h.tree
  have hloops : Loops (fun n => ((e.noteCall x).world.mNode n).mIsGroup) c.kids
      (e.noteCall x).stack c.path rest := by
    rw [noteCall_world, noteCall_stack, ht.world]
    exact ht.loops
  have hlater : (c.path ++ rest).Nodup ∧ ∀ n ∈ c.path ++ rest, n ∉ x :: b := by
    have hperm : (c.path ++ x :: (b ++ rest)).Perm (c.path ++ rest ++ x :: b) := by
      rw [← List.cons_append, List.append_assoc]
      exact List.Perm.append_left _ List.perm_append_comm
    rw [hperm.nodup_iff, List.nodup_append] at honce
    exact ⟨honce.1, fun n hn hnb => honce.2.2 n hn n hnb rfl⟩
  have hliveLater : ∀ n ∈ c.path ++ rest, n ∈ (e.noteCall x).world.mNodeLib := by
    intro n hn
    rw [noteCall_world, ht.world]
    apply hlive
    simp only [List.mem_append, List.mem_cons] at hn ⊢
    rcases hn with hn | hn
    · exact .inl hn
    · exact .inr (.inr (.inr hn))
  unfold callNode
  rw [touch_eq (show x ∈ e.world.mNodeLib by rw [ht.world]; exact hx)]
  simp only [Option.bind_eq_bind, Option.bind_some]
  by_cases hskip : (e.graph x).mCalcFunc = .nodeNullCalc ∨
      (e.graph x).mCalcFunc = .nodeDelete ∧ x = 0#32
  · refine ⟨{ c with engine := e.noteCall x, pend := rest }, ?_, .skip ht hskip,
      ⟨htree', h.deep, hlater.1, hliveLater, hkinds⟩, hloops⟩
    rcases hskip with hnull | ⟨hend, rfl⟩
    · rw [hnull]
      rfl
    · rw [hend]
      show (e.noteCall 0#32).nodeDelete 0#32 = _
      unfold Engine.nodeDelete
      rw [touch_eq (by rw [noteCall_world, ht.world]; exact hx)]
      rfl
  · rw [not_or] at hskip
    by_cases hend : (e.graph x).mCalcFunc = .nodeDelete
    · have hx0 : x ≠ 0#32 := fun hx0 => hskip.2 ⟨hend, hx0⟩
      have hx' : x ∈ (e.noteCall x).world.mNodeLib := by
        rw [noteCall_world, ht.world]
        exact hx
      obtain ⟨e', hdelete, hfreed, htree₁⟩ := nodeDelete_freed htree' hx' hx0 ht.spans
      have hclosed := closed_below ht.spans
      have hpathF : ∀ n ∈ c.path, n ∉ x :: b := fun n hn => hlater.2 n (List.mem_append_left _ hn)
      have hrestF : ∀ n ∈ rest, n ∉ x :: b := fun n hn => hlater.2 n (List.mem_append_right _ hn)
      refine ⟨⟨e', Forest.without c.kids (x :: b), c.path, rest⟩, ?_, .delete ht hend hx0 hfreed,
        ⟨htree₁, ?_, hlater.1, ?_, ?_⟩, ?_⟩
      · rw [hend]
        exact hdelete
      · intro n hn
        obtain ⟨a, ha⟩ := h.deep n hn
        have hspans := ha.without hclosed
        rw [← without_of_notMem (hpathF n hn)] at hspans
        exact ⟨_, hspans⟩
      · intro n hn
        exact (hfreed.table n).mpr ⟨hliveLater n hn, hlater.2 n hn⟩
      · intro n hn
        obtain ⟨hn, hnF⟩ := (hfreed.table n).mp hn
        show (e'.graph n).mCalcFunc.fits (e'.world.mNode n).mIsGroup
        rw [hfreed.kept n hnF, hfreed.group n]
        exact hkinds n hn
      · show Loops (fun n => (e'.world.mNode n).mIsGroup) _ e'.stack _ _
        simp only [hfreed.group]
        rw [hfreed.stack, ← filter_eq_self_of_notMem hrestF]
        exact hloops.without hclosed hpathF fun p _ y _ hy => hrestF y hy
    · have hnull := hskip.1
      refine ⟨⟨(e.noteCall x).push (e.frameOf x), c.kids, x :: c.path, b ++ rest⟩, ?_,
        .enter ht hnull hend, ⟨htree', ?_, ?_, ?_, hkinds⟩, ?_⟩
      · unfold frameOf
        rw [noteCall_graph]
        cases hf : (e.graph x).mCalcFunc with
        | nodeNullCalc => exact absurd hf hnull
        | nodeDelete => exact absurd hf hend
        | _ => rfl
      · intro n hn
        rcases List.mem_cons.mp hn with rfl | hn
        · exact ⟨b, ht.spans⟩
        · exact h.deep n hn
      · have hperm : (x :: c.path ++ (b ++ rest)).Perm (c.path ++ x :: (b ++ rest)) :=
          List.perm_middle.symm
        exact hperm.nodup_iff.mpr honce
      · intro n hn
        show n ∈ (e.noteCall x).world.mNodeLib
        rw [noteCall_world, ht.world]
        apply hlive
        simp only [List.cons_append, List.mem_append, List.mem_cons] at hn ⊢
        tauto
      · show Loops (fun n => ((e.noteCall x).world.mNode n).mIsGroup) c.kids
          (e.frameOf x :: (e.noteCall x).stack) (x :: c.path) (b ++ rest)
        exact loops_frameOf h ht hnull hend hloops

/-! ## Steps -/

theorem fits_atEnd {f' : NodeCalcFunc} {mIsGroup : Bool} (h : f.fits mIsGroup)
    (hend : f.atEnd = some f') : f'.fits mIsGroup := by
  cases f <;> cases hend <;> first | exact h | rfl

theorem finish_eq (hn : n ∈ e.world.mNodeLib) (f : NodeCalcFunc) :
    e.finish f n = some (e.finished f n) := by
  unfold finish finished
  cases f.atEnd with
  | none => rfl
  | some f' =>
    show (e.touch n).map _ = _
    rw [touch_eq hn]
    rfl

/-- A loop is done: it leaves the path. -/
theorem Config.Ok.finished (h : c.Ok) (hpath : c.path = n :: path)
    (hf : f.fits (c.engine.world.mNode n).mIsGroup)
    (hloops : Loops (fun n => (c.engine.world.mNode n).mIsGroup) c.kids stack path c.pend) :
    Config.Ok { c with engine := { c.engine with stack }.finished f n, path } := by
  have hworld : ({ c.engine with stack }.finished f n).world = c.engine.world := by
    unfold Engine.finished
    cases f.atEnd <;> rfl
  have hstack : ({ c.engine with stack }.finished f n).stack = stack := by
    unfold Engine.finished
    cases f.atEnd <;> rfl
  have honce := h.once
  have hlive := h.live
  rw [hpath, List.cons_append] at honce hlive
  refine ⟨⟨?_, ?_, (List.nodup_cons.mp honce).2, ?_, ?_⟩, ?_⟩
  · show Listed ({ c.engine with stack }.finished f n).world c.kids
    rw [hworld]
    exact h.tree
  · intro m hm
    exact h.deep m (by simp [hpath, hm])
  · intro m hm
    show m ∈ ({ c.engine with stack }.finished f n).world.mNodeLib
    rw [hworld]
    exact hlive m (List.mem_cons_of_mem _ hm)
  · show ∀ m ∈ ({ c.engine with stack }.finished f n).world.mNodeLib,
      (({ c.engine with stack }.finished f n).graph m).mCalcFunc.fits
        (({ c.engine with stack }.finished f n).world.mNode m).mIsGroup
    rw [hworld]
    intro m hm
    unfold Engine.finished
    cases hend : f.atEnd with
    | none => exact h.kinds m hm
    | some f' =>
      show (Function.update c.engine.graph n _ m).mCalcFunc.fits _
      by_cases hmn : m = n
      · rw [hmn, Function.update_self]
        exact fits_atEnd hf hend
      · rw [Function.update_of_ne hmn]
        exact h.kinds m hm
  · show Loops (fun m => (({ c.engine with stack }.finished f n).world.mNode m).mIsGroup) c.kids
      ({ c.engine with stack }.finished f n).stack path c.pend
    rw [hworld, hstack]
    exact hloops

/-- The loop over a group comes to a child. -/
theorem Config.Ok.turn (h : c.Ok) (hstack : c.engine.stack = .group f g (some x) :: stack)
    (fires : List ℕ) :
    ∃ b rest e, Turn c x b rest e ∧ c.engine.step fires = e.callNode x := by
  have htree := h.tree
  have hloops := h.loops
  rw [hstack] at hloops
  obtain ⟨path, pend, done, l, a, hpath, hpend, hhead, hkids, hspans, hrest, hplace, hf, hg⟩ :=
    hloops.group_inv
  cases hspans with
  | nil => cases hhead
  | @cons y xs b rest hb hxs =>
    obtain rfl : x = y := Option.some.inj hhead
    have hx : x ∈ c.engine.world.mNodeLib := by
      apply h.live
      simp [hpend]
    have hnext := (htree.toTree.neighbours hkids).2.2
    have hmore : Loops (fun n => (c.engine.world.mNode n).mIsGroup) c.kids
        (.group f g xs.head? :: stack) (g :: path) (rest ++ pend) :=
      .group hrest hplace hf hg (by rw [hkids]; simp : c.kids g = (done ++ [x]) ++ xs) hxs
    have hparent : ∀ p, c.path.head? = some p → x ∈ c.kids p := by
      intro p hp
      rw [hpath] at hp
      obtain rfl : g = p := Option.some.inj hp
      rw [hkids]
      exact List.mem_append_right _ List.mem_cons_self
    have hroot : c.path = [] → x = 0#32 := by
      intro hnil
      rw [hpath] at hnil
      cases hnil
    have hpend' : c.pend = x :: (b ++ (rest ++ pend)) := by
      rw [hpend]
      simp
    have hstep : c.engine.step fires = Engine.callNode
        (if (c.engine.world.mNode x).mIsGroup then
          { c.engine with stack := .group f g xs.head? :: stack }.setCalcFunc x
            (f.beforeChild (c.engine.graph x).mCalcFunc)
        else { c.engine with stack := .group f g xs.head? :: stack }) x := by
      unfold Engine.step
      rw [hstack]
      simp only [touch_eq hx, Option.bind_eq_bind, Option.bind_some, hnext]
    cases hgroup : (c.engine.world.mNode x).mIsGroup with
    | false =>
      rw [hgroup, if_neg (by simp)] at hstep
      refine ⟨b, rest ++ pend, { c.engine with stack := .group f g xs.head? :: stack }, ⟨rfl, rfl,
        fun n _ => rfl, ⟨_, rfl, .inl rfl⟩, hpend', hb, hparent, hroot, ?_⟩, hstep⟩
      rw [hpath]
      exact hmore
    | true =>
      rw [hgroup, if_pos rfl] at hstep
      refine ⟨b, rest ++ pend, { c.engine with stack := .group f g xs.head? :: stack }.setCalcFunc x
        (f.beforeChild (c.engine.graph x).mCalcFunc), ⟨rfl, rfl,
        fun n hn => Function.update_of_ne hn .., ⟨f.beforeChild (c.engine.graph x).mCalcFunc,
        Function.update_self .., ?_⟩, hpend', hb, hparent, hroot, ?_⟩, hstep⟩
      swap
      · rw [hpath]
        exact hmore
      show f.beforeChild (c.engine.graph x).mCalcFunc = _ ∨ _
      cases f with
      | groupCalcDumpTree =>
        by_cases hcalc : (c.engine.graph x).mCalcFunc = .groupCalc
        · exact .inr ⟨hcalc, .inl (if_pos hcalc)⟩
        · exact .inl (if_neg hcalc)
      | groupCalcDumpTreeAndControls =>
        by_cases hcalc : (c.engine.graph x).mCalcFunc = .groupCalc
        · exact .inr ⟨hcalc, .inr (if_pos hcalc)⟩
        · exact .inl (if_neg hcalc)
      | _ => exact .inl rfl

/-- Every step has a result: first something that is not a done action, then the operations of
the done actions. -/
theorem step_effects {Guard : Engine → Atom → Prop} (h : c.Ok) (fires : List ℕ)
    (hsafe : StepSafe Guard c.engine fires) (hbusy : c.engine.stack ≠ []) :
    ∃ a c₁ c', (∀ op, a ≠ .op op) ∧ Guard c.engine a ∧ Effect c a c₁ ∧ c₁.Ok ∧
      Relation.ReflTransGen (OpStep Guard) c₁ c' ∧ c.engine.step fires = some c'.engine ∧
      c'.Ok := by
  unfold StepSafe at hsafe
  cases hstack : c.engine.stack with
  | nil => exact absurd hstack hbusy
  | cons frame stack =>
    rw [hstack] at hsafe
    have hloops := h.loops
    rw [hstack] at hloops
    cases frame with
    | group f g child =>
      cases child with
      | some x =>
        obtain ⟨b, rest, e, ht, hstep⟩ := h.turn hstack fires
        obtain ⟨c', hcall, heffect, hok⟩ := callNode_effect h.toSound ht
        exact ⟨.call x, c', c', nofun, hsafe, heffect, hok, .refl, hstep.trans hcall, hok⟩
      | none =>
        obtain ⟨path, pend, done, l, a, hpath, hpend, hhead, hkids, hspans, hrest, hplace, hf, hg⟩ :=
          hloops.group_inv
        -- no child is left, so nothing below the group is to come
        obtain rfl : l = [] := by
          cases l with
          | nil => rfl
          | cons y ys => cases hhead
        cases hspans
        have hok := h.finished hpath (by rw [hg]; exact hf) (show Loops _ _ stack path c.pend by
          rw [hpend]
          exact hrest)
        refine ⟨.finish f g, _, _, nofun, hsafe, .finishGroup hstack hpath, hok, .refl, ?_, hok⟩
        have hlive := h.live g (by simp [hpath])
        unfold Engine.step
        rw [hstack]
        exact finish_eq (e := { c.engine with stack }) hlive f
    | graph f s calls =>
      obtain ⟨p, path, hpath, hrest, hplace, hf, hs⟩ := hloops.graph_inv
      have hlive := h.live s (by simp [hpath])
      cases calls with
      | cons call calls =>
        have hok₁ : Config.Ok { c with
            engine := { c.engine with stack := .graph f s calls :: stack }.modifyGraph s fun g =>
              { g with calls := g.calls ++ [call] } } := by
          refine ⟨⟨h.tree, h.deep, h.once, h.live, ?_⟩, ?_⟩
          · intro n hn
            show (Function.update c.engine.graph s _ n).mCalcFunc.fits _
            by_cases hns : n = s
            · rw [hns, Function.update_self]
              exact h.kinds s hlive
            · rw [Function.update_of_ne hns]
              exact h.kinds n hn
          · show Loops _ _ (.graph f s calls :: stack) c.path c.pend
            rw [hpath]
            exact .graph hrest hplace hf hs
        obtain ⟨c', hfires, hops, hok, -⟩ := doneActions_effects hok₁ hpath fires hsafe.2
        refine ⟨.unit s call, _, c', nofun, hsafe.1, .unit hstack hpath, hok₁, hops, ?_, hok⟩
        unfold Engine.step
        rw [hstack]
        simp only [touch_eq hlive, Option.bind_eq_bind, Option.bind_some]
        exact hfires
      | nil =>
        have hok := h.finished hpath (by rw [hs]; exact hf) hrest
        have hfinish := finish_eq (e := { c.engine with stack }) hlive f
        by_cases hfirst : f = .graphFirstCalc
        · subst hfirst
          have hok' : Config.Ok { c with
              engine := ({ c.engine with stack }.finished .graphFirstCalc s).push
                (.graph .graphCalc s (c.engine.graph s).calcCalls) } := by
            refine ⟨⟨h.tree, h.deep, h.once, h.live, hok.kinds⟩, ?_⟩
            show Loops _ _ (.graph .graphCalc s _ :: stack) c.path c.pend
            rw [hpath]
            exact .graph hrest hplace rfl hs
          refine ⟨.finish .graphFirstCalc s, _, _, nofun, hsafe, .finishFirst hstack hpath, hok',
            .refl, ?_, hok'⟩
          unfold Engine.step
          rw [hstack]
          simp only [hfinish, Option.bind_eq_bind, Option.bind_some]
          have hsame : (({ c.engine with stack }.finished .graphFirstCalc s).graph s).calcCalls =
              (c.engine.graph s).calcCalls := by
            show (Function.update c.engine.graph s _ s).calcCalls = _
            rw [Function.update_self]
            rfl
          rw [hsame]
          rfl
        · refine ⟨.finish f s, _, _, nofun, hsafe, .finishGraph hstack hpath hfirst, hok, .refl, ?_,
            hok⟩
          unfold Engine.step
          rw [hstack]
          simp only [hfinish, Option.bind_eq_bind, Option.bind_some, if_neg hfirst]
          rfl

end Turns

end Engine

end PoopWorms.Server
