import PoopWorms.Server.Life

/-!
# Constructors, calculations, destructors

`Disciplined` says what the units of all synths have received so far. A run keeps it as long as
no synth that was paused before its first cycle is paused again or freed, and no synth is ended
before its first cycle: in these two cases `Graph_Dtor` and `Graph_Calc` cannot tell that the
constructors are missing.
-/

namespace PoopWorms.Server

open Octets Forest LinkedList World

/-- The functions that call the constructors. -/
def NodeCalcFunc.constructs : NodeCalcFunc → Bool
  | graphFirstCalc => true
  | graphNullFirstCalc => true
  | _ => false

theorem NodeCalcFunc.synth_of_fits {f : NodeCalcFunc} {mIsGroup : Bool} (h : f.fits mIsGroup)
    (hf : f.fits true = false) : mIsGroup = false := by
  cases mIsGroup with
  | true =>
    rw [hf] at h
    cases h
  | false => rfl

theorem NodeCalcFunc.constructs_iff {f : NodeCalcFunc} :
    f.constructs = true ↔ f = graphFirstCalc ∨ f = graphNullFirstCalc := by
  cases f <;> simp [constructs]

namespace Graph

/-- The calls of `Graph_Dtor`. -/
def dtorCalls (g : Graph) : List UnitCall := (List.range g.mNumUnits).map .unitDtor

/-- All calls are calculations of calc units. -/
def Calculates (g : Graph) (calls : List UnitCall) : Prop :=
  ∀ call ∈ calls, ∃ u ∈ g.mCalcUnits, call = .unitCalc u

/-- All units have been constructed in order, and after that only calculated. -/
def Built (g : Graph) : Prop := ∃ calcs, g.Calculates calcs ∧ g.calls = g.ctorCalls ++ calcs

/-- No unit has been called, or all have been constructed, calculated and at last destructed. -/
def Destroyed (g : Graph) : Prop :=
  g.calls = [] ∨ ∃ calcs, g.Calculates calcs ∧ g.calls = g.ctorCalls ++ calcs ++ g.dtorCalls

/-- The synth was paused before its first cycle. -/
def PausedEarly (g : Graph) : Prop := g.mCalcFunc = .graphNullFirstCalc ∧ g.calls = []

/-- The first cycle of the synth is still to come. -/
def Early (g : Graph) : Prop := g.mCalcFunc.constructs = true ∧ g.calls = []

/-- What the units have received when no loop goes over them. -/
structure Rests (g : Graph) : Prop where
  waiting : g.mCalcFunc.constructs = true → g.calls = []
  built : g.mCalcFunc.constructs = false → g.Built

/-- What the units have received when the loop `f` is still to make `calls`. -/
structure InLoop (g : Graph) (f : NodeCalcFunc) (calls : List UnitCall) : Prop where
  constructing : f.constructs = true → g.calls ++ calls = g.ctorCalls
  computing : f.constructs = false → g.mCalcFunc.constructs = false ∧ g.Built ∧ g.Calculates calls

variable {g : Graph} {f : NodeCalcFunc} {call : UnitCall} {calls : List UnitCall}

/-- A call is made. -/
theorem InLoop.after_call (h : g.InLoop f (call :: calls)) :
    InLoop { g with calls := g.calls ++ [call] } f calls where
  constructing hf := by
    show (g.calls ++ [call]) ++ calls = g.ctorCalls
    rw [List.append_assoc]
    exact h.constructing hf
  computing hf := by
    obtain ⟨hfunc, ⟨calcs, hcalcs, hcalls⟩, hmore⟩ := h.computing hf
    refine ⟨hfunc, ⟨calcs ++ [call], fun c hc => ?_, ?_⟩,
      fun c hc => hmore c (List.mem_cons_of_mem _ hc)⟩
    · rcases List.mem_append.mp hc with hc | hc
      · exact hcalcs c hc
      · exact hmore c (List.mem_singleton.mp hc ▸ List.mem_cons_self)
    · show g.calls ++ [call] = g.ctorCalls ++ (calcs ++ [call])
      rw [hcalls, List.append_assoc]

/-- A loop that is done has constructed the units, if they were not before. -/
theorem InLoop.built (h : g.InLoop f []) : g.Built := by
  by_cases hf : f.constructs = true
  · refine ⟨[], fun c hc => absurd hc List.not_mem_nil, ?_⟩
    rw [List.append_nil, ← h.constructing hf, List.append_nil]
  · exact (h.computing (Bool.eq_false_iff.mpr hf)).2.1

theorem Built.inLoop (h : g.Built) (hfunc : g.mCalcFunc.constructs = false)
    (hf : f.constructs = false) : g.InLoop f g.calcCalls where
  constructing hf' := absurd (hf ▸ hf') (by decide)
  computing _ := by
    refine ⟨hfunc, h, fun c hc => ?_⟩
    obtain ⟨u, hu, rfl⟩ := List.mem_map.mp hc
    exact ⟨u, hu, rfl⟩

/-- The calls so far, whatever the synth is doing. -/
theorem InLoop.so_far (h : g.InLoop f calls) : g.calls <+: g.ctorCalls ∨ g.Built := by
  by_cases hf : f.constructs = true
  · exact .inl ⟨calls, h.constructing hf⟩
  · exact .inr (h.computing (Bool.eq_false_iff.mpr hf)).2.1

theorem Rests.so_far (h : g.Rests) : g.calls <+: g.ctorCalls ∨ g.Built := by
  by_cases hf : g.mCalcFunc.constructs = true
  · rw [h.waiting hf]
    exact .inl (List.nil_prefix)
  · exact .inr (h.built (Bool.eq_false_iff.mpr hf))

theorem Rests.new (mNumUnits : ℕ) (mCalcUnits : List ℕ) : (new mNumUnits mCalcUnits).Rests where
  waiting _ := rfl
  built h := by cases h

/-- `Graph_Dtor` sees whether the constructors were called, but for a synth paused early. -/
theorem Rests.destroyed (h : g.Rests) (hearly : ¬ g.PausedEarly) : g.graphDtor.Destroyed := by
  unfold Graph.graphDtor
  by_cases hfirst : g.mCalcFunc = .graphFirstCalc
  · rw [if_neg (not_not.mpr hfirst)]
    exact .inl (h.waiting (by rw [hfirst]; rfl))
  · rw [if_pos hfirst]
    have hfunc : g.mCalcFunc.constructs = false := by
      by_contra hfunc
      rw [Bool.not_eq_false] at hfunc
      exact hearly ⟨(NodeCalcFunc.constructs_iff.mp hfunc).resolve_left hfirst, h.waiting hfunc⟩
    obtain ⟨calcs, hcalcs, hcalls⟩ := h.built hfunc
    refine .inr ⟨calcs, hcalcs, ?_⟩
    show g.calls ++ g.dtorCalls = g.ctorCalls ++ calcs ++ g.dtorCalls
    rw [hcalls]

end Graph

namespace Engine

variable {e e' e₁ : Engine} {kids : NodeID → List NodeID} {c c' : Config} {n s x : NodeID}
  {b F rest : List NodeID} {f : NodeCalcFunc} {calls : List UnitCall} {stack : List Frame}
  {r : Request} {path pend : List NodeID}

/-! ## The innermost loop -/

/-- Only the innermost loop goes over units, and its synth is the innermost node. -/
theorem Loops.graph_mem {isGroup : NodeID → Bool} (h : Loops isGroup kids stack path pend)
    (hleaf : ∀ n, isGroup n = false → kids n = []) (hframe : .graph f s calls ∈ stack) :
    isGroup s = false ∧ path.head? = some s ∧ ∃ rest, stack = .graph f s calls :: rest ∧
      ∀ f' s' calls', .graph f' s' calls' ∉ rest := by
  induction h generalizing f s calls with
  | idle => cases hframe
  | @group f' g stack path pend done l a _ hplace _ _ _ _ ih =>
    obtain ⟨hs, hhead, -⟩ := ih ((List.mem_cons.mp hframe).resolve_left nofun)
    have hkid := hplace s hhead
    rw [hleaf s hs] at hkid
    cases hkid
  | @graph f' s' p calls' stack path pend _ hplace _ hs' ih =>
    have hrest : ∀ f s calls, .graph f s calls ∉ stack := by
      intro f s calls hmem
      obtain ⟨hs, hhead, -⟩ := ih hmem
      cases hhead
      rw [hleaf p hs] at hplace
      cases hplace
    have htop := (List.mem_cons.mp hframe).resolve_right (hrest f s calls)
    cases htop
    exact ⟨hs', rfl, stack, rfl, hrest⟩

theorem Config.Looping.graph_mem (h : c.Looping) (hframe : .graph f s calls ∈ c.engine.stack) :
    (c.engine.world.mNode s).mIsGroup = false ∧ c.path.head? = some s ∧
      ∃ rest, c.engine.stack = .graph f s calls :: rest ∧
        ∀ f' s' calls', .graph f' s' calls' ∉ rest := by
  obtain ⟨pend, hloops⟩ := h.looping
  exact hloops.graph_mem (fun n hn => h.tree.toTree.kids_eq_nil_of_synth hn) hframe

/-- A node gets its turn only when no loop goes over units. -/
theorem Config.Looping.not_graph (h : c.Looping) {e : Engine} (ht : Turn c x b rest e) :
    (∀ f s calls, .graph f s calls ∉ c.engine.stack) ∧ ∀ f s calls, .graph f s calls ∉ e.stack := by
  have hleaf := fun n hn => h.tree.toTree.kids_eq_nil_of_synth (s := n) hn
  have hsynth : ∀ s, (c.engine.world.mNode s).mIsGroup = false → c.path.head? ≠ some s := by
    intro s hs hhead
    have hkid := ht.parent s hhead
    rw [hleaf s hs] at hkid
    cases hkid
  constructor
  · intro f s calls hframe
    obtain ⟨hs, hhead, -⟩ := h.graph_mem hframe
    exact hsynth s hs hhead
  · intro f s calls hframe
    obtain ⟨hs, hhead, -⟩ := ht.loops.graph_mem hleaf hframe
    exact hsynth s hs hhead

/-! ## The invariant -/

/-- What the units of all nodes have received. -/
structure Disciplined (e : Engine) : Prop where
  gone : ∀ n ∉ e.world.mNodeLib, (e.graph n).Destroyed
  groups : ∀ n ∈ e.world.mNodeLib, (e.world.mNode n).mIsGroup = true → (e.graph n).calls = []
  loops : ∀ f n calls, .graph f n calls ∈ e.stack → (e.graph n).InLoop f calls
  synths : ∀ n ∈ e.world.mNodeLib, (e.world.mNode n).mIsGroup = false →
    (∀ f calls, .graph f n calls ∉ e.stack) → (e.graph n).Rests

theorem disciplined_new (inOptions : WorldOptions) (graphDefs : List (List Byte)) :
    Disciplined (new inOptions graphDefs) where
  gone _ _ := .inl rfl
  groups _ _ _ := rfl
  loops _ _ _ hframe := absurd hframe List.not_mem_nil
  synths n hn hsynth := by
    have hroot : n = 0#32 := by simpa [new, World.new] using hn
    rw [hroot] at hsynth
    cases hsynth

/-- Nothing that the invariant speaks of is another. -/
theorem Disciplined.congr (h : Disciplined e) (hgraph : e'.graph = e.graph)
    (htable : e'.world.mNodeLib = e.world.mNodeLib)
    (hgroup : ∀ n, (e'.world.mNode n).mIsGroup = (e.world.mNode n).mIsGroup)
    (hstack : ∀ f n calls, .graph f n calls ∈ e'.stack ↔ .graph f n calls ∈ e.stack) :
    Disciplined e' where
  gone n hn := by
    rw [hgraph]
    exact h.gone n (htable ▸ hn)
  groups n hn hn' := by
    rw [hgraph]
    exact h.groups n (htable ▸ hn) (hgroup n ▸ hn')
  loops f n calls hframe := by
    rw [hgraph]
    exact h.loops f n calls ((hstack f n calls).mp hframe)
  synths n hn hn' hout := by
    rw [hgraph]
    exact h.synths n (htable ▸ hn) (hgroup n ▸ hn') fun f calls hframe =>
      hout f calls ((hstack f n calls).mpr hframe)

/-- A node gets another calc function. Its first cycle stays ahead, or has begun. -/
theorem Disciplined.setCalcFunc (h : Disciplined e) (hn : n ∈ e.world.mNodeLib)
    (hnew : f.constructs = true → (e.graph n).mCalcFunc.constructs = true)
    (hold : f.constructs = false → (e.world.mNode n).mIsGroup = false → ¬ (e.graph n).Early) :
    Disciplined (e.setCalcFunc n f) where
  gone m hm := by
    rw [setCalcFunc_of_ne e (ne_of_mem_of_not_mem hn hm).symm]
    exact h.gone m hm
  groups m hm hgroup := by
    by_cases hmn : m = n
    · subst hmn
      rw [setCalcFunc_self]
      exact h.groups m hm hgroup
    · rw [setCalcFunc_of_ne e hmn]
      exact h.groups m hm hgroup
  loops f' m calls hframe := by
    have hm := h.loops f' m calls hframe
    by_cases hmn : m = n
    · subst hmn
      rw [setCalcFunc_self]
      refine ⟨hm.constructing, fun hf' => ?_⟩
      obtain ⟨hfunc, hbuilt, hcalls⟩ := hm.computing hf'
      refine ⟨?_, hbuilt, hcalls⟩
      by_contra hf
      rw [hnew (Bool.not_eq_false _ ▸ hf)] at hfunc
      cases hfunc
    · rw [setCalcFunc_of_ne e hmn]
      exact hm
  synths m hm hsynth hout := by
    have hrests := h.synths m hm hsynth hout
    by_cases hmn : m = n
    · subst hmn
      rw [setCalcFunc_self]
      refine ⟨fun hf => hrests.waiting (hnew hf), fun hf => hrests.built ?_⟩
      by_contra hfunc
      rw [Bool.not_eq_false] at hfunc
      exact hold hf hsynth ⟨hfunc, hrests.waiting hfunc⟩
    · rw [setCalcFunc_of_ne e hmn]
      exact hrests

/-- A node is paused: a synth that was paused early is not paused again. -/
theorem Disciplined.pause (h : Disciplined e) (hn : n ∈ e.world.mNodeLib)
    (hearly : ¬ (e.graph n).PausedEarly) : Disciplined (e.pause n) := by
  have hpaused : Disciplined (e.setCalcFunc n
      ((e.graph n).mCalcFunc.setRun (e.world.mNode n).mIsGroup 0)) := by
    apply h.setCalcFunc hn
    · intro hf
      cases hfunc : (e.graph n).mCalcFunc <;> rw [hfunc] at hf <;>
        first | rfl | (revert hf; cases (e.world.mNode n).mIsGroup <;> decide)
    · intro hf hsynth hwait
      rcases NodeCalcFunc.constructs_iff.mp hwait.1 with hfunc | hfunc
      · rw [hfunc, hsynth] at hf
        cases hf
      · exact hearly ⟨hfunc, hwait.2⟩
  exact hpaused.congr rfl rfl (fun _ => rfl) fun _ _ _ => Iff.rfl

/-- Nodes are freed that no loop is in. -/
theorem Disciplined.freed (h : Disciplined e) (hfreed : Freed e F e')
    (hF : ∀ n ∈ F, n ∈ e.world.mNodeLib ∧ ¬ (e.graph n).PausedEarly ∧
      ∀ f calls, .graph f n calls ∉ e.stack) : Disciplined e' where
  gone n hn := by
    by_cases hnF : n ∈ F
    · obtain ⟨hnlib, hearly, hout⟩ := hF n hnF
      rw [hfreed.gone n hnF]
      cases hgroup : (e.world.mNode n).mIsGroup with
      | true => exact .inl (h.groups n hnlib hgroup)
      | false => exact (h.synths n hnlib hgroup hout).destroyed hearly
    · rw [hfreed.kept n hnF]
      exact h.gone n fun hnlib => hn ((hfreed.table n).mpr ⟨hnlib, hnF⟩)
  groups n hn hgroup := by
    obtain ⟨hnlib, hnF⟩ := (hfreed.table n).mp hn
    rw [hfreed.kept n hnF]
    exact h.groups n hnlib (hfreed.group n ▸ hgroup)
  loops f n calls hframe := by
    rw [hfreed.stack] at hframe
    rw [hfreed.kept n fun hnF => (hF n hnF).2.2 f calls hframe]
    exact h.loops f n calls hframe
  synths n hn hsynth hout := by
    obtain ⟨hnlib, hnF⟩ := (hfreed.table n).mp hn
    rw [hfreed.kept n hnF]
    exact h.synths n hnlib (hfreed.group n ▸ hsynth) fun f calls => hfreed.stack ▸ hout f calls

/-- The synth that the innermost loop was in is at rest, and no loop is in another one. -/
theorem Disciplined.leave (h : Disciplined e) (hstack : e.stack = .graph f s calls :: stack)
    (hrest : ∀ f' s' calls', .graph f' s' calls' ∉ stack) (hs : s ∈ e.world.mNodeLib)
    (hsynth : (e.world.mNode s).mIsGroup = false) {g : Graph} {stack' : List Frame}
    (hloops : ∀ f' n calls', .graph f' n calls' ∈ stack' → n = s ∧ g.InLoop f' calls')
    (hself : (∀ f' calls', .graph f' s calls' ∉ stack') → g.Rests) :
    Disciplined { e with graph := Function.update e.graph s g, stack := stack' } where
  gone n hn := by
    show (Function.update e.graph s g n).Destroyed
    rw [Function.update_of_ne (ne_of_mem_of_not_mem hs hn).symm]
    exact h.gone n hn
  groups n hn hgroup := by
    show (Function.update e.graph s g n).calls = []
    have hns : n ≠ s := by
      rintro rfl
      rw [hsynth] at hgroup
      cases hgroup
    rw [Function.update_of_ne hns]
    exact h.groups n hn hgroup
  loops f' n calls' hframe := by
    obtain ⟨rfl, hloop⟩ := hloops f' n calls' hframe
    show (Function.update e.graph n g n).InLoop f' calls'
    rw [Function.update_self]
    exact hloop
  synths n hn hsynth' hout := by
    show (Function.update e.graph s g n).Rests
    by_cases hns : n = s
    · subst hns
      rw [Function.update_self]
      exact hself hout
    · rw [Function.update_of_ne hns]
      apply h.synths n hn hsynth'
      intro f' calls' hframe
      rw [hstack] at hframe
      rcases List.mem_cons.mp hframe with heq | hframe
      · cases heq
        exact hns rfl
      · exact hrest f' n calls' hframe

/-! ## Effects of a cycle -/

/-- No synth is ended before its first cycle, or paused again or freed when it was paused early. -/
def unitAtom (e : Engine) : Atom → Prop
  | .op (.nodeEnd n) => ¬ (e.graph n).Early
  | .op (.nodePause n) => ¬ (e.graph n).PausedEarly
  | .op (.groupDeleteAll y) =>
    ∀ n ∈ e.world.mNodeLib, e.world.Within y n → ¬ (e.graph n).PausedEarly
  | .op (.groupDeepFreeGraphs y) =>
    ∀ n ∈ e.world.mNodeLib, e.world.Within y n → ¬ (e.graph n).PausedEarly
  | .call x => (e.graph x).mCalcFunc = .nodeDelete →
    ∀ n ∈ e.world.mNodeLib, e.world.Within x n → ¬ (e.graph n).PausedEarly
  | _ => True

/-- What a node that gets its turn finds. -/
theorem Disciplined.turn (h : Disciplined c.engine) (hc : c.Looping) (ht : Turn c x b rest e) :
    Disciplined (e.noteCall x) := by
  obtain ⟨hidle, hidle'⟩ := hc.not_graph ht
  have hx : x ∈ c.engine.world.mNodeLib := hc.live x (by simp [ht.pend])
  obtain ⟨f, hself, hf⟩ := ht.self
  have hset : Disciplined (c.engine.setCalcFunc x f) := by
    apply h.setCalcFunc hx
    · intro hconstructs
      rcases hf with rfl | ⟨-, rfl | rfl⟩
      · exact hconstructs
      · cases hconstructs
      · cases hconstructs
    · intro hconstructs _ hearly
      rcases hf with rfl | ⟨hgroup, -⟩
      · rw [hearly.1] at hconstructs
        cases hconstructs
      · rw [Graph.Early, hgroup] at hearly
        cases hearly.1
  have hgraph : e.graph = (c.engine.setCalcFunc x f).graph := by
    funext n
    by_cases hnx : n = x
    · subst hnx
      rw [setCalcFunc_self, hself]
    · rw [setCalcFunc_of_ne _ hnx, ht.kept n hnx]
  refine hset.congr ((noteCall_graph e x).trans hgraph) ?_ ?_ ?_
  · rw [noteCall_world, ht.world]
    rfl
  · intro n
    rw [noteCall_world, ht.world]
    rfl
  · intro f n calls
    rw [noteCall_stack]
    exact iff_of_false (hidle' f n calls) (hidle f n calls)

/-- A loop over the units of `x`, or over its children, begins. -/
theorem Disciplined.enter (h : Disciplined e) (hx : x ∈ e.world.mNodeLib)
    (hidle : ∀ f s calls, .graph f s calls ∉ e.stack)
    (hkind : (e.graph x).mCalcFunc.fits (e.world.mNode x).mIsGroup)
    (hnull : (e.graph x).mCalcFunc ≠ .nodeNullCalc) (hend : (e.graph x).mCalcFunc ≠ .nodeDelete) :
    Disciplined (e.push (e.frameOf x)) where
  gone := h.gone
  groups := h.groups
  synths n hn hsynth hout := h.synths n hn hsynth fun f calls hframe => hidle f n calls hframe
  loops f n calls hframe := by
    have htop := (List.mem_cons.mp hframe).resolve_right (hidle f n calls)
    have hrests : (e.graph x).mCalcFunc.fits true = false → (e.graph x).Rests := fun hfunc =>
      h.synths x hx (NodeCalcFunc.synth_of_fits hkind hfunc) (hidle · x ·)
    unfold frameOf at htop
    -- a loop over units is one of a synth
    cases hfunc : (e.graph x).mCalcFunc with
    | graphFirstCalc | graphNullFirstCalc =>
      rw [hfunc] at htop hrests
      cases htop
      refine ⟨fun _ => ?_, nofun⟩
      show (e.graph x).calls ++ (e.graph x).ctorCalls = (e.graph x).ctorCalls
      rw [(hrests rfl).waiting (by rw [hfunc]; rfl)]
      exact List.nil_append _
    | graphCalc | graphCalcTrace =>
      rw [hfunc] at htop hrests
      cases htop
      have hcomputes : (e.graph x).mCalcFunc.constructs = false := by
        rw [hfunc]
        rfl
      exact ((hrests rfl).built hcomputes).inLoop hcomputes rfl
    | nodeNullCalc => exact absurd hfunc hnull
    | nodeDelete => exact absurd hfunc hend
    | _ =>
      rw [hfunc] at htop
      cases htop

/-- What is freed below a node that no loop is in is not paused early. -/
theorem Config.Looping.freeable (h : c.Looping) (hpath : ∀ n ∈ c.path, n ∉ F) (hn : n ∈ F) :
    ∀ f calls, .graph f n calls ∉ c.engine.stack := by
  intro f calls hframe
  obtain ⟨-, hhead, -⟩ := h.graph_mem hframe
  exact hpath n (List.mem_of_head? hhead) hn

/-- The loop over units that is in progress, as the invariant sees it. -/
theorem Config.Looping.top (h : c.Looping) (hstack : c.engine.stack = .graph f s calls :: stack) :
    s ∈ c.engine.world.mNodeLib ∧ (c.engine.world.mNode s).mIsGroup = false ∧
      ∀ f' s' calls', .graph f' s' calls' ∉ stack := by
  obtain ⟨hsynth, hhead, rest, hrest, hidle⟩ := h.graph_mem (hstack ▸ List.mem_cons_self)
  rw [hstack] at hrest
  cases hrest
  exact ⟨h.live s (List.mem_append_left _ (List.mem_of_head? hhead)), hsynth, hidle⟩

/-- A loop over units is done. -/
theorem Disciplined.finishGraph (h : Disciplined e) (hstack : e.stack = .graph f s [] :: stack)
    (hidle : ∀ f' s' calls', .graph f' s' calls' ∉ stack) (hs : s ∈ e.world.mNodeLib)
    (hsynth : (e.world.mNode s).mIsGroup = false) :
    Disciplined ({ e with stack }.finished f s) := by
  have hloop := h.loops f s [] (by simp [hstack])
  have hbuilt := hloop.built
  have hleave := fun g hg => h.leave (g := g) hstack hidle hs hsynth
    (fun f' n calls' hframe => absurd hframe (hidle f' n calls')) (fun _ => hg)
  unfold finished
  cases hend : f.atEnd with
  | some f' =>
    apply hleave
    have hf' : f'.constructs = false := by
      cases f <;> cases hend <;> rfl
    exact ⟨fun hf => absurd (hf' ▸ hf) (by decide), fun _ => hbuilt⟩
  | none =>
    have hf : f.constructs = false := by
      cases f <;> cases hend <;> rfl
    refine (hleave (e.graph s) ⟨fun hfunc => ?_, fun _ => hbuilt⟩).congr ?_ rfl (fun _ => rfl)
      fun _ _ _ => Iff.rfl
    · rw [(hloop.computing hf).1] at hfunc
      cases hfunc
    · exact (Function.update_eq_self s e.graph).symm

/-- The constructors are done, and the calculations come. -/
theorem Disciplined.finishFirst (h : Disciplined e)
    (hstack : e.stack = .graph .graphFirstCalc s [] :: stack)
    (hidle : ∀ f' s' calls', .graph f' s' calls' ∉ stack) (hs : s ∈ e.world.mNodeLib)
    (hsynth : (e.world.mNode s).mIsGroup = false) :
    Disciplined (({ e with stack }.finished .graphFirstCalc s).push
      (.graph .graphCalc s (e.graph s).calcCalls)) := by
  have hbuilt : ({ e.graph s with mCalcFunc := .graphCalc } : Graph).Built :=
    (h.loops .graphFirstCalc s [] (by simp [hstack])).built
  apply h.leave hstack hidle hs hsynth
  · intro f' n calls' hframe
    have htop := (List.mem_cons.mp hframe).resolve_right (hidle f' n calls')
    cases htop
    exact ⟨rfl, hbuilt.inLoop rfl rfl⟩
  · intro hout
    exact absurd List.mem_cons_self (hout _ _)

/-- Every effect that is allowed keeps the invariant. -/
theorem Disciplined.effect {a : Atom} (h : Disciplined c.engine) (hc : c.Looping)
    (ha : unitAtom c.engine a) (heffect : Effect c a c') : Disciplined c'.engine := by
  cases heffect with
  | @ended n hn =>
    have hset : Disciplined (c.engine.setCalcFunc n .nodeDelete) :=
      h.setCalcFunc hn nofun fun _ _ => ha
    exact hset.congr rfl rfl (fun _ => rfl) fun _ _ _ => Iff.rfl
  | paused hn => exact h.pause hn ha
  | freed hop hfreed hclosed hpath =>
    obtain ⟨y, hy, hF⟩ := hop
    apply h.freed hfreed
    intro n hn
    obtain ⟨hnlib, hwithin⟩ := hF n hn
    refine ⟨hnlib, ?_, hc.freeable hpath hn⟩
    rcases hy with rfl | rfl
    · exact ha n hnlib hwithin
    · exact ha n hnlib hwithin
  | @unit f s call calls stack path hstack hpath =>
    obtain ⟨hs, hsynth, hidle⟩ := hc.top hstack
    have hloop := (h.loops f s (call :: calls) (by simp [hstack])).after_call
    apply h.leave hstack hidle hs hsynth
    · intro f' n calls' hframe
      have htop := (List.mem_cons.mp hframe).resolve_right (hidle f' n calls')
      cases htop
      exact ⟨rfl, hloop⟩
    · intro hout
      exact absurd List.mem_cons_self (hout _ _)
  | @finishGroup f g stack path hstack hpath =>
    have hpop : Disciplined { c.engine with stack } := by
      refine h.congr rfl rfl (fun _ => rfl) fun f' n calls => ?_
      rw [hstack]
      exact ⟨List.mem_cons_of_mem _, fun hframe => (List.mem_cons.mp hframe).resolve_left nofun⟩
    obtain ⟨pend, hloops⟩ := hc.looping
    rw [hstack] at hloops
    obtain ⟨-, -, -, -, -, -, -, -, -, -, -, -, -, hgroup⟩ := hloops.group_inv
    have hg : g ∈ c.engine.world.mNodeLib := hc.live g (by simp [hpath])
    show Disciplined ({ c.engine with stack }.finished f g)
    unfold finished
    cases hend : f.atEnd with
    | some f' =>
      apply hpop.setCalcFunc hg
      · intro hf'
        cases f <;> cases hend <;> cases hf'
      · intro _ hsynth
        have hsynth' : (c.engine.world.mNode g).mIsGroup = false := hsynth
        rw [hgroup] at hsynth'
        cases hsynth'
    | none => exact hpop
  | finishGraph hstack _ _ =>
    obtain ⟨hs, hsynth, hidle⟩ := hc.top hstack
    exact h.finishGraph hstack hidle hs hsynth
  | finishFirst hstack _ =>
    obtain ⟨hs, hsynth, hidle⟩ := hc.top hstack
    exact h.finishFirst hstack hidle hs hsynth
  | skip ht _ => exact h.turn hc ht
  | @delete x b rest e e' ht hf hx0 hfreed =>
    apply (h.turn hc ht).freed hfreed
    have hx : x ∈ c.engine.world.mNodeLib := hc.live x (by simp [ht.pend])
    have hdelete : (c.engine.graph x).mCalcFunc = .nodeDelete := by
      obtain ⟨f, hself, hsame | ⟨-, rfl | rfl⟩⟩ := ht.self
      · rw [← hsame, ← hf, hself]
      · rw [hself] at hf
        cases hf
      · rw [hself] at hf
        cases hf
    intro n hn
    have hnlib : n ∈ c.engine.world.mNodeLib := by
      rcases List.mem_cons.mp hn with rfl | hnb
      · exact hx
      · exact (hc.tree.toTree.mem_of_below ht.spans hnb).1
    have hwithin := (hc.tree.toTree.within_iff ht.spans hnlib).mpr hn
    refine ⟨?_, ?_, ?_⟩
    · rw [noteCall_world, ht.world]
      exact hnlib
    · rw [noteCall_graph]
      by_cases hnx : n = x
      · subst hnx
        rw [Graph.PausedEarly, hf]
        exact fun hearly => nomatch hearly.1
      · rw [ht.kept n hnx]
        exact ha hdelete n hnlib hwithin
    · intro f calls
      rw [noteCall_stack]
      exact (hc.not_graph ht).2 f n calls
  | @enter x b rest e ht hnull hend =>
    have hx : x ∈ c.engine.world.mNodeLib := hc.live x (by simp [ht.pend])
    have hframe : e.frameOf x = (e.noteCall x).frameOf x := by
      unfold frameOf
      rw [noteCall_graph, noteCall_world]
    show Disciplined ((e.noteCall x).push (e.frameOf x))
    rw [hframe]
    apply (h.turn hc ht).enter
    · rw [noteCall_world, ht.world]
      exact hx
    · intro f s calls
      rw [noteCall_stack]
      exact (hc.not_graph ht).2 f s calls
    · rw [noteCall_graph, noteCall_world, ht.world]
      exact ht.fits hc.toSound hx
    · rw [noteCall_graph]
      exact hnull
    · rw [noteCall_graph]
      exact hend

/-! ## Requests -/

/-- No synth that was paused early is paused again or freed. -/
def unitRequest (e : Engine) (r : Request) : Prop :=
  ∀ n ∈ e.world.mNodeLib, e.frees r n ∨ e.pauses r n → ¬ (e.graph n).PausedEarly

/-- A new node has units that wait, or none. -/
theorem Disciplined.made {g : Graph} (h : Disciplined e) (hidle : e.stack = [])
    (hmade : Made e s g e') : Disciplined e' where
  gone n hn := by
    rw [hmade.table, Finset.mem_insert, not_or] at hn
    rw [hmade.graph, Function.update_of_ne hn.1]
    exact h.gone n hn.2
  groups n hn hgroup := by
    rw [hmade.graph]
    by_cases hns : n = s
    · subst hns
      rw [Function.update_self]
      rcases hmade.kind with ⟨rfl, -⟩ | ⟨⟨_, _, rfl⟩, -⟩
      · rfl
      · rfl
    · rw [Function.update_of_ne hns]
      rw [hmade.table] at hn
      exact h.groups n ((Finset.mem_insert.mp hn).resolve_left hns) (hmade.group n hns ▸ hgroup)
  loops f n calls hframe := by
    rw [hmade.stack, hidle] at hframe
    cases hframe
  synths n hn hsynth _ := by
    rw [hmade.graph]
    by_cases hns : n = s
    · subst hns
      rw [Function.update_self]
      rcases hmade.kind with ⟨-, hgroup⟩ | ⟨⟨_, _, rfl⟩, -⟩
      · rw [hgroup] at hsynth
        cases hsynth
      · exact .new _ _
    · rw [Function.update_of_ne hns]
      rw [hmade.table] at hn
      apply h.synths n ((Finset.mem_insert.mp hn).resolve_left hns) (hmade.group n hns ▸ hsynth)
      intro f calls
      rw [hidle]
      exact List.not_mem_nil

/-- Every outcome of a request that is allowed keeps the invariant. -/
theorem Disciplined.outcome (h : Disciplined e) (hidle : e.stack = []) (hr : unitRequest e r)
    (houtcome : Outcome e r e') : Disciplined e' := by
  have hout : ∀ f n calls, .graph f n calls ∉ e.stack := by
    intro f n calls
    rw [hidle]
    exact List.not_mem_nil
  cases houtcome with
  | relinked hrelinked =>
    obtain ⟨w, rfl, htable, hgroup⟩ := hrelinked
    exact h.congr rfl htable hgroup fun _ _ _ => Iff.rfl
  | made hmade => exact h.made hidle hmade
  | @replaced s g e₁ F _ hmade hfreed hF =>
    apply (h.made hidle hmade).freed hfreed
    intro n hn
    obtain ⟨hns, hnlib, -, hfrees⟩ := hF n hn
    refine ⟨?_, ?_, fun f calls => ?_⟩
    · rw [hmade.table]
      exact Finset.mem_insert_of_mem hnlib
    · rw [hmade.graph, Function.update_of_ne hns]
      exact hr n hnlib (.inl hfrees)
    · rw [hmade.stack]
      exact hout f n calls
  | freed hfreed hF =>
    apply h.freed hfreed
    intro n hn
    obtain ⟨hnlib, -, hfrees⟩ := hF n hn
    exact ⟨hnlib, hr n hnlib (.inl hfrees), fun f calls => hout f n calls⟩
  | @calcFunc n f hn hf hold =>
    apply h.setCalcFunc hn
    · intro hconstructs
      rcases hold with hold | ⟨-, rfl | rfl⟩ | ⟨-, rfl⟩ | ⟨-, rfl | rfl | rfl⟩
      · exact hold ▸ hconstructs
      all_goals cases hconstructs
    · intro hconstructs _ hearly
      rcases hold with hold | ⟨hold, -⟩ | ⟨hold, -⟩ | ⟨hold, -⟩
      · rw [← hold, hearly.1] at hconstructs
        cases hconstructs
      all_goals
        rw [Graph.Early, hold] at hearly
        cases hearly.1
  | @paused n hn hpauses => exact h.pause hn (hr n hn (.inr hpauses))

/-! ## Runs -/

def unitRules : Rules := ⟨unitRequest, unitAtom⟩

/-- Whatever requests, cycles and done actions come, in any order, as long as no synth that was
paused before its first cycle is paused again or freed, and none is ended before its first cycle:
the units of a synth are constructed in order, each once, before any of them is calculated, and a
synth that is freed has had all its units destructed, each once, or none of them called. -/
theorem units_disciplined (inOptions : WorldOptions) (graphDefs : List (List Byte))
    (events : List EngineEvent) (hlife : LifeAllowed unitRules (new inOptions graphDefs) events) :
    ∃ e, (new inOptions graphDefs).life events = some e ∧
      (∀ n ∈ e.world.mNodeLib, (e.world.mNode n).mIsGroup = false →
        (e.graph n).calls <+: (e.graph n).ctorCalls ∨ (e.graph n).Built) ∧
      ∀ n ∉ e.world.mNodeLib, (e.graph n).Destroyed := by
  obtain ⟨c, hrun, halive, hdisciplined⟩ := life_induction (P := Disciplined) (R := unitRules)
    (fun _ _ _ _ hidle h hr houtcome => h.outcome hidle.idle hr houtcome)
    (fun _ _ _ hc h ha heffect => h.effect hc ha heffect)
    (idle_new inOptions graphDefs).alive (disciplined_new inOptions graphDefs) hlife
  refine ⟨c.engine, hrun, fun n hn hsynth => ?_, hdisciplined.gone⟩
  by_cases hout : ∀ f calls, .graph f n calls ∉ c.engine.stack
  · exact (hdisciplined.synths n hn hsynth hout).so_far
  · push Not at hout
    obtain ⟨f, calls, hframe⟩ := hout
    exact (hdisciplined.loops f n calls hframe).so_far

/-- Of two synths one is freed before its first cycle. -/
theorem units_disciplined_freed : ∃ e, (new kDefaultWorldOptions [[1#8]]).life
    [.request (.sNew [1#8] 2#32 0#32 0#32 1 [0]), .request (.sNew [1#8] 3#32 0#32 0#32 1 [0]),
      .request (.nFree 2#32), .run, .step [], .step [], .step [], .step [], .step [], .step []] =
    some e ∧ ∀ n ∉ e.world.mNodeLib, (e.graph n).Destroyed := by
  have hrunning : ∀ n, (Function.update (Function.update (fun _ => groupGraph) 2#32 (.new 1 [0]))
      3#32 (.new 1 [0]) n : Graph).mCalcFunc ≠ .graphNullFirstCalc := by
    intro n
    simp only [Function.update_apply]
    split_ifs <;> decide
  obtain ⟨e, hrun, -, hdestroyed⟩ := units_disciplined kDefaultWorldOptions [[1#8]]
    [.request (.sNew [1#8] 2#32 0#32 0#32 1 [0]), .request (.sNew [1#8] 3#32 0#32 0#32 1 [0]),
      .request (.nFree 2#32), .run, .step [], .step [], .step [], .step [], .step [], .step []] (by
    refine .cons rfl ⟨rfl, trivial, fun n _ h => h.elim (fun h => nomatch h.1) False.elim⟩ ?_
    refine .cons rfl ⟨rfl, trivial, fun n _ h => h.elim (fun h => nomatch h.1) False.elim⟩ ?_
    refine .cons rfl ⟨rfl, trivial, fun n _ _ hearly => hrunning n hearly.1⟩ ?_
    refine .cons rfl ⟨rfl, fun h => nomatch h⟩ ?_
    refine .cons rfl (fun h => nomatch h) ?_
    refine .cons rfl ⟨trivial, trivial⟩ ?_
    refine .cons rfl trivial ?_
    refine .cons rfl ⟨trivial, trivial⟩ ?_
    refine .cons rfl trivial ?_
    exact .cons rfl trivial trivial)
  exact ⟨e, hrun, hdestroyed⟩

end Engine

end PoopWorms.Server
