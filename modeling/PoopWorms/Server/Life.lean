import PoopWorms.Server.Cycle
import PoopWorms.Server.RequestEffects

/-!
# The whole life of the nodes

A run of requests, cycles and done actions, in any order, has a result as long as no request
moves a node below itself: the server never touches a node that it has freed. `life_induction`
is the rule for what a run keeps: what every outcome of a request and every effect of a cycle
keeps is kept by the run.
-/

namespace PoopWorms.Server

open Octets Forest LinkedList World

namespace Engine

variable {e e' e₁ : Engine} {kids : NodeID → List NodeID} {c c' : Config} {n : NodeID}
  {b : List NodeID} {events : List EngineEvent}

/-! ## Runs that are allowed -/

/-- What is allowed beyond what the server itself is safe with. -/
structure Rules where
  request : Engine → Request → Prop
  atom : Engine → Atom → Prop

def Rules.all : Rules := ⟨fun _ _ => True, fun _ _ => True⟩

variable {R : Rules}

/-- Requests are performed, and cycles are started, when no cycle is in progress. -/
def EventAllowed (R : Rules) (e : Engine) : EngineEvent → Prop
  | .request r => e.stack = [] ∧ e.RequestSafe r ∧ R.request e r
  | .run => e.stack = [] ∧ R.atom e (.call 0#32)
  | .step fires => StepSafe R.atom e fires

/-- Every event of the run is allowed when it comes. -/
def LifeAllowed (R : Rules) : Engine → List EngineEvent → Prop
  | _, [] => True
  | e, event :: events =>
    EventAllowed R e event ∧ ∀ e', e.next event = some e' → LifeAllowed R e' events

theorem LifeAllowed.cons {event : EngineEvent} {events : List EngineEvent}
    (hnext : e.next event = some e₁) (hevent : EventAllowed R e event)
    (hrest : LifeAllowed R e₁ events) : LifeAllowed R e (event :: events) := by
  refine ⟨hevent, fun e' he' => ?_⟩
  rw [hnext] at he'
  cases he'
  exact hrest

/-- Requests that move no node and make no group. -/
def plain : Request → Bool
  | .gNew _ _ _ | .nBefore _ _ | .nAfter _ _ | .gHead _ _ | .gTail _ _ => false
  | _ => true

/-- Such requests are always safe. -/
theorem lifeAllowed_of_plain (hplain : ∀ r, .request r ∈ events → plain r)
    (hrun : (e.life events).isSome) : LifeAllowed .all e events := by
  induction events generalizing e with
  | nil => trivial
  | cons event events ih =>
    obtain ⟨e'', hrun⟩ := Option.isSome_iff_exists.mp hrun
    rw [Engine.life] at hrun
    simp only [Option.bind_eq_bind, Option.bind_eq_some_iff] at hrun
    obtain ⟨e₁, hnext, hrun⟩ := hrun
    refine ⟨?_, fun e' he' => ih (fun r hr => hplain r (List.mem_cons_of_mem _ hr)) ?_⟩
    · cases event with
      | request r =>
        have hr := hplain r List.mem_cons_self
        unfold Engine.next at hnext
        dsimp only at hnext
        split_ifs at hnext with hstack
        refine ⟨hstack, ?_, trivial⟩
        cases r <;> trivial
      | run =>
        unfold Engine.next at hnext
        dsimp only at hnext
        split_ifs at hnext with hstack
        exact ⟨hstack, trivial⟩
      | step fires => exact stepSafe_true e fires
    · rw [hnext] at he'
      rw [← Option.some.inj he', hrun]
      rfl

/-! ## Between the steps -/

/-- A configuration of a run: beside its traversal, no node is below itself. -/
structure Alive (c : Config) : Prop extends Config.Ok c where
  ranked : Ranked c.kids
  hidden : c.engine.world.mHiddenID.toNat % 8 = 0

theorem Idle.alive (h : Idle e kids) : Alive ⟨e, kids, [], []⟩ where
  tree := h.toListed
  deep _ hn := absurd hn List.not_mem_nil
  once := List.nodup_nil
  live _ hn := absurd hn List.not_mem_nil
  kinds := h.kinds
  loops := by
    show Loops _ kids e.stack [] []
    rw [h.idle]
    exact .idle
  ranked := h.ranked
  hidden := h.hidden

theorem Loops.of_idle {isGroup : NodeID → Bool} {path pend : List NodeID}
    (h : Loops isGroup kids [] path pend) : path = [] ∧ pend = [] := by
  cases h
  exact ⟨rfl, rfl⟩

theorem Alive.idle (h : Alive c) (hstack : c.engine.stack = []) : Idle c.engine c.kids where
  toListed := h.tree
  ranked := h.ranked
  hidden := h.hidden
  idle := hstack
  kinds := h.kinds

/-- No effect puts a node into a list. -/
theorem Effect.kids_subset {a : Atom} (h : Effect c a c') : ∀ p, ∀ x ∈ c'.kids p, x ∈ c.kids p := by
  have hwithout : ∀ F p, ∀ x ∈ Forest.without c.kids F p, x ∈ c.kids p :=
    fun F p x hx => (mem_without.mp hx).2.1
  cases h with
  | freed _ _ _ _ => exact hwithout _
  | delete _ _ _ _ => exact hwithout _
  | _ => exact fun _ _ hx => hx

/-- The loops in progress are on the path. -/
structure Config.Looping (c : Config) : Prop extends Config.Sound c where
  looping : ∃ pend, Loops (fun n => (c.engine.world.mNode n).mIsGroup) c.kids c.engine.stack c.path
    pend

theorem Config.Ok.looping (h : c.Ok) : c.Looping := ⟨h.toSound, c.pend, h.loops⟩

/-- An effect that the rules allow. -/
def EffectAllowed (R : Rules) (c c' : Config) : Prop :=
  ∃ a, c.Looping ∧ R.atom c.engine a ∧ Effect c a c'

theorem effects_kids_subset (h : Relation.ReflTransGen (EffectAllowed R) c c') :
    ∀ p, ∀ x ∈ c'.kids p, x ∈ c.kids p := by
  induction h with
  | refl => exact fun _ _ hx => hx
  | tail _ heffect ih =>
    obtain ⟨a, -, -, heffect⟩ := heffect
    exact fun p x hx => ih p x (heffect.kids_subset p x hx)

/-- A cycle begins with all nodes below the root to come. -/
theorem Idle.run (h : Idle e kids) :
    ∃ b c', Spans kids (kids 0#32) b ∧ e.worldRun = some c'.engine ∧ Alive c' ∧
      Config.Looping ⟨e, kids, [], 0#32 :: b⟩ ∧
      Effect ⟨e, kids, [], 0#32 :: b⟩ (.call 0#32) c' := by
  obtain ⟨b, hb⟩ := h.exists_below 0#32
  have hsound : Config.Sound ⟨e, kids, [], 0#32 :: b⟩ := by
    refine ⟨h.toListed, fun _ hn => absurd hn List.not_mem_nil, h.toTree.nodup_below hb, ?_,
      h.kinds⟩
    intro n hn
    exact (within_below h.toStanding hb hn h.root.1).1
  obtain ⟨c', hrun, heffect, hok⟩ := callNode_effect hsound (turn_root rfl hb h.idle)
  refine ⟨b, c', hb, hrun, ⟨hok, h.ranked.mono heffect.kids_subset, ?_⟩, ⟨hsound, [], ?_⟩,
    heffect⟩
  · rw [(counters_callNode hrun).hidden]
    exact h.hidden
  · show Loops _ kids e.stack [] []
    rw [h.idle]
    exact .idle

/-- A step has a result, made of effects. -/
theorem Alive.step (h : Alive c) {fires : List ℕ} (hsafe : StepSafe R.atom c.engine fires) :
    ∃ c', c.engine.step fires = some c'.engine ∧ Alive c' ∧
      Relation.ReflTransGen (EffectAllowed R) c c' := by
  by_cases hbusy : c.engine.stack = []
  · refine ⟨c, ?_, h, .refl⟩
    unfold Engine.step
    rw [hbusy]
  · obtain ⟨a, c₁, c', -, hguard, heffect, hok₁, hops, hstep, hok'⟩ :=
      step_effects h.toOk fires hsafe hbusy
    have heffects : Relation.ReflTransGen (EffectAllowed R) c c' := by
      apply Relation.ReflTransGen.head ⟨a, h.toOk.looping, hguard, heffect⟩
      apply hops.lift id
      intro x y hop
      obtain ⟨op, hok, hguard, heffect⟩ := hop
      exact ⟨.op op, hok.looping, hguard, heffect⟩
    refine ⟨c', hstep, ⟨hok', h.ranked.mono (effects_kids_subset heffects), ?_⟩, heffects⟩
    rw [(counters_step hstep).hidden]
    exact h.hidden

/-! ## Runs -/

/-- What every outcome of a request and every effect of a cycle keeps is kept by a run, which has
a result. -/
theorem life_induction {P : Engine → Prop}
    (hrequest : ∀ e kids r e', Idle e kids → P e → R.request e r → Outcome e r e' → P e')
    (heffect : ∀ c a c', c.Looping → P c.engine → R.atom c.engine a → Effect c a c' → P c'.engine)
    (h : Alive c) (hP : P c.engine) (hlife : LifeAllowed R c.engine events) :
    ∃ c', c.engine.life events = some c'.engine ∧ Alive c' ∧ P c'.engine := by
  induction events generalizing c with
  | nil => exact ⟨c, rfl, h, hP⟩
  | cons event events ih =>
    obtain ⟨hevent, hrest⟩ := hlife
    have hnext : ∃ c₁, c.engine.next event = some c₁.engine ∧ Alive c₁ ∧ P c₁.engine := by
      cases event with
      | request r =>
        obtain ⟨hstack, hsafe, hrule⟩ := hevent
        obtain ⟨e', kids', hperform, hidle, houtcome⟩ := perform_idle (h.idle hstack) hsafe
        refine ⟨⟨e', kids', [], []⟩, ?_, hidle.alive,
          hrequest _ _ r e' (h.idle hstack) hP hrule houtcome⟩
        show (if c.engine.stack = [] then c.engine.perform r else none) = some e'
        rw [if_pos hstack]
        exact hperform
      | run =>
        obtain ⟨hstack, hrule⟩ := hevent
        obtain ⟨b, c', -, hrun, halive, hlooping, heff⟩ := (h.idle hstack).run
        refine ⟨c', ?_, halive, heffect _ _ c' hlooping hP hrule heff⟩
        show (if c.engine.stack = [] then c.engine.worldRun else none) = some c'.engine
        rw [if_pos hstack]
        exact hrun
      | step fires =>
        obtain ⟨c', hstep, halive, heffects⟩ := h.step hevent
        refine ⟨c', hstep, halive, ?_⟩
        clear hstep halive
        induction heffects with
        | refl => exact hP
        | tail _ heff ihP =>
          obtain ⟨a, hlooping, hguard, heff⟩ := heff
          exact heffect _ a _ hlooping ihP hguard heff
    obtain ⟨c₁, hnext, h₁, hP₁⟩ := hnext
    obtain ⟨c', hlife, h', hP'⟩ := ih h₁ hP₁ (hrest _ hnext)
    refine ⟨c', ?_, h', hP'⟩
    rw [Engine.life, hnext]
    exact hlife

/-! ## Cycles come to their end -/

/-- Only the nodes of `l` are in the table. -/
def restrict (e : Engine) (l : List NodeID) : Engine :=
  { e with world := { e.world with mNodeLib := l.toFinset } }

/-- Nothing has happened yet to the nodes that are to come. -/
theorem Config.Sound.fate (h : c.Sound) : Fate (c.engine.restrict c.pend) [] c where
  log := (List.append_nil _).symm
  parent p n hn := (h.tree.mem p n hn).2.2
  size _ _ := ⟨rfl, rfl⟩
  waiting _ _ := List.not_mem_nil
  called _ hn := absurd hn List.not_mem_nil
  once _ := Nat.zero_le _
  settled n hn := .inl (List.mem_toFinset.mp hn)
  fresh n _ := by
    by_cases hcomputes : (c.engine.graph n).mCalcFunc.computes = true
    · exact .inl hcomputes
    · exact .inr (.inl (Bool.eq_false_iff.mpr hcomputes))
  freed _ hn := absurd hn List.not_mem_nil
  last := .nil

/-- Whatever the units fire, the loops in progress come to their end. -/
theorem Alive.ends (h : Alive c) (fires : ℕ → List ℕ) :
    ∃ k e', c.engine.steps ((List.range k).map fires) = some e' ∧ e'.stack = [] := by
  obtain ⟨k, c', events', hsteps, hdone, -, -⟩ := run_fate h.toOk h.toSound.fate fires
  exact ⟨k, c'.engine, hsteps, hdone⟩

/-- In a cycle every node below the root is computed once, unless something came before its
turn. -/
theorem Idle.cycle (h : Idle e kids) (fires : ℕ → List ℕ) :
    ∃ events e', e.Cycle fires events e' ∧
      (∀ n ∈ e.world.mNodeLib, e.world.Within 0#32 n → ¬ e.Disturbed events n →
        events.count (.computed n) = 1) ∧
      (∀ n, events.count (.computed n) ≤ 1) ∧ FreedLast events := by
  obtain ⟨b, c₁, hb, hrun, halive, ⟨hsound, -⟩, heffect⟩ := h.run
  obtain ⟨more, hadvance⟩ := heffect.advance hsound.fate hsound
  have hfate₁ := hsound.fate.advance hsound hadvance
  obtain ⟨k, c', events, hsteps, hdone, hok', hfate⟩ := run_fate halive.toOk hfate₁ fires
  refine ⟨events, c'.engine, ⟨hdone, hfate.log, c₁.engine, k, hrun, hsteps⟩, ?_, hfate.once,
    hfate.last⟩
  intro n hn hroot hquiet
  have hnil : c'.pend = [] := by
    have hloops := hok'.loops
    rw [hdone] at hloops
    exact hloops.eq_nil
  have hpend : n ∈ ((0#32 :: b).toFinset : Finset NodeID) :=
    List.mem_toFinset.mpr ((h.toTree.within_iff hb hn).mp hroot)
  have hcomputed : .computed n ∈ events := by
    rcases hfate.settled n hpend with hpend | hcomputed | hdisturbed
    · rw [hnil] at hpend
      cases hpend
    · exact hcomputed
    · exact absurd hdisturbed hquiet
  have hpos : 0 < events.count (.computed n) := List.count_pos_iff.mpr hcomputed
  have honce := hfate.once n
  omega

/-! ## Safety -/

/-- No node of the table is below itself. -/
theorem Alive.not_below_self (h : Alive c) (hn : n ∈ c.engine.world.mNodeLib) :
    ¬ Relation.TransGen (fun x y => (c.engine.world.mNode x).mParent = some y) n n := by
  obtain ⟨rank, hrank⟩ := h.ranked
  -- ranks rise along parents
  have hrise : ∀ y, Relation.TransGen (fun x y => (c.engine.world.mNode x).mParent = some y) n y →
      y ∈ c.engine.world.mNodeLib ∧ rank n < rank y := by
    intro y hy
    induction hy with
    | single hparent =>
      have hkid := h.tree.complete n hn _ hparent
      exact ⟨(h.tree.group _ (List.ne_nil_of_mem hkid)).1, hrank _ _ hkid⟩
    | tail _ hparent ih =>
      have hkid := h.tree.complete _ ih.1 _ hparent
      exact ⟨(h.tree.group _ (List.ne_nil_of_mem hkid)).1, ih.2.trans (hrank _ _ hkid)⟩
  intro hloop
  exact absurd (hrise n hloop).2 (Nat.lt_irrefl _)

/-- Whatever requests, cycles and done actions come, in any order, as long as no request moves a
node below itself: the server never touches a node that it has freed, all pointers agree, no node
is below itself, and every loop comes to its end. A cycle that begins then computes every node
below the root once, unless something came before its turn. -/
theorem life_safe (inOptions : WorldOptions) (graphDefs : List (List Byte))
    (events : List EngineEvent) (hlife : LifeAllowed .all (new inOptions graphDefs) events) :
    ∃ e, (new inOptions graphDefs).life events = some e ∧
      (∃ kids, Listed e.world kids) ∧
      (∀ n ∈ e.world.mNodeLib,
        ¬ Relation.TransGen (fun x y => (e.world.mNode x).mParent = some y) n n) ∧
      (∀ fires : ℕ → List ℕ, ∃ k e', e.steps ((List.range k).map fires) = some e' ∧
        e'.stack = []) ∧
      (e.stack = [] → ∀ fires, ∃ more e', e.Cycle fires more e' ∧
        (∀ n ∈ e.world.mNodeLib, e.world.Within 0#32 n → ¬ e.Disturbed more n →
          more.count (.computed n) = 1) ∧
        (∀ n, more.count (.computed n) ≤ 1) ∧ FreedLast more) := by
  obtain ⟨c, hrun, halive, -⟩ := life_induction (P := fun _ => True)
    (fun _ _ _ _ _ _ _ _ => trivial) (fun _ _ _ _ _ _ _ => trivial)
    (idle_new inOptions graphDefs).alive trivial hlife
  exact ⟨c.engine, hrun, ⟨c.kids, halive.tree⟩, fun n hn => halive.not_below_self hn, halive.ends,
    fun hidle fires => (halive.idle hidle).cycle fires⟩

/-- A synth ends itself in its first cycle and is freed in the next one. -/
theorem life_safe_endsItself : ∃ e kids, (new kDefaultWorldOptions [[1#8]]).life
    [.request (.sNew [1#8] 2#32 0#32 0#32 1 [0]), .run, .step [], .step [], .step [], .step [2],
      .step [], .step [], .run, .step [], .step []] = some e ∧ Listed e.world kids := by
  obtain ⟨e, hrun, ⟨kids, hlisted⟩, -⟩ := life_safe kDefaultWorldOptions [[1#8]]
    [.request (.sNew [1#8] 2#32 0#32 0#32 1 [0]), .run, .step [], .step [], .step [], .step [2],
      .step [], .step [], .run, .step [], .step []]
    (lifeAllowed_of_plain (by simp [plain]) (by rfl))
  exact ⟨e, kids, hrun, hlisted⟩

end Engine

end PoopWorms.Server
