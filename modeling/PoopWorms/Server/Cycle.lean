import Mathlib.Algebra.Order.BigOperators.Group.List
import Mathlib.Algebra.GroupWithZero.Nat
import Mathlib.Algebra.Order.Group.Nat
import PoopWorms.Server.Traversal

/-!
# One cycle over the root

`Fate` says what has become of the nodes since the cycle began. Every effect keeps it, and
every step leaves less to do, so that the cycle comes to its end, where each node has been
computed or something came before its turn.
-/

namespace PoopWorms.Server

open Forest LinkedList World

namespace Engine

/-- The node is freed, paused or marked for deletion, after `events` or to begin with. -/
def Marked (e : Engine) (events : List NodeEvent) (n : NodeID) : Prop :=
  (e.graph n).mCalcFunc.computes = false ∨ .freed n ∈ events ∨ .paused n ∈ events ∨
    .ended n ∈ events

/-- The node or an enclosing group is freed, paused or marked for deletion before its turn. -/
def Disturbed (e : Engine) (events : List NodeEvent) (n : NodeID) : Prop :=
  ∃ m, e.world.Within m n ∧ ∃ before, before <+: events ∧ .called m ∉ before ∧ e.Marked before m

/-- A freed node is neither called nor computed later. -/
def FreedLast (events : List NodeEvent) : Prop :=
  events.Pairwise fun event later => ∀ n, event = .freed n → later ≠ .called n ∧ later ≠ .computed n

/-! ## Without a guard -/

theorem opsSafe_true (e : Engine) (ops : List DoneOp) : OpsSafe (fun _ _ => True) e ops := by
  induction ops generalizing e with
  | nil => trivial
  | cons op ops ih => exact ⟨trivial, fun e' _ => ih e'⟩

theorem firesSafe_true (e : Engine) (s : NodeID) (fires : List ℕ) :
    FiresSafe (fun _ _ => True) e s fires := by
  induction fires generalizing e with
  | nil => trivial
  | cons doneAction fires ih => exact ⟨opsSafe_true e _, fun e' _ => ih e'⟩

theorem stepSafe_true (e : Engine) (fires : List ℕ) : StepSafe (fun _ _ => True) e fires := by
  unfold StepSafe
  split
  · trivial
  · exact ⟨trivial, firesSafe_true ..⟩
  · trivial
  · trivial
  · trivial

/-! ## What becomes of the nodes -/

variable {e₀ e : Engine} {kids₀ : NodeID → List NodeID} {all₀ : List NodeID}
  {events more : List NodeEvent} {c c' : Config} {a : Atom} {n x : NodeID} {b rest : List NodeID}

theorem Marked.append (h : e₀.Marked events n) (more : List NodeEvent) :
    e₀.Marked (events ++ more) n := by
  rcases h with h | h | h | h
  · exact .inl h
  · exact .inr (.inl (List.mem_append_left _ h))
  · exact .inr (.inr (.inl (List.mem_append_left _ h)))
  · exact .inr (.inr (.inr (List.mem_append_left _ h)))

theorem Disturbed.append (h : e₀.Disturbed events n) (more : List NodeEvent) :
    e₀.Disturbed (events ++ more) n := by
  obtain ⟨m, hm, before, hbefore, hcalled, hmarked⟩ := h
  exact ⟨m, hm, before, hbefore.trans (List.prefix_append _ _), hcalled, hmarked⟩

/-- Something comes before the turn of a node, so before that of all below it. -/
theorem Marked.disturbed {m : NodeID} (h : e₀.Marked events m) (hcalled : .called m ∉ events)
    (hm : e₀.world.Within m n) (more : List NodeEvent) : e₀.Disturbed (events ++ more) n :=
  ⟨m, hm, events, List.prefix_append _ _, hcalled, h⟩

theorem freedLast_of_not_called (hmore : ∀ n, .called n ∉ more ∧ .computed n ∉ more) :
    FreedLast more := by
  rw [FreedLast, List.pairwise_iff_forall_sublist]
  intro event later hsub n _
  have hlater : later ∈ more := hsub.subset (by simp)
  exact ⟨fun heq => (hmore n).1 (heq ▸ hlater), fun heq => (hmore n).2 (heq ▸ hlater)⟩

/-- What has become of the nodes of `e₀` when `events` have happened: the nodes to come have not
been called, and all others have been computed or disturbed. -/
structure Fate (e₀ : Engine) (events : List NodeEvent) (c : Config) : Prop where
  log : c.engine.log = e₀.log ++ events
  parent : ∀ p, ∀ n ∈ c.kids p, (e₀.world.mNode n).mParent = some p
  size : ∀ n ∈ c.engine.world.mNodeLib, (c.engine.graph n).mNumUnits = (e₀.graph n).mNumUnits ∧
    (c.engine.graph n).mCalcUnits = (e₀.graph n).mCalcUnits
  waiting : ∀ n ∈ c.pend, .called n ∉ events
  called : ∀ n, .computed n ∈ events → .called n ∈ events
  once : ∀ n, events.count (.computed n) ≤ 1
  settled : ∀ n ∈ e₀.world.mNodeLib, n ∈ c.pend ∨ .computed n ∈ events ∨ e₀.Disturbed events n
  fresh : ∀ n ∈ c.pend, (c.engine.graph n).mCalcFunc.computes = true ∨ e₀.Marked events n
  freed : ∀ n, .freed n ∈ events → n ∉ c.engine.world.mNodeLib
  last : FreedLast events

/-- How one effect adds to a cycle: `more` happens, and a node that leaves those to come is
computed or disturbed. -/
structure Advance (e₀ : Engine) (events : List NodeEvent) (c : Config) (more : List NodeEvent)
    (c' : Config) : Prop where
  log : c'.engine.log = c.engine.log ++ more
  kids : ∀ p, ∀ n ∈ c'.kids p, n ∈ c.kids p
  table : ∀ n ∈ c'.engine.world.mNodeLib, n ∈ c.engine.world.mNodeLib
  size : ∀ n ∈ c'.engine.world.mNodeLib,
    (c'.engine.graph n).mNumUnits = (c.engine.graph n).mNumUnits ∧
      (c'.engine.graph n).mCalcUnits = (c.engine.graph n).mCalcUnits
  pend : ∀ n ∈ c'.pend, n ∈ c.pend
  turn : ∀ n, .called n ∈ more → n ∈ c.pend ∧ n ∉ c'.pend
  called : ∀ n, .computed n ∈ more → .called n ∈ more
  once : ∀ n, more.count (.computed n) ≤ 1
  left : ∀ n ∈ c.pend, n ∉ c'.pend → .computed n ∈ more ∨ e₀.Disturbed (events ++ more) n
  fresh : ∀ n ∈ c'.pend, (c.engine.graph n).mCalcFunc.computes = true →
    (c'.engine.graph n).mCalcFunc.computes = true ∨ e₀.Marked (events ++ more) n
  freed : ∀ n, .freed n ∈ more → n ∉ c'.engine.world.mNodeLib
  last : FreedLast more

theorem Fate.advance (h : Fate e₀ events c) (hc : c.Sound) (hadvance : Advance e₀ events c more c') :
    Fate e₀ (events ++ more) c' where
  log := by rw [hadvance.log, h.log, List.append_assoc]
  parent p n hn := h.parent p n (hadvance.kids p n hn)
  size n hn := by
    obtain ⟨hnum, hcalc⟩ := h.size n (hadvance.table n hn)
    rw [(hadvance.size n hn).1, (hadvance.size n hn).2]
    exact ⟨hnum, hcalc⟩
  waiting n hn hmem := by
    rcases List.mem_append.mp hmem with hmem | hmem
    · exact h.waiting n (hadvance.pend n hn) hmem
    · exact (hadvance.turn n hmem).2 hn
  called n hn := by
    rcases List.mem_append.mp hn with hn | hn
    · exact List.mem_append_left _ (h.called n hn)
    · exact List.mem_append_right _ (hadvance.called n hn)
  once n := by
    rw [List.count_append]
    have hold := h.once n
    have hnew := hadvance.once n
    by_cases hn : .computed n ∈ more
    · -- the turn of the node has only just come
      have hpend := (hadvance.turn n (hadvance.called n hn)).1
      have hnot : .computed n ∉ events := fun hmem => h.waiting n hpend (h.called n hmem)
      rw [List.count_eq_zero_of_not_mem hnot]
      omega
    · rw [List.count_eq_zero_of_not_mem hn]
      omega
  settled n hn := by
    rcases h.settled n hn with hpend | hcomputed | hdisturbed
    · by_cases hpend' : n ∈ c'.pend
      · exact .inl hpend'
      · rcases hadvance.left n hpend hpend' with hmem | hdisturbed
        · exact .inr (.inl (List.mem_append_right _ hmem))
        · exact .inr (.inr hdisturbed)
    · exact .inr (.inl (List.mem_append_left _ hcomputed))
    · exact .inr (.inr (hdisturbed.append more))
  fresh n hn := by
    rcases h.fresh n (hadvance.pend n hn) with hcomputes | hmarked
    · exact hadvance.fresh n hn hcomputes
    · exact .inr (hmarked.append more)
  freed n hn := by
    rcases List.mem_append.mp hn with hn | hn
    · exact fun hmem => h.freed n hn (hadvance.table n hmem)
    · exact hadvance.freed n hn
  last := by
    apply List.pairwise_append.mpr
    refine ⟨h.last, hadvance.last, ?_⟩
    intro event hevent later hlater n hfreed
    subst hfreed
    -- a node that is called is in the table, a freed one is not
    have hnot : .called n ∉ more := fun hcalled =>
      h.freed n hevent (hc.live n (List.mem_append_right _ (hadvance.turn n hcalled).1))
    exact ⟨fun heq => hnot (heq ▸ hlater), fun heq => hnot (hadvance.called n (heq ▸ hlater))⟩

/-- Nothing is called: nodes may be freed, and `more` says which calc functions change. -/
theorem Advance.of_not_called (hlog : c'.engine.log = c.engine.log ++ more)
    (hkids : ∀ p, ∀ n ∈ c'.kids p, n ∈ c.kids p) (hpend : ∀ n ∈ c'.pend, n ∈ c.pend)
    (htable : ∀ n ∈ c'.engine.world.mNodeLib, n ∈ c.engine.world.mNodeLib)
    (hmore : ∀ n, .called n ∉ more ∧ .computed n ∉ more)
    (hleft : ∀ n ∈ c.pend, n ∉ c'.pend → e₀.Disturbed (events ++ more) n)
    (hfreed : ∀ n, .freed n ∈ more → n ∉ c'.engine.world.mNodeLib)
    (hsize : ∀ n ∈ c'.engine.world.mNodeLib,
      (c'.engine.graph n).mNumUnits = (c.engine.graph n).mNumUnits ∧
        (c'.engine.graph n).mCalcUnits = (c.engine.graph n).mCalcUnits)
    (hfresh : ∀ n ∈ c'.pend, (c'.engine.graph n).mCalcFunc = (c.engine.graph n).mCalcFunc ∨
      e₀.Marked (events ++ more) n) : Advance e₀ events c more c' where
  log := hlog
  kids := hkids
  table := htable
  size := hsize
  pend := hpend
  turn n hn := absurd hn (hmore n).1
  called n hn := absurd hn (hmore n).2
  once n := by
    rw [List.count_eq_zero_of_not_mem (hmore n).2]
    omega
  left n hn hn' := .inr (hleft n hn hn')
  fresh n hn hcomputes := by
    rcases hfresh n hn with hsame | hmarked
    · exact .inl (hsame ▸ hcomputes)
    · exact .inr hmarked
  freed := hfreed
  last := freedLast_of_not_called hmore

/-! ## Effects without a turn -/

theorem setCalcFunc_size (e : Engine) (m n : NodeID) (f : NodeCalcFunc) :
    ((e.setCalcFunc m f).graph n).mNumUnits = (e.graph n).mNumUnits ∧
      ((e.setCalcFunc m f).graph n).mCalcUnits = (e.graph n).mCalcUnits := by
  by_cases hnm : n = m
  · subst hnm
    rw [setCalcFunc_self]
    exact ⟨rfl, rfl⟩
  · rw [setCalcFunc_of_ne e hnm]
    exact ⟨rfl, rfl⟩

/-- A node is ended or paused. -/
theorem advance_setCalcFunc (c : Config) (f : NodeCalcFunc) {event : NodeEvent}
    (hevent : event = .ended n ∨ event = .paused n) :
    Advance e₀ events c [event]
      { c with engine := (c.engine.setCalcFunc n f).record event } := by
  apply Advance.of_not_called rfl
  · exact fun _ _ hm => hm
  · exact fun _ hm => hm
  · exact fun _ hm => hm
  · intro m
    rcases hevent with rfl | rfl <;> simp
  · exact fun m hm hm' => absurd hm hm'
  · intro m hm
    rcases hevent with rfl | rfl <;> simp at hm
  · exact fun m _ => setCalcFunc_size c.engine n m f
  · intro m _
    by_cases hmn : m = n
    · subst hmn
      rcases hevent with rfl | rfl <;> simp [Marked]
    · exact .inl (congrArg Graph.mCalcFunc (setCalcFunc_of_ne c.engine hmn f))

/-- Nodes are freed that are not called. -/
theorem Fate.advance_freed {F : List NodeID} (h : Fate e₀ events c) (hfreed : Freed c.engine F e) :
    ∃ more, Advance e₀ events c more
      ⟨e, Forest.without c.kids F, c.path, c.pend.filter fun y => !F.contains y⟩ := by
  obtain ⟨more, hlog, hmore⟩ := hfreed.log
  have hsilent : ∀ n, .called n ∉ more ∧ .computed n ∉ more := by
    intro n
    simp [hmore]
  have hkept : ∀ n ∈ e.world.mNodeLib, e.graph n = c.engine.graph n := fun n hn =>
    hfreed.kept n ((hfreed.table n).mp hn).2
  refine ⟨more, .of_not_called hlog ?_ ?_ ?_ hsilent ?_ ?_ ?_ ?_⟩
  · intro p n hn
    exact (mem_without.mp hn).2.1
  · exact fun n hn => List.mem_of_mem_filter hn
  · exact fun n hn => ((hfreed.table n).mp hn).1
  · intro n hn hn'
    have hnF : n ∈ F := by simpa [hn] using hn'
    have hfreedn : .freed n ∈ events ++ more :=
      List.mem_append_right _ ((hmore _).mpr ⟨n, hnF, rfl⟩)
    have hcalled : .called n ∉ events ++ more := by
      rw [List.mem_append, not_or]
      exact ⟨h.waiting n hn, (hsilent n).1⟩
    exact ⟨n, .refl, _, List.prefix_rfl, hcalled, .inr (.inl hfreedn)⟩
  · intro n hn hmem
    obtain ⟨m, hm, heq⟩ := (hmore _).mp hn
    cases heq
    exact ((hfreed.table n).mp hmem).2 hm
  · intro n hn
    rw [hkept n hn]
    exact ⟨rfl, rfl⟩
  · intro n hn
    have hnF : n ∉ F := by simpa using (List.mem_filter.mp hn).2
    exact .inl (congrArg Graph.mCalcFunc (hfreed.kept n hnF))

theorem finished_world (e : Engine) (f : NodeCalcFunc) (n : NodeID) :
    (e.finished f n).world = e.world := by
  unfold finished
  cases f.atEnd <;> rfl

theorem finished_log (e : Engine) (f : NodeCalcFunc) (n : NodeID) :
    (e.finished f n).log = e.log := by
  unfold finished
  cases f.atEnd <;> rfl

theorem finished_stack (e : Engine) (f : NodeCalcFunc) (n : NodeID) :
    (e.finished f n).stack = e.stack := by
  unfold finished
  cases f.atEnd <;> rfl

theorem finished_of_ne (e : Engine) (f : NodeCalcFunc) {m n : NodeID} (hmn : m ≠ n) :
    (e.finished f n).graph m = e.graph m := by
  unfold finished
  cases f.atEnd with
  | none => rfl
  | some g => exact setCalcFunc_of_ne e hmn g

theorem finished_size (e : Engine) (f : NodeCalcFunc) (m n : NodeID) :
    ((e.finished f n).graph m).mNumUnits = (e.graph m).mNumUnits ∧
      ((e.finished f n).graph m).mCalcUnits = (e.graph m).mCalcUnits := by
  unfold finished
  cases f.atEnd with
  | none => exact ⟨rfl, rfl⟩
  | some g => exact setCalcFunc_size e n m g

/-- A loop goes on or ends: only the node of the loop, which is not to come, may change. -/
theorem advance_loop (hc : c.Sound) (hn : n ∈ c.path) {path : List NodeID}
    (hworld : e.world = c.engine.world) (hlog : e.log = c.engine.log)
    (hsize : ∀ m, (e.graph m).mNumUnits = (c.engine.graph m).mNumUnits ∧
      (e.graph m).mCalcUnits = (c.engine.graph m).mCalcUnits)
    (hkept : ∀ m ≠ n, e.graph m = c.engine.graph m) :
    Advance e₀ events c [] { c with engine := e, path } := by
  apply Advance.of_not_called (hlog.trans (List.append_nil _).symm)
  · exact fun _ _ hm => hm
  · exact fun _ hm => hm
  · intro m hm
    rw [← hworld]
    exact hm
  · simp
  · exact fun m hm hm' => absurd hm hm'
  · simp
  · exact fun m _ => hsize m
  · intro m hm
    have hmn : m ≠ n := fun heq =>
      (List.nodup_append.mp hc.once).2.2 n hn m hm heq.symm
    exact .inl (congrArg Graph.mCalcFunc (hkept m hmn))

/-! ## Turns -/

theorem noteCall_log (e : Engine) (x : NodeID) : (e.noteCall x).log = e.log ++
    if (e.graph x).mCalcFunc.computes then [.called x, .computed x] else [.called x] := by
  unfold noteCall
  split_ifs
  · simp [record]
  · rfl

theorem Turn.computes (ht : Turn c x b rest e) :
    (e.graph x).mCalcFunc.computes = (c.engine.graph x).mCalcFunc.computes := by
  obtain ⟨f, hself, hf⟩ := ht.self
  rw [hself]
  rcases hf with hf | ⟨hgroup, hf | hf⟩
  · rw [hf]
  · -- a dump goes over the children, as before
    rw [hf, hgroup]
    rfl
  · rw [hf, hgroup]
    rfl

theorem Turn.size (ht : Turn c x b rest e) (n : NodeID) :
    (e.graph n).mNumUnits = (c.engine.graph n).mNumUnits ∧
      (e.graph n).mCalcUnits = (c.engine.graph n).mCalcUnits := by
  by_cases hnx : n = x
  · subst hnx
    obtain ⟨f, hself, -⟩ := ht.self
    rw [hself]
    exact ⟨rfl, rfl⟩
  · rw [ht.kept n hnx]
    exact ⟨rfl, rfl⟩

/-- The node of a turn and what is below it come no more than once. -/
theorem Turn.nodup (hc : c.Sound) (ht : Turn c x b rest e) : (x :: (b ++ rest)).Nodup := by
  have honce := (List.nodup_append.mp hc.once).2.1
  rwa [ht.pend] at honce

/-- What is below a node in the course of a cycle was below it at the start. -/
theorem Fate.within (h : Fate e₀ events c) (hb : Spans c.kids (c.kids x) b) (hn : n ∈ x :: b) :
    e₀.world.Within x n := by
  obtain ⟨root, hroot, hpath⟩ := hb.singleton.exists_path h.parent hn
  rw [List.mem_singleton] at hroot
  exact hroot ▸ hpath

/-- A node does not compute in its turn: something came before, for it and for all below it. -/
theorem Fate.disturbed_below (h : Fate e₀ events c) (ht : Turn c x b rest e)
    (hcomputes : (e.graph x).mCalcFunc.computes = false) (hn : n ∈ x :: b)
    (more : List NodeEvent) : e₀.Disturbed (events ++ more) n := by
  have hx : x ∈ c.pend := by simp [ht.pend]
  have hmarked : e₀.Marked events x := by
    apply (h.fresh x hx).resolve_left
    rw [← ht.computes, hcomputes]
    exact Bool.false_ne_true
  exact hmarked.disturbed (h.waiting x hx) (h.within ht.spans hn) more

/-- A node is called, and nothing is freed. -/
theorem Fate.advance_call (h : Fate e₀ events c) (hc : c.Sound) (ht : Turn c x b rest e)
    {e' : Engine} {path pend : List NodeID} (hworld : e'.world = (e.noteCall x).world)
    (hgraph : e'.graph = (e.noteCall x).graph) (hlog : e'.log = (e.noteCall x).log)
    (hpend : ∀ n ∈ pend, n ∈ b ++ rest)
    (hleft : ∀ n ∈ x :: (b ++ rest), n ∉ pend → n = x ∨ ∀ more, e₀.Disturbed (events ++ more) n) :
    ∃ more, Advance e₀ events c more ⟨e', c.kids, path, pend⟩ := by
  rw [noteCall_world, ht.world] at hworld
  rw [noteCall_graph] at hgraph
  rw [noteCall_log, ht.log] at hlog
  have hx : x ∉ pend := fun hmem => (List.nodup_cons.mp (ht.nodup hc)).1 (hpend x hmem)
  have hmore : ∀ event, event ∈ (if (e.graph x).mCalcFunc.computes then [.called x, .computed x]
      else [.called x] : List NodeEvent) ↔
      event = .called x ∨ event = .computed x ∧ (e.graph x).mCalcFunc.computes = true := by
    intro event
    split_ifs with hcomputes <;> simp [hcomputes]
  refine ⟨_, ⟨hlog, fun _ _ => id, ?_, ?_, ?_, ?_, ?_, ?_, ?_, ?_, ?_, ?_⟩⟩
  · intro n hn
    rw [← hworld]
    exact hn
  · intro n _
    show (e'.graph n).mNumUnits = _ ∧ (e'.graph n).mCalcUnits = _
    rw [hgraph]
    exact ht.size n
  · intro n hn
    rw [ht.pend]
    exact List.mem_cons_of_mem _ (hpend n hn)
  · intro n hn
    have hnx : n = x := by simpa [hmore] using hn
    subst hnx
    rw [ht.pend]
    exact ⟨List.mem_cons_self, hx⟩
  · intro n hn
    have hnx : n = x := by
      rcases (hmore _).mp hn with heq | ⟨heq, -⟩
      · cases heq
      · cases heq
        rfl
    exact (hmore _).mpr (.inl (by rw [hnx]))
  · intro n
    split_ifs
    · simp only [List.count_cons, List.count_nil]
      split_ifs <;> simp_all
    · simp
  · intro n hn hn'
    rw [ht.pend] at hn
    rcases hleft n hn hn' with rfl | hdisturbed
    · cases hcomputes : (e.graph n).mCalcFunc.computes with
      | true => exact .inl (by simp)
      | false => exact .inr (h.disturbed_below ht hcomputes List.mem_cons_self _)
    · exact .inr (hdisturbed _)
  · intro n hn hcomputes
    have hnx : n ≠ x := fun heq => hx (heq ▸ hn)
    left
    show (e'.graph n).mCalcFunc.computes = true
    rw [hgraph, ht.kept n hnx]
    exact hcomputes
  · intro n hn
    simp [hmore] at hn
  · unfold FreedLast
    split_ifs <;> simp

/-- A node that is marked for deletion is freed in its turn, with all that is below it. -/
theorem Fate.advance_delete (h : Fate e₀ events c) (hc : c.Sound) (ht : Turn c x b rest e)
    (hf : (e.graph x).mCalcFunc = .nodeDelete) {e' : Engine}
    (hfreed : Freed (e.noteCall x) (x :: b) e') :
    ∃ more, Advance e₀ events c more ⟨e', Forest.without c.kids (x :: b), c.path, rest⟩ := by
  have hcomputes : (e.graph x).mCalcFunc.computes = false := by
    rw [hf]
    rfl
  obtain ⟨frees, hlog, hfrees⟩ := hfreed.log
  rw [noteCall_log, ht.log, hcomputes, if_neg Bool.false_ne_true, List.append_assoc] at hlog
  have htable : ∀ n ∈ e'.world.mNodeLib, n ∈ c.engine.world.mNodeLib ∧ n ∉ x :: b := by
    intro n hn
    rw [← ht.world, ← noteCall_world e x]
    exact (hfreed.table n).mp hn
  have hkept : ∀ n ∉ x :: b, e'.graph n = c.engine.graph n := by
    intro n hn
    rw [hfreed.kept n hn, noteCall_graph]
    exact ht.kept n fun heq => hn (heq ▸ List.mem_cons_self)
  have honce := ht.nodup hc
  rw [← List.cons_append, List.nodup_append] at honce
  have hrest : ∀ n ∈ rest, n ∉ x :: b := fun n hn hn' => honce.2.2 n hn' n hn rfl
  have hsilent : ∀ n, .called n ∉ frees ∧ .computed n ∉ frees := by
    intro n
    simp [hfrees]
  refine ⟨[.called x] ++ frees, ⟨hlog, ?_, ?_, ?_, ?_, ?_, ?_, ?_, ?_, ?_, ?_, ?_⟩⟩
  · intro p n hn
    exact (mem_without.mp hn).2.1
  · exact fun n hn => (htable n hn).1
  · intro n hn
    rw [show e'.graph n = _ from hkept n (htable n hn).2]
    exact ⟨rfl, rfl⟩
  · intro n hn
    rw [ht.pend]
    exact List.mem_cons_of_mem _ (List.mem_append_right _ hn)
  · intro n hn
    have hnx : n = x := by simpa [(hsilent n).1] using hn
    subst hnx
    rw [ht.pend]
    exact ⟨List.mem_cons_self, fun hn => hrest n hn List.mem_cons_self⟩
  · intro n hn
    simp [(hsilent n).2] at hn
  · intro n
    rw [List.count_eq_zero_of_not_mem (by simp [(hsilent n).2])]
    omega
  · intro n hn hn'
    have hnb : n ∈ x :: b := by
      rw [ht.pend, ← List.cons_append, List.mem_append] at hn
      exact hn.resolve_right hn'
    exact .inr (h.disturbed_below ht hcomputes hnb _)
  · intro n hn hcomputes
    left
    show (e'.graph n).mCalcFunc.computes = true
    rw [hkept n (hrest n hn)]
    exact hcomputes
  · intro n hn hmem
    have hnF : ∃ m ∈ x :: b, NodeEvent.freed n = .freed m := by simpa [hfrees] using hn
    obtain ⟨m, hm, heq⟩ := hnF
    cases heq
    exact (htable n hmem).2 hm
  · rw [FreedLast, List.singleton_append, List.pairwise_cons]
    exact ⟨by simp, freedLast_of_not_called hsilent⟩

/-- Every effect is an advance. -/
theorem Effect.advance (h : Fate e₀ events c) (hc : c.Sound) (heffect : Effect c a c') :
    ∃ more, Advance e₀ events c more c' := by
  cases heffect with
  | ended _ => exact ⟨_, advance_setCalcFunc c _ (.inl rfl)⟩
  | paused _ => exact ⟨_, advance_setCalcFunc c _ (.inr rfl)⟩
  | freed _ hfreed _ _ => exact h.advance_freed hfreed
  | @unit f s call calls stack path _ hpath =>
    have hs : s ∈ c.path := by simp [hpath]
    refine ⟨[], advance_loop hc hs rfl rfl ?_ ?_⟩
    · intro m
      by_cases hms : m = s
      · subst hms
        simp [modifyGraph]
      · simp [modifyGraph, Function.update_of_ne hms]
    · exact fun m hms => Function.update_of_ne hms ..
  | finishGroup _ hpath =>
    exact ⟨[], advance_loop hc (by simp [hpath]) (finished_world ..) (finished_log ..)
      (fun m => finished_size _ _ m _) fun m hm => finished_of_ne _ _ hm⟩
  | finishGraph _ hpath _ =>
    exact ⟨[], advance_loop hc (by simp [hpath]) (finished_world ..) (finished_log ..)
      (fun m => finished_size _ _ m _) fun m hm => finished_of_ne _ _ hm⟩
  | @finishFirst s stack path _ hpath =>
    have hs : s ∈ c.path := by simp [hpath]
    exact ⟨[], advance_loop hc hs rfl rfl
      (fun m => setCalcFunc_size { c.engine with stack } s m .graphCalc)
      fun m hm => setCalcFunc_of_ne { c.engine with stack } hm .graphCalc⟩
  | @skip x b rest e ht hf =>
    have hcomputes : (e.graph x).mCalcFunc.computes = false := by
      rcases hf with hf | ⟨hf, -⟩ <;> rw [hf] <;> rfl
    apply h.advance_call hc ht rfl rfl rfl
    · exact fun n hn => List.mem_append_right _ hn
    · intro n hn hn'
      have hnb : n ∈ x :: b := by
        rw [← List.cons_append, List.mem_append] at hn
        exact hn.resolve_right hn'
      exact .inr fun more => h.disturbed_below ht hcomputes hnb more
  | delete ht hf _ hfreed => exact h.advance_delete hc ht hf hfreed
  | enter ht _ _ =>
    refine h.advance_call hc ht ?_ ?_ ?_ ?_ ?_
    · rfl
    · rfl
    · rfl
    · exact fun n hn => hn
    · exact fun n hn hn' => .inl ((List.mem_cons.mp hn).resolve_right hn')

/-! ## The work that is left -/

/-- A bound for the steps that a node needs in its turn. -/
def nodeWork (e : Engine) (n : NodeID) : ℕ :=
  (e.graph n).mNumUnits + (e.graph n).mCalcUnits.length + 4

/-- The steps that a loop needs, without those for the children of a group. -/
def frameWork (e : Engine) : Frame → ℕ
  | .group _ _ _ => 1
  | .graph f s calls =>
    calls.length + 1 + if f = .graphFirstCalc then (e.graph s).mCalcUnits.length + 1 else 0

def work (e : Engine) (c : Config) : ℕ :=
  (c.pend.map e.nodeWork).sum + (c.engine.stack.map e.frameWork).sum

/-- A loop over children has only such loops around it. -/
theorem Loops.frameWork {isGroup : NodeID → Bool} {kids : NodeID → List NodeID}
    {stack : List Frame} {path pend : List NodeID} (h : Loops isGroup kids stack path pend)
    (hleaf : ∀ n, isGroup n = false → kids n = []) {x : NodeID}
    (hx : ∀ p, path.head? = some p → x ∈ kids p) (e : Engine) :
    (stack.map e.frameWork).sum = path.length := by
  induction h generalizing x with
  | idle => rfl
  | group _ hplace _ _ _ _ ih =>
    rw [List.map_cons, List.sum_cons, List.length_cons, ih hplace]
    exact Nat.add_comm ..
  | @graph f s p calls stack path pend _ _ _ hs _ =>
    -- a synth has no children
    have hkid := hx s rfl
    rw [hleaf s hs] at hkid
    cases hkid

theorem Turn.frameWork (h : c.Ok) (ht : Turn c x b rest e) (e₀ : Engine) :
    (e.stack.map e₀.frameWork).sum = (c.engine.stack.map e₀.frameWork).sum := by
  have hleaf : ∀ n, (c.engine.world.mNode n).mIsGroup = false → c.kids n = [] :=
    fun n hn => h.tree.toTree.kids_eq_nil_of_synth hn
  rw [ht.loops.frameWork hleaf ht.parent, h.loops.frameWork hleaf ht.parent]

/-- What a node does in its turn takes less than was left for it. -/
theorem frameWork_frameOf {e₀ : Engine}
    (hsize : (e.graph x).mNumUnits = (e₀.graph x).mNumUnits ∧
      (e.graph x).mCalcUnits = (e₀.graph x).mCalcUnits) :
    e₀.frameWork (e.frameOf x) < e₀.nodeWork x := by
  unfold frameOf nodeWork
  split <;> simp only [Engine.frameWork, Graph.ctorCalls, Graph.calcCalls, List.length_map,
    List.length_range, hsize.1, hsize.2, reduceCtorEq, if_true, if_false] <;> omega

/-- An operation of a done action adds no work. -/
theorem Effect.work_op {op : DoneOp} (heffect : Effect c (.op op) c') (e₀ : Engine) :
    e₀.work c' ≤ e₀.work c := by
  cases heffect with
  | ended _ => exact le_rfl
  | paused _ => exact le_rfl
  | @freed op F e _ hfreed _ _ =>
    have hsub : (((c.pend.filter fun y => !F.contains y).map e₀.nodeWork).Sublist
      (c.pend.map e₀.nodeWork)) := List.filter_sublist.map _
    show _ + (e.stack.map _).sum ≤ _
    rw [hfreed.stack]
    exact Nat.add_le_add_right (hsub.sum_le_sum fun _ _ => Nat.zero_le _) _

/-- Everything else takes work away. -/
theorem Effect.work_lt (hfate : Fate e₀ events c) (h : c.Ok) (ha : ∀ op, a ≠ .op op)
    (heffect : Effect c a c') : e₀.work c' < e₀.work c := by
  cases heffect with
  | ended _ => exact absurd rfl (ha _)
  | paused _ => exact absurd rfl (ha _)
  | freed _ _ _ _ => exact absurd rfl (ha _)
  | @unit f s call calls stack path hstack _ =>
    show _ + ((Frame.graph f s calls :: stack).map _).sum < _ + (c.engine.stack.map _).sum
    rw [hstack]
    simp only [List.map_cons, List.sum_cons, Engine.frameWork, List.length_cons]
    omega
  | @finishGroup f g stack path hstack _ =>
    show _ + ((({ c.engine with stack }.finished f g).stack).map _).sum < _ +
      (c.engine.stack.map _).sum
    rw [hstack, finished_stack]
    simp only [List.map_cons, List.sum_cons, Engine.frameWork]
    omega
  | @finishGraph f s stack path hstack _ _ =>
    show _ + ((({ c.engine with stack }.finished f s).stack).map _).sum < _ +
      (c.engine.stack.map _).sum
    rw [hstack, finished_stack]
    simp only [List.map_cons, List.sum_cons, Engine.frameWork]
    omega
  | @finishFirst s stack path hstack hpath =>
    -- the units are computed right after the constructors
    have hs := (hfate.size s (h.live s (by simp [hpath]))).2
    show _ + ((Frame.graph .graphCalc s (c.engine.graph s).calcCalls :: stack).map _).sum < _ +
      (c.engine.stack.map _).sum
    rw [hstack]
    simp only [List.map_cons, List.sum_cons, Engine.frameWork, Graph.calcCalls, hs,
      List.length_map, List.length_nil, reduceCtorEq, if_true, if_false]
    omega
  | @skip x b rest e ht _ =>
    show _ + ((e.noteCall x).stack.map _).sum < _
    rw [noteCall_stack, ht.frameWork h, work, ht.pend]
    simp only [List.map_cons, List.map_append, List.sum_cons, List.sum_append, nodeWork]
    omega
  | @delete x b rest e e' ht _ _ hfreed =>
    show _ + (e'.stack.map _).sum < _
    rw [hfreed.stack, noteCall_stack, ht.frameWork h, work, ht.pend]
    simp only [List.map_cons, List.map_append, List.sum_cons, List.sum_append, nodeWork]
    omega
  | @enter x b rest e ht _ _ =>
    have hx := hfate.size x (h.live x (by simp [ht.pend]))
    have hframe := frameWork_frameOf
      ⟨(ht.size x).1.trans hx.1, (ht.size x).2.trans hx.2⟩
    show _ + ((e.frameOf x :: (e.noteCall x).stack).map _).sum < _
    rw [noteCall_stack, List.map_cons, List.sum_cons, ht.frameWork h, work, ht.pend]
    simp only [List.map_cons, List.map_append, List.sum_cons, List.sum_append]
    omega

/-! ## Steps and runs -/

theorem ops_fate {Guard : Engine → Atom → Prop} (hfate : Fate e₀ events c)
    (hops : Relation.ReflTransGen (OpStep Guard) c c') :
    ∃ events', Fate e₀ events' c' ∧ e₀.work c' ≤ e₀.work c := by
  induction hops with
  | refl => exact ⟨events, hfate, le_rfl⟩
  | tail _ hop ih =>
    obtain ⟨events', hfate', hwork⟩ := ih
    obtain ⟨op, hok, -, heffect⟩ := hop
    obtain ⟨more, hadvance⟩ := heffect.advance hfate' hok.toSound
    exact ⟨_, hfate'.advance hok.toSound hadvance, (heffect.work_op e₀).trans hwork⟩

/-- Every step has a result, keeps track of the nodes, and leaves less work. -/
theorem step_fate (h : c.Ok) (hfate : Fate e₀ events c) (hbusy : c.engine.stack ≠ [])
    (fires : List ℕ) : ∃ c' events', c.engine.step fires = some c'.engine ∧ c'.Ok ∧
      Fate e₀ events' c' ∧ e₀.work c' < e₀.work c := by
  obtain ⟨a, c₁, c', ha, -, heffect, h₁, hops, hstep, h'⟩ :=
    step_effects h fires (stepSafe_true c.engine fires) hbusy
  obtain ⟨more, hadvance⟩ := heffect.advance hfate h.toSound
  have hfate₁ := hfate.advance h.toSound hadvance
  obtain ⟨events', hfate', hwork⟩ := ops_fate hfate₁ hops
  exact ⟨c', events', hstep, h', hfate', hwork.trans_lt (heffect.work_lt hfate h ha)⟩

/-- A cycle that has begun comes to its end. -/
theorem run_fate (h : c.Ok) (hfate : Fate e₀ events c) (fires : ℕ → List ℕ) :
    ∃ k c' events', c.engine.steps ((List.range k).map fires) = some c'.engine ∧
      c'.engine.stack = [] ∧ c'.Ok ∧ Fate e₀ events' c' := by
  induction hwork : e₀.work c using Nat.strong_induction_on generalizing c events fires with
  | _ m ih =>
    by_cases hbusy : c.engine.stack = []
    · exact ⟨0, c, events, rfl, hbusy, h, hfate⟩
    · obtain ⟨c₁, events₁, hstep, h₁, hfate₁, hless⟩ := step_fate h hfate hbusy (fires 0)
      obtain ⟨k, c', events', hsteps, hrest⟩ :=
        ih _ (hwork ▸ hless) h₁ hfate₁ (fun i => fires (i + 1)) rfl
      refine ⟨k + 1, c', events', ?_, hrest⟩
      rw [List.range_succ_eq_map, List.map_cons, List.map_map, steps, hstep]
      exact hsteps

/-! ## The cycle -/

/-- `World_Run`, up to the end of the cycle; the units fire `fires`, step by step. -/
def Cycle (e : Engine) (fires : ℕ → List ℕ) (events : List NodeEvent) (e' : Engine) : Prop :=
  e'.stack = [] ∧ e'.log = e.log ++ events ∧
    ∃ e₁ k, e.worldRun = some e₁ ∧ e₁.steps ((List.range k).map fires) = some e'

/-- When a cycle begins all nodes are to come. -/
theorem fate_start {kids : NodeID → List NodeID} {all : List NodeID}
    (htree : Rooted e.world kids all) : Fate e [] ⟨e, kids, [], all⟩ where
  log := (List.append_nil _).symm
  parent p n hn := (htree.mem p n hn).2.2
  size _ _ := ⟨rfl, rfl⟩
  waiting _ _ := List.not_mem_nil
  called _ hn := absurd hn List.not_mem_nil
  once _ := Nat.zero_le _
  settled n hn := .inl ((htree.registered n).mpr hn)
  fresh n _ := by
    by_cases hcomputes : (e.graph n).mCalcFunc.computes = true
    · exact .inl hcomputes
    · exact .inr (.inl (Bool.eq_false_iff.mpr hcomputes))
  freed _ hn := absurd hn List.not_mem_nil
  last := .nil

/-- The first turn is that of the root. -/
theorem turn_root {kids : NodeID → List NodeID} {all : List NodeID} (hall : all = 0#32 :: b)
    (hb : Spans kids (kids 0#32) b) (hidle : e.stack = []) :
    Turn ⟨e, kids, [], all⟩ 0#32 b [] e where
  world := rfl
  log := rfl
  kept _ _ := rfl
  self := ⟨_, rfl, .inl rfl⟩
  pend := hall.trans (congrArg _ (List.append_nil b).symm)
  spans := hb
  parent _ hp := by cases hp
  root _ := rfl
  loops := hidle ▸ .idle

theorem Loops.eq_nil {isGroup : NodeID → Bool} {kids : NodeID → List NodeID}
    {path pend : List NodeID} (h : Loops isGroup kids [] path pend) : pend = [] := by
  cases h
  rfl

/-- The cycle over a tree comes to its end whatever the units fire, so no pointer of a freed node
is followed. Each node is computed once, unless it or an enclosing group has been freed, paused or
marked for deletion before its turn, and no node is computed after it has been freed. -/
theorem cycle_computes (e : Engine) (fires : ℕ → List ℕ) (htree : IsTree e.world)
    (hkinds : ∀ n ∈ e.world.mNodeLib, (e.graph n).mCalcFunc.fits (e.world.mNode n).mIsGroup)
    (hidle : e.stack = []) :
    ∃ events e', e.Cycle fires events e' ∧
      (∀ n ∈ e.world.mNodeLib, ¬ e.Disturbed events n → events.count (.computed n) = 1) ∧
      (∀ n, events.count (.computed n) ≤ 1) ∧ FreedLast events := by
  obtain ⟨kids, all, htree⟩ := htree
  obtain ⟨b, hall, hb⟩ := htree.spans.eq_of_singleton
  have hsound : Config.Sound ⟨e, kids, [], all⟩ :=
    ⟨htree.listed, fun _ hn => absurd hn List.not_mem_nil, htree.once,
      fun n hn => (htree.registered n).mp hn, hkinds⟩
  obtain ⟨c₁, hrun, heffect, hok⟩ := callNode_effect hsound (turn_root hall hb hidle)
  obtain ⟨more, hadvance⟩ := heffect.advance (fate_start htree) hsound
  have hfate₁ := (fate_start htree).advance hsound hadvance
  obtain ⟨k, c', events, hsteps, hdone, hok', hfate⟩ := run_fate hok hfate₁ fires
  refine ⟨events, c'.engine, ⟨hdone, hfate.log, c₁.engine, k, hrun, hsteps⟩, ?_, hfate.once,
    hfate.last⟩
  intro n hn hquiet
  -- no node is to come
  have hnil : c'.pend = [] := by
    have hloops := hok'.loops
    rw [hdone] at hloops
    exact hloops.eq_nil
  have hcomputed : .computed n ∈ events := by
    rcases hfate.settled n hn with hpend | hcomputed | hdisturbed
    · rw [hnil] at hpend
      cases hpend
    · exact hcomputed
    · exact absurd hdisturbed hquiet
  have hpos : 0 < events.count (.computed n) := List.count_pos_iff.mpr hcomputed
  have honce := hfate.once n
  omega

/-- The root with one synth, which has not been computed yet. -/
def oneSynth : Engine where
  world := ((World.new kDefaultWorldOptions []).register 1#32 [] false).insertAt 0#32 1#32 [] []
  graph n := if n = 0#32 then ⟨.groupCalc, 0, [], []⟩ else Graph.new 2 [0, 1]
  stack := []
  log := []

theorem oneSynth_fits : ∀ n ∈ oneSynth.world.mNodeLib,
    (oneSynth.graph n).mCalcFunc.fits (oneSynth.world.mNode n).mIsGroup := by
  intro n hn
  have hn' : n ∈ ({1#32, 0#32} : Finset NodeID) := hn
  rw [Finset.mem_insert, Finset.mem_singleton] at hn'
  rcases hn' with rfl | rfl
  · rfl
  · rfl

/-- The synth ends itself in its first cycle. -/
theorem cycle_computes_oneSynth :
    ∃ events e', oneSynth.Cycle (fun _ => [2]) events e' ∧
      (∀ n ∈ oneSynth.world.mNodeLib, ¬ oneSynth.Disturbed events n →
        events.count (.computed n) = 1) ∧
      (∀ n, events.count (.computed n) ≤ 1) ∧ FreedLast events :=
  cycle_computes oneSynth (fun _ => [2])
    ((rooted_new kDefaultWorldOptions []).enter (by decide) (by decide) rfl (by decide) rfl [] false)
    oneSynth_fits rfl

end Engine

end PoopWorms.Server
