import PoopWorms.Server.Graph
import Mathlib.Data.List.Induction
import Mathlib.Tactic.Common

/-!
# `/n_run` as a switch

Apart from the tracing variants, the calc function of a synth stands for one of five states.
Three of them follow the last flag. In the other two, a synth that was paused once before
its first cycle, a flag that turns it on again is lost.
-/

namespace PoopWorms.Server

open Octets Runs

/-- The last flag of a history is non-zero; a new synth is on. -/
def isOn (es : List GraphEvent) : Bool :=
  es.foldl (fun on e => match e with | .nRun run => decide (run ≠ 0) | _ => on) true

/-- How many flags of a history are zero. -/
def numPauses (es : List GraphEvent) : ℕ := es.count (.nRun 0)

/-- The units that were computed, in order. -/
def computed (calls : List UnitCall) : List ℕ :=
  calls.filterMap fun c => match c with | .unitCalc unit => some unit | _ => none

/-- In every cycle of the run all calc units are computed if the synth is on, and none
otherwise. -/
def FollowsSwitch (mNumUnits : ℕ) (mCalcUnits : List ℕ) (es : List GraphEvent) : Prop :=
  ∀ before after, es = before ++ .cycle :: after →
    let g := run Graph.step (Graph.new mNumUnits mCalcUnits) before
    computed (g.step .cycle).calls =
      computed g.calls ++ if isOn before then mCalcUnits else []

/-- Before the first cycle the synth was paused other than exactly once, or stays off. -/
def CleanStart (es : List GraphEvent) : Prop :=
  ∀ before after, es = before ++ .cycle :: after → .cycle ∉ before →
    ¬ (numPauses before = 1 ∧ isOn before)

/-! ## Histories -/

theorem isOn_append_nRun (es : List GraphEvent) (run : Word) :
    isOn (es ++ [.nRun run]) = decide (run ≠ 0) := by
  unfold isOn
  rw [List.foldl_append]
  rfl

theorem isOn_append_nTrace (es : List GraphEvent) : isOn (es ++ [.nTrace]) = isOn es := by
  unfold isOn
  rw [List.foldl_append]
  rfl

theorem isOn_append_cycle (es : List GraphEvent) : isOn (es ++ [.cycle]) = isOn es := by
  unfold isOn
  rw [List.foldl_append]
  rfl

theorem numPauses_append_nRun (es : List GraphEvent) (run : Word) :
    numPauses (es ++ [.nRun run]) = numPauses es + if run = 0 then 1 else 0 := by
  unfold numPauses
  rw [List.count_append]
  by_cases h : run = 0
  · subst h
    rfl
  · rw [if_neg h, List.count_singleton, if_neg (by simpa using h)]

theorem numPauses_append_nTrace (es : List GraphEvent) :
    numPauses (es ++ [.nTrace]) = numPauses es := by
  unfold numPauses
  rw [List.count_append]
  simp

theorem computed_append_unitCalc (calls : List UnitCall) (units : List ℕ) :
    computed (calls ++ units.map .unitCalc) = computed calls ++ units := by
  unfold computed
  rw [List.filterMap_append, List.filterMap_map]
  congr 1
  exact List.filterMap_some

theorem computed_append_unitCtor (calls : List UnitCall) (units : List ℕ) :
    computed (calls ++ units.map .unitCtor) = computed calls := by
  unfold computed
  rw [List.filterMap_append, List.filterMap_map]
  simp

/-! ## The state behind a history -/

/-- Once the constructors have run, or were skipped, the calc function is the switch. -/
def Settled (f : NodeCalcFunc) (on : Bool) : Prop :=
  if on then f = .graphCalc ∨ f = .graphCalcTrace else f = .nodeNullCalc

/-- The calc function after a history without cycles. -/
def Started (f : NodeCalcFunc) (es : List GraphEvent) : Prop :=
  (numPauses es = 0 → f = .graphFirstCalc ∧ isOn es = true) ∧
  (numPauses es = 1 → f = .graphNullFirstCalc) ∧
  (1 < numPauses es → Settled f (isOn es))

variable {f : NodeCalcFunc} {on : Bool} {es : List GraphEvent} {g : Graph}

theorem Settled.setRun (h : Settled f on) (run : Word) :
    Settled (f.setRun false run) (decide (run ≠ 0)) := by
  by_cases hrun : run = 0
  · subst hrun
    show Settled _ false
    cases on with
    | true => rcases h with rfl | rfl <;> rfl
    | false =>
      rw [show f = .nodeNullCalc from h]
      rfl
  · rw [decide_eq_true hrun, NodeCalcFunc.setRun, if_pos hrun]
    cases on with
    | true => rcases h with rfl | rfl <;> simp [Settled]
    | false =>
      rw [show f = .nodeNullCalc from h]
      exact .inl rfl

theorem Settled.nodeTrace (h : Settled f on) : Settled (f.nodeTrace false) on := by
  cases on with
  | true => rcases h with rfl | rfl <;> exact .inr rfl
  | false =>
    rw [show f = .nodeNullCalc from h]
    rfl

theorem Started.setRun (h : Started f es) (run : Word) :
    Started (f.setRun false run) (es ++ [.nRun run]) := by
  rcases h with ⟨hnone, hone, hmore⟩
  unfold Started
  rw [numPauses_append_nRun, isOn_append_nRun]
  by_cases hrun : run = 0
  · subst hrun
    rw [if_pos rfl]
    refine ⟨fun h => by omega, fun h => ?_, fun h => ?_⟩
    · rw [(hnone (by omega)).1]
      rfl
    · rcases Nat.eq_or_lt_of_le (show 1 ≤ numPauses es by omega) with h1 | h1
      · -- the second pause drops the constructors
        rw [hone h1.symm]
        rfl
      · exact (hmore h1).setRun 0
  · rw [if_neg hrun, Nat.add_zero]
    refine ⟨fun h => ?_, fun h => ?_, fun h => (hmore h).setRun run⟩
    · rw [(hnone h).1, NodeCalcFunc.setRun, if_pos hrun, decide_eq_true hrun]
      exact ⟨rfl, rfl⟩
    · rw [hone h, NodeCalcFunc.setRun, if_pos hrun]
      rfl

theorem Started.nodeTrace (h : Started f es) :
    Started (f.nodeTrace false) (es ++ [.nTrace]) := by
  rcases h with ⟨hnone, hone, hmore⟩
  unfold Started
  rw [numPauses_append_nTrace, isOn_append_nTrace]
  refine ⟨fun h => ?_, fun h => ?_, fun h => (hmore h).nodeTrace⟩
  · rw [(hnone h).1]
    exact ⟨rfl, (hnone h).2⟩
  · rw [hone h]
    rfl

/-- A synth is computed in a cycle in the three functions that are neither off nor new
and paused. -/
theorem computed_turn (g : Graph) : computed g.turn.calls = computed g.calls ++
    if g.mCalcFunc = .graphFirstCalc ∨ g.mCalcFunc = .graphCalc ∨ g.mCalcFunc = .graphCalcTrace
    then g.mCalcUnits else [] := by
  unfold Graph.turn
  split <;> rename_i hf
  · rw [if_pos (.inl hf)]
    show computed ((g.calls ++ _) ++ _) = _
    rw [computed_append_unitCalc, computed_append_unitCtor]
    rfl
  · simp [hf, Graph.graphNullFirstCalc, Graph.ctors, computed_append_unitCtor]
  · simp [hf, Graph.graphCalc, computed_append_unitCalc]
  · simp [hf, Graph.graphCalcTrace, Graph.graphCalc, computed_append_unitCalc]
  · rename_i hfirst _ hcalc
    rw [if_neg (by rintro (h | h | h); exacts [hfirst h, hcalc h, hf h]), List.append_nil]

theorem Settled.turn (h : Settled g.mCalcFunc on) : Settled g.turn.mCalcFunc on := by
  cases on with
  | true =>
    rcases h with hf | hf <;> (unfold Graph.turn; rw [hf])
    · exact .inl hf
    · exact .inl rfl
  | false =>
    have hf : g.mCalcFunc = .nodeNullCalc := h
    unfold Graph.turn
    rw [hf]
    exact hf

/-- The first cycle puts a synth where the switch is, unless it is on after one pause. -/
theorem Started.turn (h : Started g.mCalcFunc es) (hclean : ¬ (numPauses es = 1 ∧ isOn es)) :
    Settled g.turn.mCalcFunc (isOn es) := by
  rcases h with ⟨hnone, hone, hmore⟩
  rcases Nat.lt_trichotomy (numPauses es) 1 with hlt | heq | hgt
  · obtain ⟨hf, hon⟩ := hnone (by omega)
    rw [hon]
    unfold Graph.turn
    rw [hf]
    exact .inl rfl
  · have hoff : isOn es = false := by simpa [heq] using hclean
    rw [hoff]
    unfold Graph.turn
    rw [hone heq]
    rfl
  · exact (hmore hgt).turn

@[simp] theorem mCalcUnits_step (g : Graph) (e : GraphEvent) :
    (g.step e).mCalcUnits = g.mCalcUnits := by
  cases e with
  | nRun run => rfl
  | nTrace => rfl
  | cycle =>
    show g.turn.mCalcUnits = g.mCalcUnits
    unfold Graph.turn
    split <;> rfl

theorem mCalcUnits_run (g : Graph) (es : List GraphEvent) :
    (run Graph.step g es).mCalcUnits = g.mCalcUnits := by
  induction es generalizing g with
  | nil => rfl
  | cons e es ih => rw [run_cons, ih, mCalcUnits_step]

variable {mNumUnits : ℕ} {mCalcUnits : List ℕ}

theorem started_run (hes : .cycle ∉ es) :
    Started (run Graph.step (Graph.new mNumUnits mCalcUnits) es).mCalcFunc es := by
  induction es using List.reverseRecOn with
  | nil => exact ⟨fun _ => ⟨rfl, rfl⟩, nofun, nofun⟩
  | append_singleton es e ih =>
    have hbefore : GraphEvent.cycle ∉ es := fun h => hes (List.mem_append_left _ h)
    rw [run_append, run_singleton]
    cases e with
    | nRun run => exact (ih hbefore).setRun run
    | nTrace => exact (ih hbefore).nodeTrace
    | cycle => exact absurd (List.mem_append_right _ (List.mem_singleton_self _)) hes

/-- After a clean start every cycle leaves the calc function where the switch is. -/
theorem settled_run (hclean : CleanStart es) (hes : .cycle ∈ es) :
    Settled (run Graph.step (Graph.new mNumUnits mCalcUnits) es).mCalcFunc (isOn es) := by
  induction es using List.reverseRecOn with
  | nil => cases hes
  | append_singleton es e ih =>
    have hclean' : CleanStart es := by
      intro before after h
      apply hclean before (after ++ [e])
      rw [h, List.append_assoc, List.cons_append]
    rw [run_append, run_singleton]
    cases e with
    | nRun run =>
      rw [isOn_append_nRun]
      exact (ih hclean' (by simpa using hes)).setRun run
    | nTrace =>
      rw [isOn_append_nTrace]
      exact (ih hclean' (by simpa using hes)).nodeTrace
    | cycle =>
      rw [isOn_append_cycle]
      by_cases hcycle : .cycle ∈ es
      · exact (ih hclean' hcycle).turn
      · exact (started_run hcycle).turn (hclean es [] rfl hcycle)

/-- Where the calc function is what the switch says, a cycle computes what the switch says. -/
theorem Settled.computed_turn (h : Settled g.mCalcFunc on) :
    computed g.turn.calls = computed g.calls ++ if on then g.mCalcUnits else [] := by
  rw [Server.computed_turn]
  cases on with
  | true => rw [if_pos (.inr h), if_pos rfl]
  | false =>
    rw [show g.mCalcFunc = .nodeNullCalc from h]
    rfl

theorem Started.computed_turn (h : Started g.mCalcFunc es)
    (hclean : ¬ (numPauses es = 1 ∧ isOn es)) :
    computed g.turn.calls = computed g.calls ++ if isOn es then g.mCalcUnits else [] := by
  rcases h with ⟨hnone, hone, hmore⟩
  rcases Nat.lt_trichotomy (numPauses es) 1 with hlt | heq | hgt
  · obtain ⟨hf, hon⟩ := hnone (by omega)
    rw [Server.computed_turn, if_pos (.inl hf), hon, if_pos rfl]
  · have hoff : isOn es = false := by simpa [heq] using hclean
    rw [Server.computed_turn, hone heq, hoff]
    rfl
  · exact (hmore hgt).computed_turn

end PoopWorms.Server
