import PoopWorms.Lib.Loops
import PoopWorms.Server.Graph

/-!
# The loops over the units of a synth

`Graph_Calc` goes over the calc units eight at a time, and then takes four, two and one of those
that remain; `Graph_CalcTrace` takes one after the other and prints what it finds at the inputs
and outputs. Both come to what the `Graph` of `Graph.lean` says about them.

A unit is called through its `mCalcFunc`, which is part of what the calls work on: the state
behind the units is arbitrary. A read outside `mCalcUnits` makes the function fail. The number of
units is an `int`.
-/

namespace PoopWorms.Server

open Loops

/-- A synth, and all that its units read and write. -/
structure GraphRun (σ : Type*) where
  graph : Graph
  state : σ

namespace GraphRun

variable {σ α : Type*} (mCalcFunc : ℕ → σ → σ)

/-- `Graph_Calc_unit` -/
def graphCalcUnit (unit : ℕ) (c : GraphRun σ) : GraphRun σ where
  graph := { c.graph with calls := c.graph.calls ++ [.unitCalc unit] }
  state := mCalcFunc unit c.state

/-- `Graph_Calc_unit(calcUnits[i])` -/
def calcAt (calcUnits : List ℕ) (i : ℕ) (c : GraphRun σ) : Option (GraphRun σ) :=
  (calcUnits[i]?).map fun unit => c.graphCalcUnit mCalcFunc unit

def calc8 (calcUnits : List ℕ) (i : ℕ) (c : GraphRun σ) : Option (GraphRun σ) := do
  let c ← c.calcAt mCalcFunc calcUnits i
  let c ← c.calcAt mCalcFunc calcUnits (i + 1)
  let c ← c.calcAt mCalcFunc calcUnits (i + 2)
  let c ← c.calcAt mCalcFunc calcUnits (i + 3)
  let c ← c.calcAt mCalcFunc calcUnits (i + 4)
  let c ← c.calcAt mCalcFunc calcUnits (i + 5)
  let c ← c.calcAt mCalcFunc calcUnits (i + 6)
  c.calcAt mCalcFunc calcUnits (i + 7)

/-- A turn of `for (int j = 0; j != unroll8; i += 8, ++j)`. -/
def turn8 (calcUnits : List ℕ) (unroll8 : ℕ) :
    ℕ × ℕ × GraphRun σ → Option (Turn (ℕ × ℕ × GraphRun σ) (ℕ × GraphRun σ))
  | (j, i, c) =>
    if j = unroll8 then some (.stop (i, c))
    else do
      let c ← c.calc8 mCalcFunc calcUnits i
      return .again (j + 1, i + 8, c)

/-- The stage that takes four more units, and moves the index behind them. -/
def calc4 (calcUnits : List ℕ) (unroll4 i : ℕ) (c : GraphRun σ) : Option (ℕ × GraphRun σ) :=
  if unroll4 ≠ 0 then do
    let c ← c.calcAt mCalcFunc calcUnits i
    let c ← c.calcAt mCalcFunc calcUnits (i + 1)
    let c ← c.calcAt mCalcFunc calcUnits (i + 2)
    let c ← c.calcAt mCalcFunc calcUnits (i + 3)
    return (i + 4, c)
  else some (i, c)

def calc2 (calcUnits : List ℕ) (unroll2 i : ℕ) (c : GraphRun σ) : Option (ℕ × GraphRun σ) :=
  if unroll2 ≠ 0 then do
    let c ← c.calcAt mCalcFunc calcUnits i
    let c ← c.calcAt mCalcFunc calcUnits (i + 1)
    return (i + 2, c)
  else some (i, c)

/-- `Graph_Calc` -/
def graphCalc (c : GraphRun σ) : Option (GraphRun σ) := do
  let numCalcUnits := c.graph.mCalcUnits.length
  let calcUnits := c.graph.mCalcUnits
  let unroll8 := numCalcUnits / 8
  let remain8 := numCalcUnits % 8
  let (i, c) ← loop (turn8 mCalcFunc calcUnits unroll8) (unroll8 + 1) (0, 0, c)
  let unroll4 := remain8 / 4
  let remain4 := remain8 % 4
  let (i, c) ← c.calc4 mCalcFunc calcUnits unroll4 i
  let unroll2 := remain4 / 2
  let remain2 := remain4 % 2
  let (i, c) ← c.calc2 mCalcFunc calcUnits unroll2 i
  if remain2 ≠ 0 then c.calcAt mCalcFunc calcUnits i else some c

/-- What is printed about a unit: its place, and what is at its inputs and at its outputs. -/
structure UnitTrace (α : Type*) where
  i : ℕ
  ins : List α
  outs : List α

/-- A turn of the loop of `Graph_CalcTrace`; `zin0` and `zout0` give what a unit has at its inputs
and outputs. -/
def turnTrace (zin0 zout0 : ℕ → σ → List α) (calcUnits : List ℕ) (numCalcUnits : ℕ) :
    ℕ × List (UnitTrace α) × GraphRun σ →
      Option (Turn (ℕ × List (UnitTrace α) × GraphRun σ) (List (UnitTrace α) × GraphRun σ))
  | (i, printed, c) =>
    if i < numCalcUnits then
      (calcUnits[i]?).map fun unit =>
        let c' := c.graphCalcUnit mCalcFunc unit
        .again (i + 1, printed ++ [⟨i, zin0 unit c.state, zout0 unit c'.state⟩], c')
    else some (.stop (printed, c))

/-- `Graph_CalcTrace` -/
def graphCalcTrace (zin0 zout0 : ℕ → σ → List α) (c : GraphRun σ) :
    Option (List (UnitTrace α) × GraphRun σ) := do
  let numCalcUnits := c.graph.mCalcUnits.length
  let calcUnits := c.graph.mCalcUnits
  let (printed, c) ← loop (turnTrace mCalcFunc zin0 zout0 calcUnits numCalcUnits)
    (numCalcUnits + 1) (0, [], c)
  return (printed, { c with graph := { c.graph with mCalcFunc := .graphCalc } })

/-! ## One unit after the other -/

/-- The calc functions of some units, first to last. -/
def calcAll (units : List ℕ) (c : GraphRun σ) : GraphRun σ :=
  units.foldl (fun c unit => c.graphCalcUnit mCalcFunc unit) c

variable {calcUnits units units' : List ℕ} {unit n : ℕ} {c : GraphRun σ}

@[simp] theorem calcAll_nil : c.calcAll mCalcFunc [] = c := rfl

@[simp] theorem calcAll_cons :
    c.calcAll mCalcFunc (unit :: units) = (c.graphCalcUnit mCalcFunc unit).calcAll mCalcFunc units :=
  rfl

theorem calcAll_append : c.calcAll mCalcFunc (units ++ units') =
    (c.calcAll mCalcFunc units).calcAll mCalcFunc units' := List.foldl_append

/-- The units get one call each, in this order, and nothing else about the synth changes. -/
theorem graph_calcAll : (c.calcAll mCalcFunc units).graph =
    { c.graph with calls := c.graph.calls ++ units.map .unitCalc } := by
  induction units generalizing c with
  | nil => simp
  | cons unit units ih =>
    rw [calcAll_cons, ih]
    simp [graphCalcUnit]

/-! ## The first units -/

variable {i j : ℕ}

/-- After the units in front of `i`, the call of `calcUnits[i]` is the next one. -/
theorem calcAt_take (hi : i < calcUnits.length) (hj : j = i + 1) :
    (c.calcAll mCalcFunc (calcUnits.take i)).calcAt mCalcFunc calcUnits i =
      some (c.calcAll mCalcFunc (calcUnits.take j)) := by
  subst hj
  rw [calcAt, List.getElem?_eq_getElem hi, List.take_succ_eq_append_getElem hi, calcAll_append]
  rfl

theorem calc8_take (hi : i + 8 ≤ calcUnits.length) :
    (c.calcAll mCalcFunc (calcUnits.take i)).calc8 mCalcFunc calcUnits i =
      some (c.calcAll mCalcFunc (calcUnits.take (i + 8))) := by
  unfold calc8
  simp only [Option.bind_eq_bind]
  rw [calcAt_take mCalcFunc (j := i + 1) (by omega) rfl, Option.bind_some,
    calcAt_take mCalcFunc (j := i + 2) (by omega) rfl, Option.bind_some,
    calcAt_take mCalcFunc (j := i + 3) (by omega) rfl, Option.bind_some,
    calcAt_take mCalcFunc (j := i + 4) (by omega) rfl, Option.bind_some,
    calcAt_take mCalcFunc (j := i + 5) (by omega) rfl, Option.bind_some,
    calcAt_take mCalcFunc (j := i + 6) (by omega) rfl, Option.bind_some,
    calcAt_take mCalcFunc (j := i + 7) (by omega) rfl, Option.bind_some,
    calcAt_take mCalcFunc (j := i + 8) (by omega) rfl]

theorem calc4_take {unroll4 : ℕ} (hi : i + 4 * unroll4 ≤ calcUnits.length) (hone : unroll4 ≤ 1) :
    (c.calcAll mCalcFunc (calcUnits.take i)).calc4 mCalcFunc calcUnits unroll4 i =
      some (i + 4 * unroll4, c.calcAll mCalcFunc (calcUnits.take (i + 4 * unroll4))) := by
  unfold calc4
  obtain rfl | rfl : unroll4 = 0 ∨ unroll4 = 1 := by omega
  · rfl
  · rw [if_pos (by decide)]
    simp only [Option.bind_eq_bind]
    rw [calcAt_take mCalcFunc (j := i + 1) (by omega) rfl, Option.bind_some,
      calcAt_take mCalcFunc (j := i + 2) (by omega) rfl, Option.bind_some,
      calcAt_take mCalcFunc (j := i + 3) (by omega) rfl, Option.bind_some,
      calcAt_take mCalcFunc (j := i + 4) (by omega) rfl]
    rfl

theorem calc2_take {unroll2 : ℕ} (hi : i + 2 * unroll2 ≤ calcUnits.length) (hone : unroll2 ≤ 1) :
    (c.calcAll mCalcFunc (calcUnits.take i)).calc2 mCalcFunc calcUnits unroll2 i =
      some (i + 2 * unroll2, c.calcAll mCalcFunc (calcUnits.take (i + 2 * unroll2))) := by
  unfold calc2
  obtain rfl | rfl : unroll2 = 0 ∨ unroll2 = 1 := by omega
  · rfl
  · rw [if_pos (by decide)]
    simp only [Option.bind_eq_bind]
    rw [calcAt_take mCalcFunc (j := i + 1) (by omega) rfl, Option.bind_some,
      calcAt_take mCalcFunc (j := i + 2) (by omega) rfl]
    rfl

/-- The unrolled loop stops behind the last full eight. -/
theorem loop_turn8 {unroll8 m : ℕ} (hlength : 8 * unroll8 ≤ calcUnits.length)
    (hm : j + m = unroll8) :
    loop (turn8 mCalcFunc calcUnits unroll8) (m + 1)
        (j, 8 * j, c.calcAll mCalcFunc (calcUnits.take (8 * j))) =
      some (8 * unroll8, c.calcAll mCalcFunc (calcUnits.take (8 * unroll8))) := by
  induction m generalizing j with
  | zero =>
    have hstop : j = unroll8 := by omega
    subst hstop
    apply loop_stop
    rw [turn8, if_pos rfl]
  | succ m ih =>
    have hturn : turn8 mCalcFunc calcUnits unroll8
        (j, 8 * j, c.calcAll mCalcFunc (calcUnits.take (8 * j))) =
        some (.again (j + 1, 8 * (j + 1),
          c.calcAll mCalcFunc (calcUnits.take (8 * (j + 1))))) := by
      rw [turn8, if_neg (by omega), calc8_take mCalcFunc (by omega)]
      rfl
    rw [loop_again hturn]
    exact ih (by omega)

/-- All stages together call each of the units once, first to last. -/
theorem graphCalc_eq (c : GraphRun σ) :
    c.graphCalc mCalcFunc = some (c.calcAll mCalcFunc c.graph.mCalcUnits) := by
  obtain ⟨calcUnits, hunits⟩ : ∃ calcUnits, c.graph.mCalcUnits = calcUnits := ⟨_, rfl⟩
  obtain ⟨n, hn⟩ : ∃ n, calcUnits.length = n := ⟨_, rfl⟩
  have hall : calcUnits.take n = calcUnits := hn ▸ List.take_length
  have hloop : loop (turn8 mCalcFunc calcUnits (n / 8)) (n / 8 + 1) (0, 0, c) =
      some (8 * (n / 8), c.calcAll mCalcFunc (calcUnits.take (8 * (n / 8)))) :=
    loop_turn8 mCalcFunc (j := 0) (by omega) (by omega)
  have hfour := calc4_take mCalcFunc (c := c)
    (show 8 * (n / 8) + 4 * (n % 8 / 4) ≤ calcUnits.length by omega) (by omega)
  have htwo := calc2_take mCalcFunc (c := c)
    (show 8 * (n / 8) + 4 * (n % 8 / 4) + 2 * (n % 8 % 4 / 2) ≤ calcUnits.length by omega)
    (by omega)
  unfold graphCalc
  simp only [hunits, hn, hloop, hfour, htwo, Option.bind_eq_bind, Option.bind_some]
  by_cases hodd : n % 8 % 4 % 2 ≠ 0
  · rw [if_pos hodd, calcAt_take mCalcFunc (j := n) (by omega) (by omega), hall]
  · have hend : 8 * (n / 8) + 4 * (n % 8 / 4) + 2 * (n % 8 % 4 / 2) = n := by omega
    rw [if_neg hodd, hend, hall]

/-! ## The plain loop -/

variable {zin0 zout0 : ℕ → σ → List α}

theorem loop_turnTrace {m : ℕ} (hm : i + m = calcUnits.length) (printed : List (UnitTrace α)) :
    ∃ printed', loop (turnTrace mCalcFunc zin0 zout0 calcUnits calcUnits.length) (m + 1)
        (i, printed, c.calcAll mCalcFunc (calcUnits.take i)) =
      some (printed ++ printed', c.calcAll mCalcFunc calcUnits) ∧
        printed'.map UnitTrace.i = List.range' i m := by
  induction m generalizing i printed with
  | zero =>
    have hend : i = calcUnits.length := by omega
    refine ⟨[], ?_, rfl⟩
    apply loop_stop
    rw [turnTrace, if_neg (by omega), hend, List.take_length, List.append_nil]
  | succ m ih =>
    have hi : i < calcUnits.length := by omega
    have hnext := calcAt_take mCalcFunc (c := c) hi rfl
    rw [calcAt, List.getElem?_eq_getElem hi, Option.map_some, Option.some_inj] at hnext
    obtain ⟨line, hline⟩ : ∃ line : UnitTrace α, line = ⟨i,
        zin0 calcUnits[i] (c.calcAll mCalcFunc (calcUnits.take i)).state,
        zout0 calcUnits[i] (c.calcAll mCalcFunc (calcUnits.take (i + 1))).state⟩ := ⟨_, rfl⟩
    obtain ⟨rest, hrest, hplaces⟩ := ih (i := i + 1) (by omega) (printed ++ [line])
    have hplace : line.i = i := by rw [hline]
    refine ⟨line :: rest, ?_, ?_⟩
    · rw [List.append_cons, ← hrest]
      apply loop_again
      rw [turnTrace, if_pos hi, List.getElem?_eq_getElem hi, Option.map_some, hline]
      simp only [hnext]
    · rw [List.map_cons, hplaces, hplace, List.range'_succ]

/-- The unrolled loop makes the calls that the plain loop makes, which are one for each calc unit
in their order: the same happens to the state behind the units. -/
theorem graphCalc_sameCalls (zin0 zout0 : ℕ → σ → List α) (c : GraphRun σ) :
    ∃ state printed, c.graphCalc mCalcFunc = some ⟨c.graph.graphCalc, state⟩ ∧
      c.graph.graphCalc.calls = c.graph.calls ++ c.graph.mCalcUnits.map .unitCalc ∧
      c.graphCalcTrace mCalcFunc zin0 zout0 = some (printed, ⟨c.graph.graphCalcTrace, state⟩) ∧
      c.graph.graphCalcTrace.calls = c.graph.graphCalc.calls ∧
      printed.map UnitTrace.i = List.range c.graph.mCalcUnits.length := by
  have hgraph : (c.calcAll mCalcFunc c.graph.mCalcUnits).graph = c.graph.graphCalc :=
    graph_calcAll mCalcFunc
  obtain ⟨printed, hloop, hplaces⟩ := @loop_turnTrace σ α mCalcFunc c.graph.mCalcUnits c 0 zin0
    zout0 _ (Nat.zero_add _) []
  refine ⟨(c.calcAll mCalcFunc c.graph.mCalcUnits).state, printed, ?_, rfl, ?_, rfl, ?_⟩
  · rw [graphCalc_eq, ← hgraph]
  · rw [List.take_zero, calcAll_nil, List.nil_append] at hloop
    unfold graphCalcTrace
    simp only [hloop, Option.bind_eq_bind, Option.bind_some, hgraph]
    rfl
  · rw [hplaces, List.range_eq_range']

end GraphRun

end PoopWorms.Server
