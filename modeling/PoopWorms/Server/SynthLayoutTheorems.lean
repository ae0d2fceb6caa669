import PoopWorms.Server.GraphDefReadTheorems
import PoopWorms.Server.SynthLayout
import Mathlib.Algebra.Group.Action.Defs
import Mathlib.Algebra.Order.BigOperators.Group.List

/-!
# The memory of a synth: theorems

The sums of `GraphDef_Read` and the cursor of `Graph_Ctor` run through the same units, so
the cursor ends at `exactSize`, and the allocation has as many bytes unless a `size_t` wraps
around.
-/

namespace PoopWorms.Server

open PoopWorms.Octets (Byte)

/-! ## Counts -/

theorem CountedBytes.length_lt {α : Type} {Spells : List Byte → α → Prop} {bs : List Byte}
    {as : List α} (h : CountedBytes Spells bs as) : as.length < 2 ^ 16 := by
  obtain ⟨v, us, -, -, hlength⟩ := h
  rw [hlength]
  exact v.isLt

/-- A definition that was read has counts of 16 bits. -/
theorem counted_of_graphDefRead {inWorld : DefWorld} {inVersion : ℤ} {buffer rest : List Byte}
    {d : ReadGraphDef} (hread : graphDefRead inWorld inVersion buffer = .ok (d, rest)) :
    d.raw.Counted := by
  obtain ⟨bs, -, raw, variants, -, hraw, -⟩ :=
    ((decodes_graphDefRead inWorld inVersion).ok_iff buffer d rest).mp hread
  obtain ⟨name, constants, values, params, units, -, -, hconstants, hvalues, -, hunits⟩ := hraw
  have hports : ∀ unitSpec ∈ d.raw.mUnitSpecs,
      unitSpec.mNumInputs < 2 ^ 16 ∧ unitSpec.mNumOutputs < 2 ^ 16 := by
    intro unitSpec hunit
    obtain ⟨v, us, -, hlisted, -⟩ := hunits
    obtain ⟨bs, hspells⟩ := hlisted.exists_spells hunit
    obtain ⟨_, _, _, inputs, outputs, _, _, _, -, -, -, -, -, hinputs, -, houtputs⟩ := hspells
    have hin : unitSpec.mNumInputs = inputs.toNat := hinputs.2
    have hout : unitSpec.mNumOutputs = outputs.toNat := houtputs
    rw [hin, hout]
    exact ⟨inputs.isLt, outputs.isLt⟩
  exact ⟨hconstants.length_lt, hvalues.length_lt, hunits.length_lt,
    fun u hunit => (hports u hunit).1, fun u hunit => (hports u hunit).2⟩

namespace DataModel

variable (m : DataModel)

/-! ## `size_t` -/

@[simp] theorem sizeT_sizeT_add (x y : ℕ) : m.sizeT (m.sizeT x + y) = m.sizeT (x + y) :=
  Nat.mod_add_mod ..

@[simp] theorem sizeT_add_sizeT (x y : ℕ) : m.sizeT (x + m.sizeT y) = m.sizeT (x + y) :=
  Nat.add_mod_mod ..

theorem sizeT_of_lt {x : ℕ} (h : x < 2 ^ m.sizeBits) : m.sizeT x = x := Nat.mod_eq_of_lt h

theorem sizeT_lt (x : ℕ) : m.sizeT x < 2 ^ m.sizeBits := Nat.mod_lt _ (by positivity)

/-- A product has room for itself when it is not brought back. -/
theorem le_sizeT_iff {x : ℕ} : x ≤ m.sizeT x ↔ x < 2 ^ m.sizeBits := by
  constructor
  · intro h
    have := m.sizeT_lt x
    omega
  · intro h
    rw [m.sizeT_of_lt h]

/-! ## The loop of `GraphDef_Read` -/

theorem unitAllocSize_eq (unitSpec : RawUnitSpec) :
    m.unitAllocSize unitSpec = m.sizeT (m.unitSize unitSpec) := by
  unfold unitAllocSize unitSize
  rw [Nat.mul_add]

theorem sizeT_foldl_addUnit (units : List RawUnitSpec) (sums : UnitSums) :
    m.sizeT (units.foldl m.addUnit sums).mAllocSize =
      m.sizeT (sums.mAllocSize + (units.map m.unitSize).sum) := by
  induction units generalizing sums with
  | nil => simp
  | cons unitSpec units ih =>
    rw [List.foldl_cons, ih]
    simp [addUnit, unitAllocSize_eq, Nat.add_assoc]

/-- The wires are counted as they are while a `uint32` holds them all. -/
theorem mNumWires_foldl_addUnit (units : List RawUnitSpec) (sums : UnitSums)
    (h : sums.mNumWires + (units.map RawUnitSpec.mNumOutputs).sum < 2 ^ 32) :
    (units.foldl m.addUnit sums).mNumWires =
      sums.mNumWires + (units.map RawUnitSpec.mNumOutputs).sum := by
  induction units generalizing sums with
  | nil => simp
  | cons unitSpec units ih =>
    rw [List.map_cons, List.sum_cons] at h ⊢
    have hwires : (m.addUnit sums unitSpec).mNumWires =
        sums.mNumWires + unitSpec.mNumOutputs := Nat.mod_eq_of_lt (by omega)
    rw [List.foldl_cons, ih _ (by omega)]
    omega

theorem mNumCalcUnits_foldl_addUnit (units : List RawUnitSpec) (sums : UnitSums) :
    (units.foldl m.addUnit sums).mNumCalcUnits = sums.mNumCalcUnits + units.countP isCalc := by
  induction units generalizing sums with
  | nil => simp
  | cons unitSpec units ih =>
    rw [List.foldl_cons, ih, List.countP_cons]
    by_cases hbuf : unitSpec.mCalcRate = 1
    · simp [addUnit, isCalc, hbuf]
      omega
    · by_cases hfull : unitSpec.mCalcRate = 2
      · simp [addUnit, isCalc, hfull]
        omega
      · simp [addUnit, isCalc, hbuf, hfull]

/-! ## The loop of `Graph_Ctor` -/

theorem wireCtr_foldl_constructUnit (units : List RawUnitSpec) (g : Construction) :
    (units.foldl m.constructUnit g).wireCtr =
      g.wireCtr + (units.map RawUnitSpec.mNumOutputs).sum := by
  induction units generalizing g with
  | nil => simp
  | cons unitSpec units ih =>
    rw [List.foldl_cons, ih, List.map_cons, List.sum_cons]
    simp only [constructUnit]
    omega

theorem calcCtr_foldl_constructUnit (units : List RawUnitSpec) (g : Construction) :
    (units.foldl m.constructUnit g).calcCtr = g.calcCtr + units.countP isCalc := by
  induction units generalizing g with
  | nil => simp
  | cons unitSpec units ih =>
    rw [List.foldl_cons, ih, List.countP_cons]
    by_cases hfull : unitSpec.mCalcRate = 2
    · simp [constructUnit, isCalc, hfull]
      omega
    · by_cases hbuf : unitSpec.mCalcRate = 1
      · simp [constructUnit, isCalc, hbuf]
        omega
      · simp [constructUnit, isCalc, hbuf, hfull]

/-- The ports of a unit have room. -/
def PortsHold (unitSpec : RawUnitSpec) : Prop :=
  unitSpec.numPorts * m.sizeofPointer < 2 ^ m.sizeBits

theorem holds_unitNew (unitSpec : RawUnitSpec) (memory : Carving) :
    (m.unitNew unitSpec memory).Holds ↔ m.PortsHold unitSpec ∧ memory.Holds := by
  unfold unitNew PortsHold
  simp only [Carving.holds_take]
  rw [← Nat.add_mul, ← m.le_sizeT_iff]
  unfold RawUnitSpec.numPorts
  simp

theorem holds_foldl_constructUnit (units : List RawUnitSpec) (g : Construction) :
    (units.foldl m.constructUnit g).memory.Holds ↔
      (∀ unitSpec ∈ units, m.PortsHold unitSpec) ∧ g.memory.Holds := by
  induction units generalizing g with
  | nil => simp
  | cons unitSpec units ih =>
    rw [List.foldl_cons, ih, List.forall_mem_cons]
    have hunit : (m.constructUnit g unitSpec).memory.Holds ↔
        m.PortsHold unitSpec ∧ g.memory.Holds := m.holds_unitNew unitSpec g.memory
    rw [hunit]
    tauto

/-- Where no product wraps around, the cursor moves by the bytes of the units. -/
theorem memory_foldl_constructUnit (units : List RawUnitSpec) (g : Construction)
    (h : ∀ unitSpec ∈ units, m.PortsHold unitSpec) :
    (units.foldl m.constructUnit g).memory.memory =
      g.memory.memory + (units.map m.unitSize).sum := by
  induction units generalizing g with
  | nil => simp
  | cons unitSpec units ih =>
    rw [List.forall_mem_cons] at h
    rw [List.foldl_cons, ih _ h.2, List.map_cons, List.sum_cons]
    simp only [constructUnit, unitNew, Carving.memory_take, unitSize, m.sizeT_of_lt h.1]
    omega

/-! ## A definition and its variants -/

theorem graphCtor_readVariant (g : SynthDef) (v : Variant) :
    m.LaidOut (g.readVariant v) ↔ m.LaidOut g := by
  constructor
  · intro h
    exact ⟨h.sound, h.wires, h.calcUnits⟩
  · intro h
    exact ⟨h.sound, h.wires, h.calcUnits⟩

/-- A `uint32` holds the number of the wires. -/
theorem numWires_lt (d : RawGraphDef) (h : d.Counted) : d.numWires < 2 ^ 32 := by
  have hsum : (d.mUnitSpecs.map RawUnitSpec.mNumOutputs).sum ≤
      (d.mUnitSpecs.map RawUnitSpec.mNumOutputs).length • (2 ^ 16 - 1) := by
    apply List.sum_le_card_nsmul
    intro n hn
    obtain ⟨unitSpec, hunit, rfl⟩ := List.mem_map.mp hn
    have := h.outputs unitSpec hunit
    omega
  rw [List.length_map, smul_eq_mul] at hsum
  have hconstants := h.constants
  have hunits := h.units
  unfold RawGraphDef.numWires
  omega

theorem mNumWires_allocSizes (d : RawGraphDef) (h : d.Counted) :
    (m.allocSizes d).mNumWires = d.numWires :=
  m.mNumWires_foldl_addUnit _ _ (numWires_lt d h)

theorem mNumCalcUnits_allocSizes (d : RawGraphDef) :
    (m.allocSizes d).mNumCalcUnits = d.mUnitSpecs.countP isCalc := by
  simp [allocSizes, unitSums, mNumCalcUnits_foldl_addUnit]

/-- The sums of `GraphDef_Read` are those of the parts, up to a wrap around at the end. -/
theorem mAllocSize_allocSizes (d : RawGraphDef) (h : d.Counted) :
    (m.allocSizes d).mAllocSize = m.sizeT (m.exactSize d) := by
  have hwires : (m.unitSums d).mNumWires = d.numWires := m.mNumWires_allocSizes d h
  have hcalc : (m.unitSums d).mNumCalcUnits = d.mUnitSpecs.countP isCalc :=
    m.mNumCalcUnits_allocSizes d
  have hunits : m.sizeT (m.unitSums d).mAllocSize =
      m.sizeT (m.sizeofGraph + (d.mUnitSpecs.map m.unitSize).sum) :=
    m.sizeT_foldl_addUnit _ _
  simp only [allocSizes, hwires, hcalc, sizeT_sizeT_add, sizeT_add_sizeT, Nat.add_assoc]
  -- the units come first in the sum, and last in the allocation
  rw [← sizeT_sizeT_add, hunits, sizeT_sizeT_add]
  congr 1
  simp only [exactSize]
  omega

/-! ## The room in front of the units -/

/-- The products of `GraphDef_Read` that do not belong to one unit. -/
def graphProducts (d : RawGraphDef) : List ℕ :=
  [d.mUnitSpecs.length * m.sizeofPointer, d.numWires * m.sizeofWire,
    d.mUnitSpecs.countP isCalc * m.sizeofPointer, d.mInitialControlValues.length * m.sizeofFloat,
    d.mInitialControlValues.length * m.sizeofPointer]

theorem holds_carveGraph (d : RawGraphDef) (h : d.Counted) :
    (m.carveGraph ⟨d, m.allocSizes d⟩).Holds ↔
      ∀ x ∈ m.graphProducts d, x < 2 ^ m.sizeBits := by
  have hwires : (m.unitSums d).mNumWires = d.numWires := m.mNumWires_allocSizes d h
  have hcalc : (m.unitSums d).mNumCalcUnits = d.mUnitSpecs.countP isCalc :=
    m.mNumCalcUnits_allocSizes d
  -- the rates of the controls fit where the pointers to the controls do
  have hrates : d.mInitialControlValues.length * m.sizeofPointer < 2 ^ m.sizeBits →
      d.mInitialControlValues.length * m.sizeofInt ≤
        m.sizeT (d.mInitialControlValues.length * m.sizeofPointer) := by
    intro hlt
    rw [m.sizeT_of_lt hlt]
    exact Nat.mul_le_mul_left _ m.int_le_pointer
  simp only [carveGraph, allocSizes, hwires, hcalc, Carving.holds_take, le_sizeT_iff, graphProducts,
    List.forall_mem_cons, Carving.holds_start, and_true, le_refl, List.not_mem_nil,
    false_imp_iff, implies_true]
  tauto

/-- Where no product wraps around, the units begin behind the parts of the graph. -/
theorem memory_carveGraph (d : RawGraphDef) (h : d.Counted)
    (hproducts : ∀ x ∈ m.graphProducts d, x < 2 ^ m.sizeBits) :
    (m.carveGraph ⟨d, m.allocSizes d⟩).memory + (d.mUnitSpecs.map m.unitSize).sum =
      m.exactSize d := by
  have hwires : (m.unitSums d).mNumWires = d.numWires := m.mNumWires_allocSizes d h
  have hcalc : (m.unitSums d).mNumCalcUnits = d.mUnitSpecs.countP isCalc :=
    m.mNumCalcUnits_allocSizes d
  simp only [graphProducts, List.forall_mem_cons] at hproducts
  obtain ⟨hunits, hwiresLt, hcalcLt, hcontrols, hmaps, -⟩ := hproducts
  simp only [carveGraph, allocSizes, hwires, hcalc, Carving.memory_take, Carving.memory_start,
    m.sizeT_of_lt hunits, m.sizeT_of_lt hwiresLt, m.sizeT_of_lt hcalcLt, m.sizeT_of_lt hcontrols,
    m.sizeT_of_lt hmaps, exactSize]
  omega

/-! ## The whole allocation -/

/-- No product is more than the whole. -/
theorem graphProducts_le (d : RawGraphDef) {x : ℕ} (hx : x ∈ m.graphProducts d) :
    x ≤ m.exactSize d := by
  simp only [graphProducts, List.mem_cons, List.not_mem_nil, or_false] at hx
  simp only [exactSize]
  omega

theorem portsHold_of_lt (d : RawGraphDef) (h : m.exactSize d < 2 ^ m.sizeBits)
    {unitSpec : RawUnitSpec} (hunit : unitSpec ∈ d.mUnitSpecs) : m.PortsHold unitSpec := by
  have hle : m.unitSize unitSpec ≤ (d.mUnitSpecs.map m.unitSize).sum :=
    List.single_le_sum (by simp) _ (List.mem_map_of_mem hunit)
  have hsum : (d.mUnitSpecs.map m.unitSize).sum ≤ m.exactSize d := Nat.le_add_left _ _
  have hunitSize : m.unitSize unitSpec = unitSpec.mUnitDef.mAllocSize +
      (unitSpec.numPorts * m.sizeofPointer + unitSpec.numPorts * m.sizeofPointer) := rfl
  unfold PortsHold
  omega

theorem holds_graphCtor (d : RawGraphDef) (h : d.Counted) :
    (m.graphCtor ⟨d, m.allocSizes d⟩).memory.Holds ↔
      (∀ unitSpec ∈ d.mUnitSpecs, m.PortsHold unitSpec) ∧
        ∀ x ∈ m.graphProducts d, x < 2 ^ m.sizeBits := by
  unfold graphCtor
  rw [holds_foldl_constructUnit, m.holds_carveGraph d h]

/-- The cursor ends behind the last byte of the last part. -/
theorem memory_graphCtor (d : RawGraphDef) (h : d.Counted)
    (hports : ∀ unitSpec ∈ d.mUnitSpecs, m.PortsHold unitSpec)
    (hproducts : ∀ x ∈ m.graphProducts d, x < 2 ^ m.sizeBits) :
    (m.graphCtor ⟨d, m.allocSizes d⟩).memory.memory = m.exactSize d := by
  unfold graphCtor
  rw [m.memory_foldl_constructUnit _ _ hports]
  exact m.memory_carveGraph d h hproducts

/-- The carving of a definition is sound when its exact size is one that a `size_t` holds. -/
theorem sound_graphCtor (d : RawGraphDef) (h : d.Counted) :
    (m.graphCtor ⟨d, m.allocSizes d⟩).memory.Sound (m.allocSizes d).mAllocSize ↔
      m.exactSize d < 2 ^ m.sizeBits := by
  rw [Carving.sound_iff, m.mAllocSize_allocSizes d h, m.holds_graphCtor d h]
  constructor
  · intro hsound
    obtain ⟨hfits, hports, hproducts⟩ := hsound
    rw [m.memory_graphCtor d h hports hproducts] at hfits
    exact m.le_sizeT_iff.mp hfits
  · intro hlt
    have hports : ∀ unitSpec ∈ d.mUnitSpecs, m.PortsHold unitSpec :=
      fun _ hunit => m.portsHold_of_lt d hlt hunit
    have hproducts : ∀ x ∈ m.graphProducts d, x < 2 ^ m.sizeBits :=
      fun _ hx => (m.graphProducts_le d hx).trans_lt hlt
    rw [m.memory_graphCtor d h hports hproducts]
    exact ⟨m.le_sizeT_iff.mpr hlt, hports, hproducts⟩

theorem laidOut_iff_sound (d : RawGraphDef) (h : d.Counted) :
    m.LaidOut ⟨d, m.allocSizes d⟩ ↔
      (m.graphCtor ⟨d, m.allocSizes d⟩).memory.Sound (m.allocSizes d).mAllocSize := by
  have hwires := m.mNumWires_allocSizes d h
  have hcalc := m.mNumCalcUnits_allocSizes d
  constructor
  · intro hlaid
    exact hlaid.sound
  · intro hsound
    -- both loops count the same units
    refine ⟨hsound, ?_, ?_⟩
    · rw [hwires]
      exact m.wireCtr_foldl_constructUnit _ _
    · rw [hcalc, ← Nat.zero_add (List.countP ..)]
      exact m.calcCtr_foldl_constructUnit _ _

/-- The synths of a definition and of its variants lie in their allocations exactly when the
sizes of the parts add up to a number that a `size_t` holds. -/
theorem laidOut_iff (d : RawGraphDef) (mVariants : List Variant) (h : d.Counted) :
    (∀ g ∈ m.synthDefs d mVariants, m.LaidOut g) ↔ m.exactSize d < 2 ^ m.sizeBits := by
  rw [← m.sound_graphCtor d h, ← m.laidOut_iff_sound d h]
  unfold synthDefs
  simp only [List.forall_mem_cons, List.forall_mem_map, graphCtor_readVariant]
  tauto

/-- A definition of one oscillator. -/
def sineDef : RawGraphDef where
  mName := [115#8]
  mConstants := [0#32]
  mInitialControlValues := []
  mParamSpecs := []
  mUnitSpecs := [⟨⟨false, 136⟩, 2, 0, [⟨-1, 0⟩, ⟨-1, 0⟩], [2]⟩]

theorem laidOut_iff_sine : (∀ g ∈ lp64.synthDefs sineDef [⟨[115#8, 46#8], []⟩], lp64.LaidOut g) ↔
    lp64.exactSize sineDef < 2 ^ lp64.sizeBits :=
  lp64.laidOut_iff sineDef _ ⟨by decide, by decide, by decide, by decide, by decide⟩

example : lp64.exactSize sineDef = 200 + 8 + 2 * 32 + 8 + (136 + 3 * 8 + 3 * 8) := by decide

/-- Where addresses have 64 bits, a `size_t` holds every size, as no struct of a unit generator
fills an address space. -/
theorem exactSize_lt_lp64 (d : RawGraphDef) (h : d.Counted)
    (hstructs : ∀ unitSpec ∈ d.mUnitSpecs, unitSpec.mUnitDef.mAllocSize < 2 ^ 47) :
    lp64.exactSize d < 2 ^ lp64.sizeBits := by
  have hsum : (d.mUnitSpecs.map lp64.unitSize).sum ≤
      (d.mUnitSpecs.map lp64.unitSize).length • (2 ^ 47 + 2 ^ 21) := by
    apply List.sum_le_card_nsmul
    intro n hn
    obtain ⟨unitSpec, hunit, rfl⟩ := List.mem_map.mp hn
    have hstruct := hstructs unitSpec hunit
    have hinputs := h.inputs unitSpec hunit
    have houtputs := h.outputs unitSpec hunit
    simp only [unitSize, RawUnitSpec.numPorts, lp64]
    omega
  rw [List.length_map, smul_eq_mul] at hsum
  have hunits := h.units
  have hwires := numWires_lt d h
  have hcontrols := h.controls
  have hcalc : d.mUnitSpecs.countP isCalc ≤ d.mUnitSpecs.length := List.countP_le_length
  have hwhole : lp64.exactSize d = 200 + d.mUnitSpecs.length * 8 + d.numWires * 32 +
      d.mUnitSpecs.countP isCalc * 8 + d.mInitialControlValues.length * 4 +
      d.mInitialControlValues.length * 8 + d.mInitialControlValues.length * 8 +
      (d.mUnitSpecs.map lp64.unitSize).sum := rfl
  have hbits : 2 ^ lp64.sizeBits = 2 ^ 64 := rfl
  omega

/-! ## A synth of more than 2 ^ 32 bytes -/

/-- A unit with as many outputs as a unit may have. -/
def wideUnit : RawUnitSpec := ⟨⟨false, 128⟩, 0, 0, [], List.replicate 65535 0⟩

def wideDef : RawGraphDef where
  mName := [119#8]
  mConstants := []
  mInitialControlValues := []
  mParamSpecs := []
  mUnitSpecs := List.replicate 2732 wideUnit

theorem mNumOutputs_wideUnit : wideUnit.mNumOutputs = 65535 := List.length_replicate

theorem wideDef_wellFormed : wideDef.WellFormed where
  rate := by
    intro unit hunit
    rw [List.eq_of_mem_replicate hunit]
    refine ⟨by decide, ?_⟩
    intro r hr
    rw [List.eq_of_mem_replicate hr]
    decide
  input := by
    intro u unit hunit i hi
    rw [List.eq_of_mem_replicate (List.mem_of_getElem? hunit)] at hi
    exact absurd hi List.not_mem_nil
  param := by
    intro p hp
    exact absurd hp List.not_mem_nil

theorem wideDef_counted : wideDef.Counted where
  constants := by decide
  controls := by decide
  units := by
    rw [wideDef, List.length_replicate]
    decide
  inputs := by
    intro unitSpec hunit
    rw [List.eq_of_mem_replicate hunit]
    decide
  outputs := by
    intro unitSpec hunit
    rw [List.eq_of_mem_replicate hunit, mNumOutputs_wideUnit]
    decide

/-- The wires and the structs and ports of `n` units without inputs. -/
theorem le_exactSize_replicate {d : RawGraphDef} {u : RawUnitSpec} {n k : ℕ}
    (hunits : d.mUnitSpecs = List.replicate n u) (hinputs : u.mNumInputs = 0)
    (houtputs : u.mNumOutputs = k) :
    n * k * 16 + n * (u.mUnitDef.mAllocSize + (k * 4 + k * 4)) ≤ ilp32.exactSize d := by
  have hwires : n * k ≤ d.numWires := by
    rw [RawGraphDef.numWires, hunits, List.map_replicate, List.sum_replicate, smul_eq_mul, houtputs]
    exact Nat.le_add_left _ _
  have hunit : ilp32.unitSize u = u.mUnitDef.mAllocSize + (k * 4 + k * 4) := by
    rw [unitSize, RawUnitSpec.numPorts, hinputs, houtputs, Nat.zero_add]
    rfl
  have hsum : (d.mUnitSpecs.map ilp32.unitSize).sum =
      n * (u.mUnitDef.mAllocSize + (k * 4 + k * 4)) := by
    rw [hunits, List.map_replicate, List.sum_replicate, smul_eq_mul, hunit]
  simp only [exactSize, ilp32] at hsum ⊢
  omega

theorem exactSize_wideDef : 2 ^ 32 ≤ ilp32.exactSize wideDef := by
  have hparts := le_exactSize_replicate (d := wideDef) (n := 2732) rfl rfl mNumOutputs_wideUnit
  exact le_trans (by decide) hparts

/-- The allocation is some kilobytes, and the cursor runs 4 gigabytes far. -/
theorem not_laidOut_wideDef : ¬ ∀ (m : DataModel) (d : RawGraphDef) (mVariants : List Variant),
    d.WellFormed → d.Counted → ∀ g ∈ m.synthDefs d mVariants, m.LaidOut g := by
  intro hall
  have hlaid := hall ilp32 wideDef [] wideDef_wellFormed wideDef_counted _
    (List.mem_singleton_self _)
  have hlt := (ilp32.sound_graphCtor wideDef wideDef_counted).mp hlaid.sound
  exact absurd hlt (not_lt.mpr exactSize_wideDef)

end DataModel

end PoopWorms.Server
