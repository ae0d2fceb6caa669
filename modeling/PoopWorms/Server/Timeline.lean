import PoopWorms.Server.GraphDef
import Mathlib.Data.List.Nodup
import Mathlib.Algebra.BigOperators.Group.List.Basic

/-!
# The timeline of a synth definition

The order in which `DoBufferColoring` gives buffers to audio outputs and takes them back
from the inputs that read them, as a program for `ColorStack`. An output is held at a place
of the timeline exactly if it is live there.
-/

namespace PoopWorms.Server

open ColorStack

namespace GraphDef

variable (inGraphDef : GraphDef)

/-- What one input means for the colouring. -/
def useAt (unit i : ℕ) : List (Op Output ℕ) :=
  match (inGraphDef.unit unit).mInputSpec[i]? with
  | none => []
  | some inputSpec =>
    if inputSpec.mFromUnitIndex ≥ 0 ∧ inGraphDef.outputRate inputSpec.fromOutput = .fullRate
    then [.use inputSpec.fromOutput unit] else []

/-- What one output means for the colouring. -/
def defineAt (unit i : ℕ) : List (Op Output ℕ) :=
  if inGraphDef.outputRate (unit, i) = .fullRate then [.define (unit, i)] else []

def usesOf (unit : ℕ) : List (Op Output ℕ) :=
  (List.range (inGraphDef.unit unit).mInputSpec.length).reverse.flatMap (inGraphDef.useAt unit)

def definesOf (unit : ℕ) : List (Op Output ℕ) :=
  (List.range (inGraphDef.unit unit).mOutputSpec.length).flatMap (inGraphDef.defineAt unit)

def timelineOf (unit : ℕ) : List (Op Output ℕ) :=
  if (inGraphDef.unit unit).cantAlias then inGraphDef.definesOf unit ++ inGraphDef.usesOf unit
  else inGraphDef.usesOf unit ++ inGraphDef.definesOf unit

def timeline : List (Op Output ℕ) :=
  (List.range inGraphDef.numUnits).flatMap inGraphDef.timelineOf

variable {inGraphDef} {u v w i : ℕ} {o o' : Output} {op : Op Output ℕ}

/-! ## What is on the timeline -/

theorem mem_definesOf : op ∈ inGraphDef.definesOf u ↔
    ∃ o ∈ inGraphDef.audioOutputsOf u, op = .define o := by
  unfold definesOf defineAt audioOutputsOf
  simp only [List.mem_flatMap, List.mem_range, List.mem_filter, List.mem_map, decide_eq_true_eq]
  constructor
  · rintro ⟨i, hi, hop⟩
    split_ifs at hop with hrate
    · exact ⟨(u, i), ⟨⟨i, hi, rfl⟩, hrate⟩, List.mem_singleton.mp hop⟩
    · cases hop
  · rintro ⟨_, ⟨⟨i, hi, rfl⟩, hrate⟩, rfl⟩
    exact ⟨i, hi, by rw [if_pos hrate]; exact List.mem_singleton_self _⟩

theorem mem_usesOf : op ∈ inGraphDef.usesOf u ↔
    ∃ o ∈ inGraphDef.inputsOf u, inGraphDef.outputRate o = .fullRate ∧ op = .use o u := by
  unfold usesOf useAt inputsOf
  simp only [List.mem_flatMap, List.mem_reverse, List.mem_range, List.mem_filterMap]
  constructor
  · rintro ⟨i, hi, hop⟩
    rw [List.getElem?_eq_getElem hi] at hop
    dsimp only at hop
    split_ifs at hop with hwire
    · refine ⟨_, ⟨_, List.getElem_mem hi, if_pos hwire.1⟩, hwire.2, List.mem_singleton.mp hop⟩
    · cases hop
  · rintro ⟨o, ⟨inputSpec, hmem, hfrom⟩, hrate, rfl⟩
    split_ifs at hfrom with hwire
    · cases hfrom
      obtain ⟨i, hi, rfl⟩ := List.getElem_of_mem hmem
      refine ⟨i, hi, ?_⟩
      rw [List.getElem?_eq_getElem hi]
      dsimp only
      rw [if_pos ⟨hwire, hrate⟩]
      exact List.mem_singleton_self _

theorem mem_timelineOf : op ∈ inGraphDef.timelineOf u ↔
    op ∈ inGraphDef.definesOf u ∨ op ∈ inGraphDef.usesOf u := by
  unfold timelineOf
  split_ifs
  · exact List.mem_append
  · rw [List.mem_append, or_comm]

theorem mem_audioOutputsOf : o ∈ inGraphDef.audioOutputsOf u ↔
    o.1 = u ∧ o.2 < (inGraphDef.unit u).mOutputSpec.length ∧
      inGraphDef.outputRate o = .fullRate := by
  unfold audioOutputsOf
  simp only [List.mem_filter, List.mem_map, List.mem_range, decide_eq_true_eq]
  constructor
  · rintro ⟨⟨i, hi, rfl⟩, hrate⟩
    exact ⟨rfl, hi, hrate⟩
  · rintro ⟨rfl, hi, hrate⟩
    exact ⟨⟨o.2, hi, rfl⟩, hrate⟩

theorem mem_audioOutputs : o ∈ inGraphDef.audioOutputs ↔
    o.1 < inGraphDef.numUnits ∧ o ∈ inGraphDef.audioOutputsOf o.1 := by
  unfold audioOutputs
  simp only [List.mem_flatMap, List.mem_range]
  constructor
  · rintro ⟨u, hu, ho⟩
    obtain rfl := (mem_audioOutputsOf.mp ho).1
    exact ⟨hu, ho⟩
  · rintro ⟨hu, ho⟩
    exact ⟨o.1, hu, ho⟩

theorem define_mem_timeline : .define o ∈ inGraphDef.timeline ↔ o ∈ inGraphDef.audioOutputs := by
  unfold timeline audioOutputs
  simp only [List.mem_flatMap, mem_timelineOf, mem_definesOf, mem_usesOf]
  constructor
  · rintro ⟨u, hu, ⟨o', ho', heq⟩ | ⟨o', -, -, heq⟩⟩
    · cases heq
      exact ⟨u, hu, ho'⟩
    · cases heq
  · rintro ⟨u, hu, ho⟩
    exact ⟨u, hu, .inl ⟨o, ho, rfl⟩⟩

theorem use_mem_timeline : .use o w ∈ inGraphDef.timeline ↔
    w < inGraphDef.numUnits ∧ o ∈ inGraphDef.inputsOf w ∧ inGraphDef.outputRate o = .fullRate := by
  unfold timeline
  simp only [List.mem_flatMap, mem_timelineOf, mem_definesOf, mem_usesOf, List.mem_range]
  constructor
  · rintro ⟨u, hu, ⟨o', -, heq⟩ | ⟨o', ho', hrate, heq⟩⟩
    · cases heq
    · cases heq
      exact ⟨hu, ho', hrate⟩
  · rintro ⟨hw, ho, hrate⟩
    exact ⟨w, hw, .inr ⟨o, ho, hrate, rfl⟩⟩

/-- An input reads an output of an earlier unit. -/
theorem WellFormed.lt_of_mem_inputsOf (hwf : inGraphDef.WellFormed) (hu : u < inGraphDef.numUnits)
    (ho : o ∈ inGraphDef.inputsOf u) :
    o.1 < u ∧ o.2 < (inGraphDef.unit o.1).mOutputSpec.length := by
  unfold inputsOf at ho
  rw [List.mem_filterMap] at ho
  obtain ⟨inputSpec, hmem, hfrom⟩ := ho
  split_ifs at hfrom with hwire
  · cases hfrom
    obtain ⟨-, hconst | hout⟩ := hwf.input u hu inputSpec hmem
    · omega
    · exact hout.2

theorem WellFormed.mem_audioOutputs (hwf : inGraphDef.WellFormed) (hu : u < inGraphDef.numUnits)
    (ho : o ∈ inGraphDef.inputsOf u) (hrate : inGraphDef.outputRate o = .fullRate) :
    o ∈ inGraphDef.audioOutputs := by
  have hlt := hwf.lt_of_mem_inputsOf hu ho
  exact GraphDef.mem_audioOutputs.mpr ⟨by omega, mem_audioOutputsOf.mpr ⟨rfl, hlt.2, hrate⟩⟩

/-! ## The order of the timeline -/

variable (inGraphDef) in
/-- The order of two operations by their units, and inside a unit by `cantAlias`. -/
def Before : Op Output ℕ → Op Output ℕ → Prop
  | .define o, .define o' => o.1 < o'.1 ∨ o.1 = o'.1 ∧ o.2 < o'.2
  | .define o, .use _ w => o.1 < w ∨ o.1 = w ∧ (inGraphDef.unit w).cantAlias
  | .use _ w, .define o => w < o.1 ∨ w = o.1 ∧ ¬ (inGraphDef.unit w).cantAlias
  | .use _ w, .use _ w' => w ≤ w'

theorem pairwise_definesOf (u : ℕ) :
    (inGraphDef.definesOf u).Pairwise (inGraphDef.Before) := by
  unfold definesOf
  rw [List.pairwise_flatMap]
  constructor
  · intro i hi
    unfold defineAt
    split_ifs
    · exact List.pairwise_singleton _ _
    · exact List.Pairwise.nil
  · apply List.pairwise_lt_range.imp
    intro i j hij x hx y hy
    unfold defineAt at hx hy
    split_ifs at hx hy
    · cases List.mem_singleton.mp hx
      cases List.mem_singleton.mp hy
      exact .inr ⟨rfl, hij⟩
    all_goals simp at hx hy

theorem pairwise_usesOf (u : ℕ) : (inGraphDef.usesOf u).Pairwise (inGraphDef.Before) := by
  apply List.pairwise_of_forall_mem_list
  intro x hx y hy
  obtain ⟨o, -, -, rfl⟩ := mem_usesOf.mp hx
  obtain ⟨o', -, -, rfl⟩ := mem_usesOf.mp hy
  exact Nat.le_refl u

theorem pairwise_timeline : inGraphDef.timeline.Pairwise inGraphDef.Before := by
  unfold timeline
  rw [List.pairwise_flatMap]
  constructor
  · intro u hu
    unfold timelineOf
    split_ifs with halias <;> rw [List.pairwise_append]
    · refine ⟨pairwise_definesOf u, pairwise_usesOf u, fun x hx y hy => ?_⟩
      obtain ⟨o, ho, rfl⟩ := mem_definesOf.mp hx
      obtain ⟨o', -, -, rfl⟩ := mem_usesOf.mp hy
      exact .inr ⟨(mem_audioOutputsOf.mp ho).1, halias⟩
    · refine ⟨pairwise_usesOf u, pairwise_definesOf u, fun x hx y hy => ?_⟩
      obtain ⟨o, -, -, rfl⟩ := mem_usesOf.mp hx
      obtain ⟨o', ho', rfl⟩ := mem_definesOf.mp hy
      exact .inr ⟨(mem_audioOutputsOf.mp ho').1.symm, halias⟩
  · apply List.pairwise_lt_range.imp
    intro u v huv x hx y hy
    rw [mem_timelineOf, mem_definesOf, mem_usesOf] at hx hy
    rcases hx with ⟨o, ho, rfl⟩ | ⟨o, -, -, rfl⟩ <;> rcases hy with ⟨o', ho', rfl⟩ | ⟨o', -, -, rfl⟩
    · rw [← (mem_audioOutputsOf.mp ho).1, ← (mem_audioOutputsOf.mp ho').1] at huv
      exact .inl huv
    · rw [← (mem_audioOutputsOf.mp ho).1] at huv
      exact .inl huv
    · rw [← (mem_audioOutputsOf.mp ho').1] at huv
      exact .inl huv
    · exact Nat.le_of_lt huv

/-- What comes before and after an operation of the timeline. -/
theorem before_of_cut {pre post : List (Op Output ℕ)}
    (hcut : inGraphDef.timeline = pre ++ op :: post) :
    (∀ x ∈ pre, inGraphDef.Before x op) ∧ ∀ x ∈ post, inGraphDef.Before op x := by
  have hpair : inGraphDef.timeline.Pairwise inGraphDef.Before := pairwise_timeline
  rw [hcut, List.pairwise_append, List.pairwise_cons] at hpair
  exact ⟨fun x hx => hpair.2.2 x hx op (by simp), hpair.2.1.1⟩

theorem wellScoped_timeline (hwf : inGraphDef.WellFormed) :
    WellScoped [] inGraphDef.timeline := by
  have hseen : ∀ o, o ∈ [] ↔ (.define o : Op Output ℕ) ∈ [] := by simp
  apply wellScoped_of_cuts hseen
  · intro pre o post hcut hmem
    have hbefore := (before_of_cut hcut).1 _ hmem
    rcases hbefore with h | ⟨-, h⟩
    · exact absurd h (Nat.lt_irrefl _)
    · exact absurd h (Nat.lt_irrefl _)
  · intro pre o w post hcut
    change inGraphDef.timeline = _ at hcut
    have hmem : .use o w ∈ inGraphDef.timeline := by
      rw [hcut]
      simp
    obtain ⟨hw, ho, hrate⟩ := use_mem_timeline.mp hmem
    have hlt := (hwf.lt_of_mem_inputsOf hw ho).1
    have hdef := define_mem_timeline.mpr (hwf.mem_audioOutputs hw ho hrate)
    rw [hcut, List.mem_append, List.mem_cons] at hdef
    rcases hdef with hmem | heq | hmem
    · exact hmem
    · cases heq
    · rcases (before_of_cut hcut).2 _ hmem with h | ⟨h, -⟩
      · omega
      · omega

/-! ## Held is live -/

theorem uses_timeline_eq_zero (hrate : inGraphDef.outputRate o = .fullRate) :
    uses o inGraphDef.timeline = 0 ↔ inGraphDef.Unused o := by
  constructor
  · intro hzero w hw ho
    have hpos := uses_pos_iff.mpr ⟨w, use_mem_timeline.mpr ⟨hw, ho, hrate⟩⟩
    omega
  · intro hunused
    by_contra hne
    obtain ⟨w, hmem⟩ := uses_pos_iff.mp (Nat.pos_of_ne_zero hne)
    obtain ⟨hw, ho, -⟩ := use_mem_timeline.mp hmem
    exact hunused w hw ho

section Cut

variable {pre post : List (Op Output ℕ)} (hcut : inGraphDef.timeline = pre ++ .define o :: post)

include hcut

theorem uses_pos_of_cut (hrate : inGraphDef.outputRate o' = .fullRate) :
    0 < uses o' post ↔ inGraphDef.NeededAfter o' o.1 := by
  rw [uses_pos_iff]
  constructor
  · rintro ⟨w, hmem⟩
    have hline : .use o' w ∈ inGraphDef.timeline := by
      rw [hcut]
      simp [hmem]
    obtain ⟨hw, ho, -⟩ := use_mem_timeline.mp hline
    refine ⟨w, hw, ho, ?_⟩
    rcases (before_of_cut hcut).2 _ hmem with h | ⟨h, halias⟩
    · exact .inl h
    · exact .inr ⟨h, h ▸ halias⟩
  · rintro ⟨w, hw, ho, hlater⟩
    have hline := use_mem_timeline.mpr ⟨hw, ho, hrate⟩
    rw [hcut, List.mem_append, List.mem_cons] at hline
    rcases hline with hmem | heq | hmem
    · rcases (before_of_cut hcut).1 _ hmem with h | ⟨h, halias⟩
      · omega
      · rcases hlater with h' | ⟨-, halias'⟩
        · omega
        · exact absurd (h ▸ halias') halias
    · cases heq
    · exact ⟨w, hmem⟩

/-- An output of an earlier unit, or an earlier output of the unit, has its buffer. -/
theorem define_mem_of_cut (ho' : o' ∈ inGraphDef.audioOutputs) :
    .define o' ∈ pre ++ [.define o] ↔ o'.1 < o.1 ∨ o'.1 = o.1 ∧ o'.2 ≤ o.2 := by
  have hline := define_mem_timeline.mpr ho'
  rw [hcut, List.mem_append, List.mem_cons] at hline
  rw [List.mem_append, List.mem_singleton]
  constructor
  · rintro (hmem | heq)
    · rcases (before_of_cut hcut).1 _ hmem with h | ⟨h, h'⟩
      · exact .inl h
      · exact .inr ⟨h, Nat.le_of_lt h'⟩
    · cases heq
      exact .inr ⟨rfl, Nat.le_refl _⟩
  · intro hle
    rcases hline with hmem | heq | hmem
    · exact .inl hmem
    · exact .inr heq
    · rcases (before_of_cut hcut).2 _ hmem with h | ⟨h, h'⟩ <;> omega

/-- When an audio output is given its buffer, exactly the live audio outputs are held. -/
theorem held_iff_liveWith (hwf : inGraphDef.WellFormed) :
    Held (pre ++ [.define o]) post o' ↔
      o' ∈ inGraphDef.audioOutputs ∧ inGraphDef.LiveWith o o' := by
  have huses : ∀ x, uses x inGraphDef.timeline = uses x (pre ++ [.define o]) + uses x post := by
    intro x
    rw [hcut, ← uses_append]
    simp
  constructor
  · rintro ⟨hmem, huse⟩
    have ho' : o' ∈ inGraphDef.audioOutputs := by
      rw [← define_mem_timeline, hcut]
      rw [List.mem_append, List.mem_singleton] at hmem
      rcases hmem with hmem | heq
      · simp [hmem]
      · simp [heq]
    have hrate := (mem_audioOutputsOf.mp (mem_audioOutputs.mp ho').2).2.2
    refine ⟨ho', ?_⟩
    rcases (define_mem_of_cut hcut ho').mp hmem with hlt | heq
    · refine .inr ⟨hlt, ?_⟩
      by_cases hpos : 0 < uses o' post
      · exact .inl ((uses_pos_of_cut hcut hrate).mp hpos)
      · refine .inr ((uses_timeline_eq_zero hrate).mp ?_)
        have := huses o'
        omega
    · exact .inl heq
  · rintro ⟨ho', hlive⟩
    have hrate := (mem_audioOutputsOf.mp (mem_audioOutputs.mp ho').2).2.2
    rcases hlive with heq | ⟨hlt, hlive⟩
    · refine ⟨(define_mem_of_cut hcut ho').mpr (.inr heq), ?_⟩
      -- an output of the unit itself has no reader yet
      by_contra hnone
      push Not at hnone
      obtain ⟨w, hmem⟩ := uses_pos_iff.mp (Nat.pos_of_ne_zero hnone.2)
      rw [List.mem_append] at hmem
      rcases hmem with hmem | hmem
      · have hline : .use o' w ∈ inGraphDef.timeline := by
          rw [hcut]
          simp [hmem]
        obtain ⟨hw, hin, -⟩ := use_mem_timeline.mp hline
        have hearlier := (hwf.lt_of_mem_inputsOf hw hin).1
        rcases (before_of_cut hcut).1 _ hmem with h | ⟨h, -⟩ <;> omega
      · simp at hmem
    · refine ⟨(define_mem_of_cut hcut ho').mpr (.inl hlt), ?_⟩
      rcases hlive with hneeded | hunused
      · exact .inl ((uses_pos_of_cut hcut hrate).mpr hneeded)
      · right
        have hzero := (uses_timeline_eq_zero hrate).mpr hunused
        have := huses o'
        omega

end Cut

/-! ## Counts -/

theorem nodup_audioOutputs : inGraphDef.audioOutputs.Nodup := by
  unfold audioOutputs
  rw [List.nodup_flatMap]
  constructor
  · intro u hu
    unfold audioOutputsOf
    apply List.Nodup.filter
    exact (List.nodup_range).map fun a b h => (Prod.mk.inj h).2
  · apply List.nodup_range.pairwise_of_forall_ne
    intro u hu v hv hne o ho ho'
    exact hne ((mem_audioOutputsOf.mp ho).1.symm.trans (mem_audioOutputsOf.mp ho').1)

theorem uses_definesOf (u : ℕ) : uses o (inGraphDef.definesOf u) = 0 := by
  by_contra hne
  obtain ⟨w, hmem⟩ := uses_pos_iff.mp (Nat.pos_of_ne_zero hne)
  obtain ⟨o', -, heq⟩ := mem_definesOf.mp hmem
  cases heq

theorem uses_usesOf (hrate : inGraphDef.outputRate o = .fullRate) (u : ℕ) :
    uses o (inGraphDef.usesOf u) = (inGraphDef.inputsOf u).count o := by
  unfold uses usesOf inputsOf useAt
  rw [List.countP_flatMap, List.map_reverse, List.sum_reverse]
  generalize (inGraphDef.unit u).mInputSpec = l
  -- the loop over the places of the inputs is a loop over the inputs
  induction l with
  | nil => rfl
  | cons x xs ih =>
    rw [List.length_cons, List.range_succ_eq_map, List.map_cons, List.sum_cons, List.map_map,
      List.filterMap_cons]
    simp only [Function.comp_def, Nat.succ_eq_add_one, List.getElem?_cons_succ,
      List.getElem?_cons_zero] at ih ⊢
    rw [ih]
    by_cases hwire : x.mFromUnitIndex ≥ 0
    · by_cases hx : x.fromOutput = o
      · subst hx
        simp [hwire, hrate, Nat.add_comm]
      · by_cases hfull : inGraphDef.outputRate x.fromOutput = .fullRate <;>
          simp [hwire, hfull, hx]
    · simp [hwire]

/-- The uses of an audio output on the timeline are its readers. -/
theorem uses_timeline (hrate : inGraphDef.outputRate o = .fullRate) :
    uses o inGraphDef.timeline = inGraphDef.numReaders o := by
  have hunit : ∀ u, uses o (inGraphDef.timelineOf u) = (inGraphDef.inputsOf u).count o := by
    intro u
    unfold timelineOf
    split_ifs
    · rw [uses_append, uses_definesOf, uses_usesOf hrate, Nat.zero_add]
    · rw [uses_append, uses_definesOf, uses_usesOf hrate, Nat.add_zero]
  unfold numReaders
  rw [List.count_flatMap]
  unfold uses timeline
  rw [List.countP_flatMap]
  congr 1
  apply List.map_congr_left
  intro u hu
  exact hunit u

/-! ## The first loop of `DoBufferColoring` -/

theorem int16_int16_add (x y : ℤ) : int16 (int16 x + y) = int16 (x + y) := Int.bmod_add_bmod

theorem int16_of_lt {x : ℤ} (h0 : 0 ≤ x) (hlt : x < 2 ^ 15) : int16 x = x := by
  apply Int.bmod_eq_of_le <;> omega

theorem foldl_counts_inputs (l : List InputSpec) (counts : Output → ℤ) {n : ℕ}
    (h : counts o = int16 n) :
    (l.foldl (fun counts inputSpec =>
      if inputSpec.mFromUnitIndex ≥ 0 then
        Function.update counts inputSpec.fromOutput (int16 (counts inputSpec.fromOutput + 1))
      else counts) counts) o =
    int16 (n + (l.filterMap fun inputSpec =>
      if inputSpec.mFromUnitIndex ≥ 0 then some inputSpec.fromOutput else none).count o : ℕ) := by
  induction l generalizing counts n with
  | nil => exact h
  | cons x xs ih =>
    rw [List.foldl_cons, List.filterMap_cons]
    by_cases hwire : x.mFromUnitIndex ≥ 0
    · rw [if_pos hwire, if_pos hwire]
      dsimp only
      by_cases hx : x.fromOutput = o
      · have hcount : Function.update counts x.fromOutput (int16 (counts x.fromOutput + 1)) o
            = int16 (n + 1 : ℕ) := by
          rw [hx, Function.update_self, h, int16_int16_add]
          rfl
        rw [ih _ hcount, hx, List.count_cons_self]
        congr 2
        omega
      · have hcount : Function.update counts x.fromOutput (int16 (counts x.fromOutput + 1)) o
            = int16 n := by
          rw [Function.update_of_ne (Ne.symm hx), h]
        rw [ih _ hcount, List.count_cons_of_ne hx]
    · rw [if_neg hwire, if_neg hwire]
      exact ih _ h

/-- `mNumConsumers` counts the readers, as an `int16`. -/
theorem mNumConsumers_eq (o : Output) :
    inGraphDef.mNumConsumers o = int16 (inGraphDef.numReaders o) := by
  have hloop : ∀ (l : List ℕ) (counts : Output → ℤ) (n : ℕ), counts o = int16 n →
      (l.foldl (fun counts j =>
        (inGraphDef.unit j).mInputSpec.foldl (fun counts inputSpec =>
          if inputSpec.mFromUnitIndex ≥ 0 then
            Function.update counts inputSpec.fromOutput (int16 (counts inputSpec.fromOutput + 1))
          else counts) counts) counts) o =
      int16 (n + (l.flatMap inGraphDef.inputsOf).count o : ℕ) := by
    intro l
    induction l with
    | nil =>
      intro counts n h
      exact h
    | cons j l ih =>
      intro counts n h
      rw [List.foldl_cons, List.flatMap_cons, List.count_append, ← Nat.add_assoc]
      exact ih _ _ (foldl_counts_inputs _ _ h)
  have h := hloop (List.range inGraphDef.numUnits) (fun _ => 0) 0 rfl
  rw [Nat.zero_add] at h
  exact h

end GraphDef

end PoopWorms.Server
