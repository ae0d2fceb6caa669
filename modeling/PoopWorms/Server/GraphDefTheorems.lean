import PoopWorms.Server.BufferColoring

/-!
# When the buffers of a synth definition are sound

The wires that the inputs and outputs are given, the buffers in the terms of the colours,
and from both the exact condition under which the colouring of a definition is sound.
-/

namespace PoopWorms.Server

open ColorStack

namespace GraphDef

variable {inGraphDef : GraphDef} {c c' : Coloring} {o o' : Output} {u v i n bufLength : ℕ}
  {inputSpec : InputSpec}

/-! ## Wires -/

theorem wire_eq (o : Output) : inGraphDef.wire o = inGraphDef.wire (o.1, 0) + o.2 := by
  unfold wire
  rw [Nat.add_zero]

theorem wire_succ (u : ℕ) : inGraphDef.wire (u + 1, 0) =
    inGraphDef.wire (u, 0) + (inGraphDef.unit u).mOutputSpec.length := by
  unfold wire
  rw [List.range_succ, List.map_append, List.sum_append]
  simp only [List.map_cons, List.map_nil, List.sum_cons, List.sum_nil]
  omega

/-- One input is connected, and all other wires stay. -/
theorem releaseInputBuffer_wires (h : inGraphDef.releaseInputBuffer u c i = some c') :
    c'.outputWireIndex = c.outputWireIndex ∧ c'.wireIndexCtr = c.wireIndexCtr ∧
      (∀ p, p ≠ (u, i) → c'.inputWireIndex p = c.inputWireIndex p) ∧
      ∀ inputSpec, (inGraphDef.unit u).mInputSpec[i]? = some inputSpec →
        inputSpec.mFromUnitIndex ≥ 0 →
        c'.inputWireIndex (u, i) = c.outputWireIndex inputSpec.fromOutput := by
  unfold releaseInputBuffer at h
  cases hinput : (inGraphDef.unit u).mInputSpec[i]? with
  | none =>
    rw [hinput] at h
    cases h
    exact ⟨rfl, rfl, fun _ _ => rfl, nofun⟩
  | some inputSpec =>
    rw [hinput] at h
    dsimp only at h
    split_ifs at h with hwire hrate
    · obtain ⟨a, -, rfl⟩ := Option.map_eq_some_iff.mp h
      refine ⟨rfl, rfl, fun p hp => Function.update_of_ne hp .., ?_⟩
      rintro _ ⟨⟩ -
      exact Function.update_self ..
    · cases h
      refine ⟨rfl, rfl, fun p hp => Function.update_of_ne hp .., ?_⟩
      rintro _ ⟨⟩ -
      exact Function.update_self ..
    · cases h
      refine ⟨rfl, rfl, fun p hp => Function.update_of_ne hp .., ?_⟩
      rintro _ ⟨⟩ hwire'
      exact absurd hwire' hwire

theorem releaseInputBuffers_wires (h : inGraphDef.releaseInputBuffers u c = some c') :
    c'.outputWireIndex = c.outputWireIndex ∧ c'.wireIndexCtr = c.wireIndexCtr ∧
      (∀ p, p.1 ≠ u → c'.inputWireIndex p = c.inputWireIndex p) ∧
      ∀ i inputSpec, (inGraphDef.unit u).mInputSpec[i]? = some inputSpec →
        inputSpec.mFromUnitIndex ≥ 0 →
        c'.inputWireIndex (u, i) = c.outputWireIndex inputSpec.fromOutput := by
  have hloop : ∀ (l : List ℕ) (c : Coloring), l.Nodup →
      l.foldlM (inGraphDef.releaseInputBuffer u) c = some c' →
      c'.outputWireIndex = c.outputWireIndex ∧ c'.wireIndexCtr = c.wireIndexCtr ∧
        (∀ p, (∀ i ∈ l, p ≠ (u, i)) → c'.inputWireIndex p = c.inputWireIndex p) ∧
        ∀ i ∈ l, ∀ inputSpec, (inGraphDef.unit u).mInputSpec[i]? = some inputSpec →
          inputSpec.mFromUnitIndex ≥ 0 →
          c'.inputWireIndex (u, i) = c.outputWireIndex inputSpec.fromOutput := by
    intro l
    induction l with
    | nil =>
      rintro c - h
      cases h
      exact ⟨rfl, rfl, fun _ _ => rfl, nofun⟩
    | cons i l ih =>
      intro c hnodup h
      rw [List.nodup_cons] at hnodup
      rw [List.foldlM_cons] at h
      obtain ⟨c₁, h₁, h⟩ := Option.bind_eq_some_iff.mp h
      obtain ⟨hout₁, hctr₁, hother₁, hin₁⟩ := releaseInputBuffer_wires h₁
      obtain ⟨hout, hctr, hother, hin⟩ := ih c₁ hnodup.2 h
      refine ⟨hout.trans hout₁, hctr.trans hctr₁, ?_, ?_⟩
      · intro p hp
        rw [hother p fun j hj => hp j (by simp [hj]), hother₁ p (hp i (by simp))]
      · intro j hj inputSpec hinput hwire
        rw [List.mem_cons] at hj
        rcases hj with rfl | hj
        · -- the rest of the loop does not come back to this input
          rw [hother, hin₁ inputSpec hinput hwire]
          rintro k hk heq
          obtain rfl := (Prod.mk.inj heq).2
          exact hnodup.1 hk
        · rw [hin j hj inputSpec hinput hwire, hout₁]
  obtain ⟨hout, hctr, hother, hin⟩ :=
    hloop _ c (List.nodup_reverse.mpr List.nodup_range) h
  refine ⟨hout, hctr, ?_, ?_⟩
  · intro p hp
    apply hother
    rintro i - rfl
    exact hp rfl
  · intro i inputSpec hinput hwire
    apply hin i _ inputSpec hinput hwire
    rw [List.mem_reverse, List.mem_range]
    exact (List.getElem?_eq_some_iff.mp hinput).1

theorem allocOutputBuffer_wires (h : inGraphDef.allocOutputBuffer u c i = some c') :
    c'.inputWireIndex = c.inputWireIndex ∧ c'.wireIndexCtr = c.wireIndexCtr + 1 ∧
      c'.outputWireIndex = Function.update c.outputWireIndex (u, i) (int16 c.wireIndexCtr) := by
  unfold allocOutputBuffer at h
  dsimp only at h
  split_ifs at h with hrate
  · obtain ⟨a, -, rfl⟩ := Option.map_eq_some_iff.mp h
    exact ⟨rfl, rfl, rfl⟩
  · cases h
    exact ⟨rfl, rfl, rfl⟩

/-- The outputs of a unit get the next wires, one after the other. -/
theorem allocOutputBuffers_wires (h : inGraphDef.allocOutputBuffers u c = some c') :
    c'.inputWireIndex = c.inputWireIndex ∧
      c'.wireIndexCtr = c.wireIndexCtr + (inGraphDef.unit u).mOutputSpec.length ∧
      (∀ o, o.1 ≠ u → c'.outputWireIndex o = c.outputWireIndex o) ∧
      ∀ i < (inGraphDef.unit u).mOutputSpec.length,
        c'.outputWireIndex (u, i) = int16 (c.wireIndexCtr + i) := by
  have hloop : ∀ (n : ℕ) (c' : Coloring),
      (List.range n).foldlM (inGraphDef.allocOutputBuffer u) c = some c' →
      c'.inputWireIndex = c.inputWireIndex ∧ c'.wireIndexCtr = c.wireIndexCtr + n ∧
        (∀ o, o.1 ≠ u → c'.outputWireIndex o = c.outputWireIndex o) ∧
        ∀ i < n, c'.outputWireIndex (u, i) = int16 (c.wireIndexCtr + i) := by
    intro n
    induction n with
    | zero =>
      rintro c' h
      cases h
      exact ⟨rfl, by simp, fun _ _ => rfl, nofun⟩
    | succ n ih =>
      intro c' h
      rw [List.range_succ, List.foldlM_append] at h
      obtain ⟨c₁, h₁, h⟩ := Option.bind_eq_some_iff.mp h
      rw [List.foldlM_cons] at h
      obtain ⟨c₂, h₂, h⟩ := Option.bind_eq_some_iff.mp h
      cases h
      obtain ⟨hin₁, hctr₁, hother₁, hout₁⟩ := ih c₁ h₁
      obtain ⟨hin, hctr, hout⟩ := allocOutputBuffer_wires h₂
      refine ⟨hin.trans hin₁, by rw [hctr, hctr₁]; push_cast; omega, ?_, ?_⟩
      · intro o ho
        have hne : o ≠ (u, n) := by
          rintro rfl
          exact ho rfl
        rw [hout, Function.update_of_ne hne, hother₁ o ho]
      · intro i hi
        rw [hout]
        rcases Nat.lt_or_eq_of_le (Nat.le_of_lt_succ hi) with hlt | rfl
        · have hne : (u, i) ≠ (u, n) := by
            intro heq
            have := (Prod.mk.inj heq).2
            omega
          rw [Function.update_of_ne hne, hout₁ i hlt]
        · rw [Function.update_self, hctr₁]
  exact hloop _ c' h

/-- The wires of the units before `n`. -/
structure Wired (inGraphDef : GraphDef) (c : Coloring) (n : ℕ) : Prop where
  wireIndexCtr : c.wireIndexCtr = inGraphDef.wire (n, 0)
  output : ∀ o, o.1 < n → o.2 < (inGraphDef.unit o.1).mOutputSpec.length →
    c.outputWireIndex o = int16 (inGraphDef.wire o)
  input : ∀ u < n, ∀ i inputSpec, (inGraphDef.unit u).mInputSpec[i]? = some inputSpec →
    inputSpec.mFromUnitIndex ≥ 0 →
    c.inputWireIndex (u, i) = int16 (inGraphDef.wire inputSpec.fromOutput)

theorem WellFormed.fromOutput_lt (hwf : inGraphDef.WellFormed) (hu : u < inGraphDef.numUnits)
    (hinput : (inGraphDef.unit u).mInputSpec[i]? = some inputSpec)
    (hwire : inputSpec.mFromUnitIndex ≥ 0) :
    inputSpec.fromOutput.1 < u ∧
      inputSpec.fromOutput.2 < (inGraphDef.unit inputSpec.fromOutput.1).mOutputSpec.length := by
  apply hwf.lt_of_mem_inputsOf hu
  exact List.mem_filterMap.mpr ⟨inputSpec, List.mem_of_getElem? hinput, if_pos hwire⟩

/-- Both orders of the two loops of a unit wire it. -/
theorem Wired.succ (hwf : inGraphDef.WellFormed) (hu : u < inGraphDef.numUnits)
    (h : Wired inGraphDef c u) (hstep : inGraphDef.colorUnit c u = some c') :
    Wired inGraphDef c' (u + 1) := by
  have hboth : c'.wireIndexCtr = c.wireIndexCtr + (inGraphDef.unit u).mOutputSpec.length ∧
      (∀ o, o.1 ≠ u → c'.outputWireIndex o = c.outputWireIndex o) ∧
      (∀ i < (inGraphDef.unit u).mOutputSpec.length,
        c'.outputWireIndex (u, i) = int16 (c.wireIndexCtr + i)) ∧
      (∀ p, p.1 ≠ u → c'.inputWireIndex p = c.inputWireIndex p) ∧
      ∀ i inputSpec, (inGraphDef.unit u).mInputSpec[i]? = some inputSpec →
        inputSpec.mFromUnitIndex ≥ 0 →
        c'.inputWireIndex (u, i) = c.outputWireIndex inputSpec.fromOutput := by
    unfold colorUnit at hstep
    split_ifs at hstep
    · obtain ⟨c₁, h₁, h₂⟩ := Option.bind_eq_some_iff.mp hstep
      obtain ⟨hin₁, hctr₁, hother₁, hout₁⟩ := allocOutputBuffers_wires h₁
      obtain ⟨hout, hctr, hother, hin⟩ := releaseInputBuffers_wires h₂
      refine ⟨hctr.trans hctr₁, ?_, ?_, ?_, ?_⟩
      · rw [hout]
        exact hother₁
      · rw [hout]
        exact hout₁
      · intro p hp
        rw [hother p hp, hin₁]
      · intro i inputSpec hinput hwire
        have hlt := (hwf.fromOutput_lt hu hinput hwire).1
        rw [hin i inputSpec hinput hwire, hother₁ _ (by omega)]
    · obtain ⟨c₁, h₁, h₂⟩ := Option.bind_eq_some_iff.mp hstep
      obtain ⟨hout₁, hctr₁, hother₁, hin₁⟩ := releaseInputBuffers_wires h₁
      obtain ⟨hin, hctr, hother, hout⟩ := allocOutputBuffers_wires h₂
      rw [hctr₁] at hctr hout
      rw [hout₁] at hother
      rw [hin]
      exact ⟨hctr, hother, hout, hother₁, hin₁⟩
  obtain ⟨hctr, hother, hout, hotherIn, hin⟩ := hboth
  refine ⟨?_, ?_, ?_⟩
  · rw [hctr, h.wireIndexCtr, wire_succ]
    push_cast
    rfl
  · intro o ho hlen
    by_cases heq : o.1 = u
    · obtain ⟨w, i⟩ := o
      obtain rfl : w = u := heq
      rw [hout i hlen, h.wireIndexCtr, wire_eq (w, i)]
      push_cast
      rfl
    · rw [hother o heq]
      exact h.output o (by omega) hlen
  · intro v hv i inputSpec hinput hwire
    by_cases heq : v = u
    · subst heq
      have hlt := hwf.fromOutput_lt hu hinput hwire
      rw [hin i inputSpec hinput hwire, h.output _ hlt.1 hlt.2]
    · rw [hotherIn (v, i) heq]
      exact h.input v (by omega) i inputSpec hinput hwire

theorem wired_foldlM (hwf : inGraphDef.WellFormed) (hn : n ≤ inGraphDef.numUnits)
    (h : (List.range n).foldlM inGraphDef.colorUnit inGraphDef.uncolored = some c) :
    Wired inGraphDef c n := by
  induction n generalizing c with
  | zero =>
    cases h
    exact ⟨rfl, nofun, nofun⟩
  | succ n ih =>
    rw [List.range_succ, List.foldlM_append] at h
    obtain ⟨c₁, h₁, h⟩ := Option.bind_eq_some_iff.mp h
    rw [List.foldlM_cons] at h
    obtain ⟨c₂, h₂, h⟩ := Option.bind_eq_some_iff.mp h
    cases h
    exact (ih (by omega) h₁).succ hwf (by omega) h₂

/-! ## Colours and live outputs -/

section Colours

variable {s : State Output} (hwf : inGraphDef.WellFormed)
  (h : Colored inGraphDef.timeline [] s)

include hwf h

/-- Outputs that are live at the same time have different colours. -/
theorem colour_ne_of_liveWith (ho : o ∈ inGraphDef.audioOutputs)
    (ho' : o' ∈ inGraphDef.audioOutputs) (hne : o' ≠ o) (hlive : inGraphDef.LiveWith o o') :
    s.colour o' ≠ s.colour o := by
  obtain ⟨pre, post, hcut⟩ := List.append_of_mem (define_mem_timeline.mpr ho)
  apply h.apart pre o post hcut o' hne
  rw [List.append_nil]
  exact (held_iff_liveWith hcut hwf).mpr ⟨ho', hlive⟩

/-- A colour is taken by an output that is live together with outputs of all smaller ones. -/
theorem exists_colour_eq {k : ℕ} (hk : k < s.next) :
    ∃ o ∈ inGraphDef.audioOutputs, s.colour o = k ∧ k < inGraphDef.numLive o ∧
      ∀ j < k, ∃ o' ∈ inGraphDef.audioOutputs,
        o' ≠ o ∧ inGraphDef.LiveWith o o' ∧ s.colour o' = j := by
  obtain ⟨pre, o, post, hcut, hcol, hall⟩ := h.attained k hk
  rw [List.append_nil] at hall
  have ho : o ∈ inGraphDef.audioOutputs := by
    rw [← define_mem_timeline, hcut]
    simp
  have hbelow : ∀ j < k, ∃ o' ∈ inGraphDef.audioOutputs,
      o' ≠ o ∧ inGraphDef.LiveWith o o' ∧ s.colour o' = j := by
    intro j hj
    obtain ⟨o', hne, hheld, hcol'⟩ := hall j hj
    obtain ⟨ho', hlive⟩ := (held_iff_liveWith hcut hwf).mp hheld
    exact ⟨o', ho', hne, hlive, hcol'⟩
  refine ⟨o, ho, hcol, ?_, hbelow⟩
  -- the live outputs have all the colours up to `k`
  have hsub : Finset.range (k + 1) ⊆ ((inGraphDef.audioOutputs.filter fun o' =>
      inGraphDef.LiveWith o o').map s.colour).toFinset := by
    intro j hj
    rw [List.mem_toFinset, List.mem_map]
    rcases Nat.lt_or_eq_of_le (Nat.le_of_lt_succ (Finset.mem_range.mp hj)) with hlt | rfl
    · obtain ⟨o', ho', -, hlive, hcol'⟩ := hbelow j hlt
      exact ⟨o', List.mem_filter.mpr ⟨ho', decide_eq_true hlive⟩, hcol'⟩
    · have hself : inGraphDef.LiveWith o o := .inl ⟨rfl, Nat.le_refl _⟩
      exact ⟨o, List.mem_filter.mpr ⟨ho, decide_eq_true hself⟩, hcol⟩
  have hcard := (Finset.card_le_card hsub).trans (List.toFinset_card_le _)
  rw [Finset.card_range, List.length_map] at hcard
  exact hcard

omit hwf in
theorem colour_lt (ho : o ∈ inGraphDef.audioOutputs) : s.colour o < s.next :=
  h.lt o (define_mem_timeline.mpr ho)

end Colours

/-- There are as many colours as outputs are live at any time. -/
theorem numLive_le_next {s : State Output} {pre mid rest : List (Op Output ℕ)}
    (hwf : inGraphDef.WellFormed) (h : Colored (pre ++ .define o :: mid) rest s)
    (hcut : inGraphDef.timeline = pre ++ .define o :: (mid ++ rest)) :
    inGraphDef.numLive o ≤ s.next := by
  rw [← List.singleton_append, ← List.append_assoc] at h
  apply h.length_le_next (nodup_audioOutputs.filter _)
  intro o' ho'
  rw [List.mem_filter, decide_eq_true_eq] at ho'
  exact (held_iff_liveWith hcut hwf).mpr ho'

/-- The colouring never runs out of colours exactly if the outputs that come before another
one are live with at most `2 ^ 14` outputs. -/
theorem fits_timeline_iff (hwf : inGraphDef.WellFormed) :
    Fits (2 ^ 14) ⟨fun _ => 0, [], 0⟩ inGraphDef.timeline [] ↔
      ∀ o ∈ inGraphDef.audioOutputs, ∀ o' ∈ inGraphDef.audioOutputs,
        (o.1 < o'.1 ∨ o.1 = o'.1 ∧ o.2 < o'.2) → inGraphDef.numLive o ≤ 2 ^ 14 := by
  have hstart : Inv [] inGraphDef.timeline ⟨fun _ => 0, [], 0⟩ :=
    Inv.nil (wellScoped_timeline hwf) _
  -- the colours that are in use at a cut
  have hinv : ∀ pre post, inGraphDef.timeline = pre ++ post →
      Inv pre post (run ⟨fun _ => 0, [], 0⟩ pre post) := by
    intro pre post hcut
    rw [hcut] at hstart
    exact hstart.run
  constructor
  · intro hfits o ho o' ho' hlt
    obtain ⟨pre, post, hcut⟩ := List.append_of_mem (define_mem_timeline.mpr ho')
    rw [hcut] at hfits
    have hnext := next_le_of_fits hfits
    rw [List.append_nil] at hnext
    -- the earlier output is before the cut
    have hmem : .define o ∈ pre := by
      have hline := define_mem_timeline.mpr ho
      rw [hcut, List.mem_append, List.mem_cons] at hline
      rcases hline with hmem | heq | hmem
      · exact hmem
      · cases heq
        omega
      · rcases (before_of_cut hcut).2 _ hmem with h | ⟨h, h'⟩ <;> omega
    obtain ⟨l, mid, rfl⟩ := List.append_of_mem hmem
    have hcolored := (hinv _ _ hcut).toColored
    apply (numLive_le_next hwf hcolored _).trans hnext
    rw [hcut]
    simp
  · intro hall
    apply fits_of_cuts
    intro pre o' post hcut
    rw [List.append_nil]
    by_contra hmore
    have hcolored := (hinv _ _ hcut).toColored
    obtain ⟨l, o, mid, rfl, hcol, hlt⟩ := hcolored.lt_length (Nat.lt_of_not_le hmore)
    have hcut' : inGraphDef.timeline = l ++ .define o :: (mid ++ .define o' :: post) := by
      rw [hcut]
      simp
    have ho : o ∈ inGraphDef.audioOutputs := by
      rw [← define_mem_timeline, hcut']
      simp
    have ho' : o' ∈ inGraphDef.audioOutputs := by
      rw [← define_mem_timeline, hcut]
      simp
    have hbefore : o.1 < o'.1 ∨ o.1 = o'.1 ∧ o.2 < o'.2 :=
      (before_of_cut hcut').2 (.define o') (by simp)
    have hle := hall o ho o' ho' hbefore
    have hself : inGraphDef.LiveWith o o := .inl ⟨rfl, Nat.le_refl _⟩
    have hnum : 2 ^ 14 < inGraphDef.numLive o := by
      apply hlt
      · exact List.mem_filter.mpr ⟨ho, decide_eq_true hself⟩
      · intro x hx
        obtain ⟨hx, hlive⟩ := (held_iff_liveWith hcut' hwf).mp hx
        exact List.mem_filter.mpr ⟨hx, decide_eq_true hlive⟩
    omega

/-! ## When the colouring is sound -/

/-- All that the `int16` fields have to count is in their range. -/
structure InRange (inGraphDef : GraphDef) (bufLength : ℕ) : Prop where
  offset : ∀ o ∈ inGraphDef.audioOutputs, (inGraphDef.numLive o - 1) * bufLength < 2 ^ 15
  colour : ∀ o ∈ inGraphDef.audioOutputs, ∀ o' ∈ inGraphDef.audioOutputs,
    (o.1 < o'.1 ∨ o.1 = o'.1 ∧ o.2 < o'.2) → inGraphDef.numLive o ≤ 2 ^ 14
  wire : ∀ u, inGraphDef.Calculated u → ∀ o ∈ inGraphDef.inputsOf u,
    inGraphDef.outputRate o = .fullRate → inGraphDef.wire o < 2 ^ 15

/-- The result of the colouring in the terms of the colours. -/
structure Result (inGraphDef : GraphDef) (bufLength : ℕ) (c : Coloring) (s : State Output) :
    Prop where
  colored : Colored inGraphDef.timeline [] s
  wired : Wired inGraphDef c inGraphDef.numUnits
  mBufferIndex : ∀ o ∈ inGraphDef.audioOutputs,
    c.mBufferIndex o = int16 (s.colour o * bufLength : ℕ)
  nextIndex : c.bufColor.nextIndex = s.next

theorem doBufferColoring_cases (hwf : inGraphDef.WellFormed)
    (hreaders : ∀ o, inGraphDef.numReaders o < 2 ^ 15) :
    (inGraphDef.doBufferColoring bufLength = none ∧
        ¬ Fits (2 ^ 14) ⟨fun _ => 0, [], 0⟩ inGraphDef.timeline []) ∨
      ∃ c s, inGraphDef.doBufferColoring bufLength = some c ∧
        Fits (2 ^ 14) ⟨fun _ => 0, [], 0⟩ inGraphDef.timeline [] ∧
        Result inGraphDef bufLength c s := by
  have houtcome := foldlM_colorUnit_outcome hreaders hwf
  unfold doBufferColoring
  cases hfold : (List.range inGraphDef.numUnits).foldlM inGraphDef.colorUnit
    inGraphDef.uncolored with
  | none =>
    rw [hfold] at houtcome
    exact .inl ⟨rfl, houtcome⟩
  | some c =>
    rw [hfold] at houtcome
    obtain ⟨hfits, hfollows⟩ := houtcome
    have hwired := wired_foldlM hwf (Nat.le_refl _) hfold
    refine .inr ⟨_, _, rfl, hfits, hfollows.inv.toColored, ⟨hwired.1, hwired.2, hwired.3⟩, ?_,
      hfollows.nextIndex⟩
    intro o ho
    have hrate := (mem_audioOutputsOf.mp (mem_audioOutputs.mp ho).2).2.2
    have hdef := hfollows.buffer o (define_mem_timeline.mpr ho)
    show (if inGraphDef.outputRate o = .fullRate then int16 (c.mBufferIndex o * bufLength)
      else c.mBufferIndex o) = _
    rw [if_pos hrate, hdef]
    push_cast
    rfl

theorem int16_lt (x : ℤ) : int16 x < 2 ^ 15 := by
  have h := Int.bmod_lt (x := x) (m := 2 ^ 16) (by decide)
  unfold int16
  omega

/-- What is read later stays live while other outputs are written. -/
theorem liveWith_of_mem_inputsOf (hu : u < inGraphDef.numUnits) (ho : o ∈ inGraphDef.inputsOf u)
    (hlt : o.1 < o'.1) (hlater : o'.1 < u ∨ o'.1 = u ∧ (inGraphDef.unit u).cantAlias) :
    inGraphDef.LiveWith o' o := by
  refine .inr ⟨hlt, .inl ⟨u, hu, ho, ?_⟩⟩
  rcases hlater with h | ⟨h, halias⟩
  · exact .inl h
  · exact .inr ⟨h, h ▸ halias⟩

/-- A buffer that no other output of the units from its own up to `u` shares a place with
holds what its producer wrote. -/
theorem lastWriter_eq {mBufferIndex : Output → ℤ} {a : ℤ} (ho : o ∈ inGraphDef.audioOutputs)
    (ha : InBuffer bufLength (mBufferIndex o) a) (hou : o.1 < u)
    (hother : ∀ v, o.1 ≤ v → v < u → ∀ o' ∈ inGraphDef.audioOutputsOf v, o' ≠ o →
      ¬ InBuffer bufLength (mBufferIndex o') a) :
    inGraphDef.lastWriter bufLength mBufferIndex u a = some o := by
  induction u with
  | zero => exact absurd hou (Nat.not_lt_zero _)
  | succ v ih =>
    rw [lastWriter]
    by_cases hv : o.1 = v
    · have hfind : ((inGraphDef.audioOutputsOf v).find? fun o' =>
          InBuffer bufLength (mBufferIndex o') a) = some o := by
        obtain ⟨o', hfind⟩ : ∃ o', ((inGraphDef.audioOutputsOf v).find? fun o' =>
            InBuffer bufLength (mBufferIndex o') a) = some o' := by
          apply Option.isSome_iff_exists.mp
          rw [List.find?_isSome]
          exact ⟨o, hv ▸ (mem_audioOutputs.mp ho).2, decide_eq_true ha⟩
        rw [hfind]
        by_contra hne
        have hin := List.find?_some hfind
        apply hother v (by omega) (by omega) o' (List.mem_of_find?_eq_some hfind)
        · rintro rfl
          exact hne rfl
        · exact of_decide_eq_true hin
      rw [hfind]
      rfl
    · have hfind : ((inGraphDef.audioOutputsOf v).find? fun o' =>
          InBuffer bufLength (mBufferIndex o') a) = none := by
        apply List.find?_eq_none.mpr
        intro o' ho' hin
        apply hother v (by omega) (by omega) o' ho' _ (of_decide_eq_true hin)
        rintro rfl
        exact hv (mem_audioOutputsOf.mp ho').1
      rw [hfind]
      exact ih (by omega) fun w hw hwv => hother w hw (by omega)

/-- Buffers of different colours share no place, when the offsets are in range. -/
theorem not_inBuffer_of_ne {j k : ℕ} {a : ℤ} (hne : j ≠ k)
    (ha : InBuffer bufLength (j * bufLength : ℕ) a) :
    ¬ InBuffer bufLength (k * bufLength : ℕ) a := by
  unfold InBuffer at ha ⊢
  rcases Nat.lt_or_gt_of_ne hne with h | h
  · have hle : (j + 1) * bufLength ≤ k * bufLength := Nat.mul_le_mul_right _ h
    rw [Nat.add_mul, Nat.one_mul] at hle
    omega
  · have hle : (k + 1) * bufLength ≤ j * bufLength := Nat.mul_le_mul_right _ h
    rw [Nat.add_mul, Nat.one_mul] at hle
    omega

namespace Result

variable {s : State Output}

theorem mul_lt (hwf : inGraphDef.WellFormed) (h : Result inGraphDef bufLength c s)
    (hrange : inGraphDef.InRange bufLength) (ho : o ∈ inGraphDef.audioOutputs) :
    s.colour o * bufLength < 2 ^ 15 := by
  obtain ⟨o', ho', -, hlt, -⟩ := exists_colour_eq hwf h.colored (colour_lt h.colored ho)
  have hle : s.colour o * bufLength ≤ (inGraphDef.numLive o' - 1) * bufLength :=
    Nat.mul_le_mul_right _ (by omega)
  exact Nat.lt_of_le_of_lt hle (hrange.offset o' ho')

theorem sound (hwf : inGraphDef.WellFormed) (h : Result inGraphDef bufLength c s)
    (hrange : inGraphDef.InRange bufLength) : inGraphDef.Sound bufLength c := by
  have hbuffer : ∀ o ∈ inGraphDef.audioOutputs,
      c.mBufferIndex o = (s.colour o * bufLength : ℕ) := by
    intro o ho
    rw [h.mBufferIndex o ho]
    exact int16_of_lt (by omega) (by exact_mod_cast h.mul_lt hwf hrange ho)
  have hdisjoint : ∀ o ∈ inGraphDef.audioOutputs, ∀ o' ∈ inGraphDef.audioOutputs, o' ≠ o →
      inGraphDef.LiveWith o o' → ∀ a, InBuffer bufLength (c.mBufferIndex o) a →
      ¬ InBuffer bufLength (c.mBufferIndex o') a := by
    intro o ho o' ho' hne hlive a ha
    rw [hbuffer o ho] at ha
    rw [hbuffer o' ho']
    exact not_inBuffer_of_ne (colour_ne_of_liveWith hwf h.colored ho ho' hne hlive).symm ha
  refine ⟨?_, ?_, hdisjoint, ?_, ?_⟩
  · intro u hu i inputSpec hinput hwire hrate
    rw [h.wired.input u hu.1 i inputSpec hinput hwire]
    have hmem : inputSpec.fromOutput ∈ inGraphDef.inputsOf u :=
      List.mem_filterMap.mpr ⟨inputSpec, List.mem_of_getElem? hinput, if_pos hwire⟩
    exact int16_of_lt (by omega) (by exact_mod_cast hrange.wire u hu _ hmem hrate)
  · intro u hu o hin hrate a ha
    have ho := hwf.mem_audioOutputs hu.1 hin hrate
    have hou := (hwf.lt_of_mem_inputsOf hu.1 hin).1
    apply lastWriter_eq ho ha hou
    intro v hv hvu o' ho' hne ha'
    have hov := (mem_audioOutputsOf.mp ho').1
    have ho'' : o' ∈ inGraphDef.audioOutputs :=
      GraphDef.mem_audioOutputs.mpr ⟨by rw [hov]; exact hvu.trans hu.1, hov.symm ▸ ho'⟩
    rcases Nat.lt_or_eq_of_le hv with hlt | heq
    · have hlive : inGraphDef.LiveWith o' o :=
        liveWith_of_mem_inputsOf hu.1 hin (by omega) (.inl (by omega))
      exact hdisjoint o' ho'' o ho hne.symm hlive a ha' ha
    · -- two outputs of one unit
      rcases Nat.le_total o'.2 o.2 with hle | hle
      · exact hdisjoint o ho o' ho'' hne (.inl ⟨by omega, hle⟩) a ha ha'
      · exact hdisjoint o' ho'' o ho hne.symm (.inl ⟨by omega, hle⟩) a ha' ha
  · intro u hu halias o ho o' hin hrate a ha
    have hou := (mem_audioOutputsOf.mp ho).1
    have hlt := (hwf.lt_of_mem_inputsOf hu hin).1
    have ho₁ : o ∈ inGraphDef.audioOutputs :=
      GraphDef.mem_audioOutputs.mpr ⟨by rw [hou]; exact hu, hou.symm ▸ ho⟩
    have hlive : inGraphDef.LiveWith o o' :=
      liveWith_of_mem_inputsOf hu hin (by omega) (.inr ⟨hou, halias⟩)
    apply hdisjoint o ho₁ o' (hwf.mem_audioOutputs hu hin hrate) _ hlive a ha
    rintro rfl
    omega
  · intro o ho
    rw [hbuffer o ho, h.nextIndex]
    have hle : (s.colour o + 1) * bufLength ≤ s.next * bufLength :=
      Nat.mul_le_mul_right _ (colour_lt h.colored ho)
    rw [Nat.add_mul, Nat.one_mul] at hle
    exact ⟨by omega, by exact_mod_cast hle⟩

/-- In a sound colouring every offset is in range: the smallest one that is not would be
negative, or in the middle of the first buffer. -/
theorem offset_of_sound (hwf : inGraphDef.WellFormed) (h : Result inGraphDef bufLength c s)
    (hsound : inGraphDef.Sound bufLength c) :
    ∀ k < s.next, k * bufLength < 2 ^ 15 := by
  intro k
  induction k with
  | zero => simp
  | succ k ih =>
    intro hk
    have hprev := ih (by omega)
    obtain ⟨o, ho, hcol, -, hbelow⟩ := exists_colour_eq hwf h.colored hk
    have hindex := h.mBufferIndex o ho
    rw [hcol] at hindex
    have hpos := (hsound.bounded o ho).1
    by_contra hlarge
    rw [Nat.add_mul, Nat.one_mul] at hlarge hindex
    by_cases hblock : bufLength ≤ 2 ^ 15
    · -- one step over the range
      have hwrap : int16 (k * bufLength + bufLength : ℕ) < 0 := by
        unfold int16
        rw [Int.bmod_def]
        omega
      omega
    · obtain rfl : k = 0 := by
        by_contra hne
        have hle : 1 * bufLength ≤ k * bufLength := Nat.mul_le_mul_right _ (by omega)
        omega
      obtain ⟨o', ho', hne, hlive, hcol'⟩ := hbelow 0 (by omega)
      have hindex' := h.mBufferIndex o' ho'
      rw [hcol', Nat.zero_mul] at hindex'
      have hlt := int16_lt (0 * bufLength + bufLength : ℕ)
      have hzero : int16 ((0 : ℕ) : ℤ) = 0 := by decide
      apply hsound.disjoint o ho o' ho' hne hlive (c.mBufferIndex o)
      · exact ⟨le_refl _, by omega⟩
      · rw [hindex', hzero, hindex]
        rw [hindex] at hpos
        exact ⟨hpos, by omega⟩

theorem inRange (hwf : inGraphDef.WellFormed) (h : Result inGraphDef bufLength c s)
    (hfits : Fits (2 ^ 14) ⟨fun _ => 0, [], 0⟩ inGraphDef.timeline [])
    (hsound : inGraphDef.Sound bufLength c) : inGraphDef.InRange bufLength := by
  refine ⟨?_, (fits_timeline_iff hwf).mp hfits, ?_⟩
  · intro o ho
    obtain ⟨pre, post, hcut⟩ := List.append_of_mem (define_mem_timeline.mpr ho)
    have hcolored := h.colored
    rw [hcut] at hcolored
    have hnum := numLive_le_next hwf hcolored (by rw [hcut, List.append_nil])
    have hself : o ∈ inGraphDef.audioOutputs.filter fun o' => inGraphDef.LiveWith o o' := by
      have hlive : inGraphDef.LiveWith o o := .inl ⟨rfl, Nat.le_refl _⟩
      exact List.mem_filter.mpr ⟨ho, decide_eq_true hlive⟩
    have hpos : 0 < inGraphDef.numLive o := List.length_pos_of_mem hself
    exact h.offset_of_sound hwf hsound _ (by omega)
  · intro u hu o hin hrate
    obtain ⟨inputSpec, hmem, hfrom⟩ := List.mem_filterMap.mp hin
    split_ifs at hfrom with hwire
    · cases hfrom
      obtain ⟨i, hi, rfl⟩ := List.getElem_of_mem hmem
      have hinput := List.getElem?_eq_getElem hi
      have hconnected := hsound.connected u hu i _ hinput hwire hrate
      have hlt := int16_lt (inGraphDef.wire (((inGraphDef.unit u).mInputSpec[i]).fromOutput))
      rw [← h.wired.input u hu.1 i _ hinput hwire, hconnected] at hlt
      exact_mod_cast hlt

end Result

/-- The colouring of a definition succeeds and is sound exactly if all that the `int16`
fields count is in their range. -/
theorem doBufferColoring_sound_iff (hwf : inGraphDef.WellFormed)
    (hreaders : ∀ o, inGraphDef.numReaders o < 2 ^ 15) (bufLength : ℕ) :
    (∃ c, inGraphDef.doBufferColoring bufLength = some c ∧ inGraphDef.Sound bufLength c) ↔
      inGraphDef.InRange bufLength := by
  have hcases : (inGraphDef.doBufferColoring bufLength = none ∧ _) ∨ _ :=
    doBufferColoring_cases hwf hreaders
  rcases hcases with ⟨hnone, hfits⟩ | ⟨c, s, hsome, hfits, hresult⟩
  · rw [hnone]
    constructor
    · rintro ⟨c, ⟨⟩, -⟩
    · intro hrange
      exact absurd ((fits_timeline_iff hwf).mpr hrange.colour) hfits
  · rw [hsome]
    constructor
    · rintro ⟨_, ⟨⟩, hsound⟩
      exact hresult.inRange hwf hfits hsound
    · intro hrange
      exact ⟨c, rfl, hresult.sound hwf hrange⟩

instance : Decidable inGraphDef.WellFormed :=
  decidable_of_iff (_ ∧ _) ⟨fun h => ⟨h.1, h.2⟩, fun h => ⟨h.1, h.2⟩⟩

/-- A definition with an `In` unit of `n` channels and an `Out` unit that reads them. -/
def inOut (n : ℕ) : GraphDef where
  mNumConstants := 1
  mUnitSpecs :=
    [⟨.fullRate, false, [⟨-1, 0⟩], List.replicate n .fullRate⟩,
      ⟨.fullRate, false, ⟨-1, 0⟩ :: (List.range n).map fun i : ℕ => ⟨0, i⟩, []⟩]

theorem numReaders_lt (o : Output)
    (hlt : ((List.range inGraphDef.numUnits).flatMap inGraphDef.inputsOf).length < 2 ^ 15) :
    inGraphDef.numReaders o < 2 ^ 15 := List.count_le_length.trans_lt hlt

theorem doBufferColoring_sound_iff_inOut :
    ∃ c, (inOut 4).doBufferColoring 1024 = some c ∧ (inOut 4).Sound 1024 c := by
  apply (doBufferColoring_sound_iff (by decide) (fun o => numReaders_lt o (by decide)) 1024).mpr
  have hwires : ∀ u < (inOut 4).numUnits, ∀ o ∈ (inOut 4).inputsOf u,
      (inOut 4).wire o < 2 ^ 15 := by decide
  exact ⟨by decide, by decide, fun u hu o ho _ => hwires u hu.1 o ho⟩

/-- With blocks of 1024 samples the last of 33 channels is given a negative place. -/
theorem not_sound_inOut : (inOut 33).WellFormed ∧ (∀ o, (inOut 33).numReaders o < 2 ^ 15) ∧
    ∃ c, (inOut 33).doBufferColoring 1024 = some c ∧ c.bufColor.nextIndex = 33 ∧
      ¬ (inOut 33).Sound 1024 c := by
  have hrun : ((inOut 33).doBufferColoring 1024).map (fun c =>
      (c.mBufferIndex (0, 32), c.bufColor.nextIndex)) = some (-32768, 33) := by decide +kernel
  obtain ⟨c, hc, hvalues⟩ := Option.map_eq_some_iff.mp hrun
  obtain ⟨hindex, hnext⟩ := Prod.mk.inj hvalues
  refine ⟨by decide +kernel, fun o => numReaders_lt o (by decide), c, hc, hnext, ?_⟩
  intro hsound
  have hpos := (hsound.bounded (0, 32) (by decide)).1
  rw [hindex] at hpos
  omega

end GraphDef

end PoopWorms.Server
