import PoopWorms.Server.Timeline
import Mathlib.Tactic.NormNum
import Mathlib.Tactic.Positivity

/-!
# Buffer colouring

`BufColorAllocator` follows `ColorStack` along the timeline of a definition, up to the
sizes that its `int16` fields can count: once more than `2 ^ 14` colours are in use, the
next allocation fails. From this, when the colouring of a definition is sound.
-/

namespace PoopWorms.Server

open ColorStack

namespace GraphDef

variable {inGraphDef : GraphDef} {a : BufColorAllocator} {mBufferIndex : Output → ℤ}
  {s : State Output} {done rest : List (Op Output ℕ)} {o o' : Output} {u w : ℕ}

/-! ## The allocator -/

/-- The fields of the allocator stand for the colours of the outputs that are held. -/
structure Follows (inGraphDef : GraphDef) (a : BufColorAllocator) (mBufferIndex : Output → ℤ)
    (s : State Output) (done rest : List (Op Output ℕ)) : Prop where
  inv : Inv done rest s
  whole : done ++ rest = inGraphDef.timeline
  stack : a.stack = s.free.map Nat.cast
  nextIndex : a.nextIndex = s.next
  refs : ∀ o, Held done rest o → a.refs (s.colour o) = uses o rest
  refsMaxSize : (s.next ≤ 2 ^ 14 ∧ ∃ k ≤ 14, a.refsMaxSize = 2 ^ k ∧ s.next ≤ 2 ^ k) ∨
    s.next = 2 ^ 14 + 1 ∧ a.refsMaxSize = -2 ^ 15
  stackMaxSize : (∃ k ≤ 14, a.stackMaxSize = 2 ^ k ∧ s.free.length ≤ 2 ^ k) ∨
    s.free.length = 2 ^ 14 + 1
  buffer : ∀ o, .define o ∈ done → mBufferIndex o = s.colour o

theorem grow_two_pow {k : ℕ} (hk : k < 14) :
    BufColorAllocator.grow (2 ^ k) = some (2 ^ (k + 1)) := by
  have hpos : (0 : ℤ) < 2 ^ k := by positivity
  have hle : (2 : ℤ) ^ (k + 1) ≤ 2 ^ 14 := pow_le_pow_right₀ (by norm_num) (by omega)
  rw [BufColorAllocator.grow, if_neg (by omega), ← pow_succ, int16_of_lt (by positivity) (by omega)]

/-- Doubling the largest size leaves the range of `int16`. -/
theorem grow_two_pow_14 : BufColorAllocator.grow (2 ^ 14) = some (-2 ^ 15) := by decide

theorem free_length_le (h : Inv done rest s) : s.free.length ≤ s.next := by
  have hsub : s.free.toFinset ⊆ Finset.range s.next := by
    intro c hc
    exact Finset.mem_range.mpr (h.free_lt c (List.mem_toFinset.mp hc))
  have hcard := Finset.card_le_card hsub
  rwa [List.toFinset_card_of_nodup h.free_nodup, Finset.card_range] at hcard

/-- A held colour is not free, so not all colours are. -/
theorem free_length_lt (h : Inv done rest s) (ho : Held done rest o) :
    s.free.length < s.next := by
  have hnodup : (s.colour o :: s.free).Nodup := List.nodup_cons.mpr ⟨h.not_free ho, h.free_nodup⟩
  have hsub : (s.colour o :: s.free).toFinset ⊆ Finset.range s.next := by
    intro c hc
    rw [List.mem_toFinset, List.mem_cons] at hc
    rcases hc with rfl | hc
    · exact Finset.mem_range.mpr (h.lt o ho.1)
    · exact Finset.mem_range.mpr (h.free_lt c hc)
  have hcard := Finset.card_le_card hsub
  rwa [List.toFinset_card_of_nodup hnodup, Finset.card_range, List.length_cons] at hcard

namespace Follows

/-- When an output is given its buffer, all its readers are still to come. -/
theorem mNumConsumers_eq_uses (h : Follows inGraphDef a mBufferIndex s done (.define o :: rest))
    (hreaders : ∀ o, inGraphDef.numReaders o < 2 ^ 15) :
    inGraphDef.mNumConsumers o = uses o rest := by
  have hline : .define o ∈ inGraphDef.timeline := by
    rw [← h.whole]
    simp
  have hrate := (mem_audioOutputsOf.mp (mem_audioOutputs.mp (define_mem_timeline.mp hline)).2).2.2
  have hunused := h.inv.uses_eq_zero h.inv.not_mem_define
  have huses := uses_timeline hrate
  rw [← h.whole, uses_append, uses_define, hunused, Nat.zero_add] at huses
  rw [mNumConsumers_eq, huses, int16_of_lt (by omega) (by exact_mod_cast hreaders o)]

/-- An allocation fails when more than `2 ^ 14` colours are in use. -/
theorem alloc_eq_none (h : Follows inGraphDef a mBufferIndex s done rest)
    (hfull : 2 ^ 14 < s.next) (count : ℤ) : a.alloc count = none := by
  rcases h.refsMaxSize with ⟨hle, -⟩ | ⟨-, hmax⟩
  · omega
  · have hgrow : BufColorAllocator.grow (-2 ^ 15) = none := by decide
    unfold BufColorAllocator.alloc
    cases hstack : a.stack with
    | nil =>
      dsimp only
      rw [hmax, h.nextIndex, if_pos (by omega), hgrow]
      rfl
    | cons outIndex stack =>
      have hmem : outIndex ∈ a.stack := by simp [hstack]
      rw [h.stack, List.mem_map] at hmem
      obtain ⟨c, -, rfl⟩ := hmem
      dsimp only
      rw [hmax, if_pos (by omega), hgrow]
      rfl

/-- The fields after an allocation that gives `o` the colour `k`. -/
theorem define_with (h : Follows inGraphDef a mBufferIndex s done (.define o :: rest))
    {k next : ℕ} {free : List ℕ} {refsMaxSize : ℤ}
    (hstep : step rest s (.define o) = ⟨Function.update s.colour o k, free, next⟩)
    (hk : k < 2 ^ 15)
    (hrefs : (next ≤ 2 ^ 14 ∧ ∃ k ≤ 14, refsMaxSize = 2 ^ k ∧ next ≤ 2 ^ k) ∨
      next = 2 ^ 14 + 1 ∧ refsMaxSize = -2 ^ 15)
    (hstack : ∃ k ≤ 14, a.stackMaxSize = 2 ^ k ∧ free.length ≤ 2 ^ k) :
    Follows inGraphDef
      { refs := Function.update a.refs k (uses o rest : ℤ)
        stack := free.map Nat.cast
        nextIndex := next
        refsMaxSize := refsMaxSize
        stackMaxSize := a.stackMaxSize }
      (Function.update mBufferIndex o (int16 k)) (step rest s (.define o))
      (done ++ [.define o]) rest := by
  have hinv := h.inv.define
  have hnew := h.inv.not_mem_define
  have hunused := h.inv.uses_eq_zero hnew
  rw [hstep] at hinv ⊢
  refine ⟨hinv, ?_, rfl, rfl, ?_, hrefs, .inl hstack, ?_⟩
  · rw [← h.whole]
    simp
  · intro o' hheld
    by_cases ho : o' = o
    · subst ho
      simp only [Function.update_self]
    · have hbefore := ((held_define_iff hnew hunused).mp hheld).resolve_left ho
      have hother : (s.colour o' : ℤ) ≠ k := by
        intro heq
        apply ho
        apply hinv.inj hheld ((held_define_iff hnew hunused).mpr (.inl rfl))
        show Function.update s.colour o k o' = Function.update s.colour o k o
        rw [Function.update_of_ne ho, Function.update_self]
        exact_mod_cast heq
      simp only [Function.update_of_ne ho, Function.update_of_ne hother]
      rw [h.refs o' hbefore.2, uses_define]
  · intro o' hmem
    rw [List.mem_append, List.mem_singleton] at hmem
    rcases hmem with hmem | heq
    · have ho : o' ≠ o := by
        rintro rfl
        exact hnew hmem
      simp only [Function.update_of_ne ho]
      exact h.buffer o' hmem
    · cases heq
      simp only [Function.update_self]
      exact int16_of_lt (by omega) (by exact_mod_cast hk)

/-- Otherwise it gives the output the colour that `ColorStack` gives it. -/
theorem alloc (h : Follows inGraphDef a mBufferIndex s done (.define o :: rest))
    (hreaders : ∀ o, inGraphDef.numReaders o < 2 ^ 15) (hroom : s.next ≤ 2 ^ 14) :
    ∃ a' outIndex, a.alloc (inGraphDef.mNumConsumers o) = some (a', outIndex) ∧
      Follows inGraphDef a' (Function.update mBufferIndex o (int16 outIndex))
        (step rest s (.define o)) (done ++ [.define o]) rest := by
  obtain ⟨-, j, hj, hmax, hle⟩ := h.refsMaxSize.resolve_right (by omega)
  have hfreeLe := free_length_le h.inv
  obtain ⟨i, hi, hstackMax, hlen⟩ := h.stackMaxSize.resolve_right (by omega)
  have hcast : ((2 ^ j : ℕ) : ℤ) = 2 ^ j := by push_cast; rfl
  rw [h.mNumConsumers_eq_uses hreaders]
  unfold BufColorAllocator.alloc
  rw [h.stack]
  cases hfree : s.free with
  | nil =>
    have hstep : step rest s (.define o) =
        ⟨Function.update s.colour o s.next, [], s.next + 1⟩ := by
      simp only [step, hfree]
    have hnext : int16 (s.next + 1) = (s.next + 1 : ℕ) := int16_of_lt (by omega) (by omega)
    simp only [List.map_nil, h.nextIndex, hmax, hnext]
    clear hnext
    by_cases hfull : s.next = 2 ^ j
    · -- the new colour needs a longer array of counts
      rw [if_pos (by omega)]
      rcases Nat.lt_or_eq_of_le hj with hlt | rfl
      · rw [grow_two_pow hlt]
        refine ⟨_, _, rfl, h.define_with hstep (by omega) (.inl ⟨?_, j + 1, hlt, rfl, ?_⟩)
          ⟨i, hi, hstackMax, Nat.zero_le _⟩⟩
        · have hdouble : 2 ^ (j + 1) ≤ 2 ^ 14 := Nat.pow_le_pow_right (by omega) hlt
          have hpos : 0 < 2 ^ j := Nat.two_pow_pos j
          omega
        · have hpos : 0 < 2 ^ j := Nat.two_pow_pos j
          omega
      · rw [grow_two_pow_14]
        exact ⟨_, _, rfl, h.define_with hstep (by omega) (.inr ⟨by omega, rfl⟩)
          ⟨i, hi, hstackMax, Nat.zero_le _⟩⟩
    · rw [if_neg (by omega)]
      have hpow : 2 ^ j ≤ 2 ^ 14 := Nat.pow_le_pow_right (by omega) hj
      exact ⟨_, _, rfl, h.define_with hstep (by omega) (.inl ⟨by omega, j, hj, rfl, by omega⟩)
        ⟨i, hi, hstackMax, Nat.zero_le _⟩⟩
  | cons k free =>
    have hstep : step rest s (.define o) = ⟨Function.update s.colour o k, free, s.next⟩ := by
      simp only [step, hfree]
    have hk : k < s.next := h.inv.free_lt k (by rw [hfree]; simp)
    rw [hfree, List.length_cons] at hlen
    simp only [List.map_cons, hmax, h.nextIndex]
    rw [if_neg (by omega)]
    exact ⟨_, _, rfl, h.define_with hstep (by omega) (.inl ⟨hroom, j, hj, rfl, hle⟩)
      ⟨i, hi, hstackMax, by omega⟩⟩

/-- A release never fails, and frees the colour after the last use. -/
theorem release (h : Follows inGraphDef a mBufferIndex s done (.use o w :: rest))
    (hreaders : ∀ o, inGraphDef.numReaders o < 2 ^ 15) :
    ∃ a', a.release (mBufferIndex o) = some a' ∧
      Follows inGraphDef a' mBufferIndex (step rest s (.use o w)) (done ++ [.use o w]) rest := by
  have hinv := h.inv.use
  obtain ⟨seen, hseen, ho, -⟩ := h.inv.scope
  have hdef := (hseen o).mp ho
  have huses : uses o (.use o w :: rest) = uses o rest + 1 := by
    rw [uses_use, if_pos rfl]
  have hheld : Held done (.use o w :: rest) o := ⟨hdef, .inl (by omega)⟩
  have hrefs := h.refs o hheld
  have hlt := free_length_lt h.inv hheld
  have hnext : s.next ≤ 2 ^ 14 + 1 := by
    rcases h.refsMaxSize with ⟨hle, -⟩ | ⟨heq, -⟩ <;> omega
  have hwhole : (done ++ [.use o w]) ++ rest = inGraphDef.timeline := by
    rw [← h.whole]
    simp
  have hrate : inGraphDef.outputRate o = .fullRate := by
    have hline : .define o ∈ inGraphDef.timeline := by
      rw [← h.whole]
      exact List.mem_append_left _ hdef
    exact (mem_audioOutputsOf.mp (mem_audioOutputs.mp (define_mem_timeline.mp hline)).2).2.2
  have hcount : int16 (uses o rest + 1 - 1) = uses o rest := by
    have htotal := uses_timeline hrate
    have hbound := hreaders o
    rw [← hwhole, uses_append] at htotal
    rw [add_sub_cancel_right]
    exact int16_of_lt (by omega) (by omega)
  have hothers : ∀ o', Held (done ++ [.use o w]) rest o' →
      Function.update a.refs (s.colour o) (uses o rest : ℤ) (s.colour o') = uses o' rest := by
    intro o' hheld'
    have hbefore := held_use hheld'
    by_cases heq : o' = o
    · subst heq
      rw [Function.update_self]
    · have hother : (s.colour o' : ℤ) ≠ s.colour o := by
        intro hcol
        exact heq (h.inv.inj hbefore hheld (by exact_mod_cast hcol))
      rw [Function.update_of_ne hother, h.refs o' hbefore, uses_use, if_neg (Ne.symm heq),
        Nat.add_zero]
  have hbuffer : ∀ o', .define o' ∈ done ++ [.use o w] → mBufferIndex o' = s.colour o' := by
    intro o' hmem
    exact h.buffer o' (by simpa using hmem)
  unfold BufColorAllocator.release
  rw [h.buffer o hdef, hrefs, huses, if_neg (by omega)]
  push_cast
  simp only [hcount, Nat.cast_eq_zero]
  by_cases hlast : uses o rest = 0
  · have hstep : step rest s (.use o w) = ⟨s.colour, s.colour o :: s.free, s.next⟩ := by
      simp only [step, if_pos hlast]
    rw [hstep] at hinv ⊢
    rw [if_pos hlast]
    -- before the last use there is room for one more free colour
    obtain ⟨i, hi, hstackMax, hlen⟩ := h.stackMaxSize.resolve_right (by omega)
    have hcast : ((2 ^ i : ℕ) : ℤ) = 2 ^ i := by push_cast; rfl
    have hstackLen : a.stack.length = s.free.length := by
      rw [h.stack, List.length_map]
    have hstack' : (s.colour o : ℤ) :: a.stack = (s.colour o :: s.free).map Nat.cast := by
      rw [List.map_cons, h.stack]
    simp only [hstackMax, hstackLen]
    by_cases hfull : s.free.length = 2 ^ i
    · rw [if_pos (by omega)]
      rcases Nat.lt_or_eq_of_le hi with hi' | rfl
      · rw [grow_two_pow hi']
        refine ⟨_, rfl, hinv, hwhole, hstack', h.nextIndex, hothers, h.refsMaxSize,
          .inl ⟨i + 1, hi', rfl, ?_⟩, hbuffer⟩
        have hpos : 0 < 2 ^ i := Nat.two_pow_pos i
        rw [List.length_cons]
        omega
      · rw [grow_two_pow_14]
        exact ⟨_, rfl, hinv, hwhole, hstack', h.nextIndex, hothers, h.refsMaxSize,
          .inr (by rw [List.length_cons]; omega), hbuffer⟩
    · rw [if_neg (by omega)]
      exact ⟨_, rfl, hinv, hwhole, hstack', h.nextIndex, hothers, h.refsMaxSize,
        .inl ⟨i, hi, rfl, by rw [List.length_cons]; omega⟩, hbuffer⟩
  · have hstep : step rest s (.use o w) = s := by
      simp only [step, if_neg hlast]
    rw [hstep] at hinv ⊢
    rw [if_neg hlast]
    exact ⟨_, rfl, hinv, hwhole, h.stack, h.nextIndex, hothers, h.refsMaxSize, h.stackMaxSize,
      hbuffer⟩

end Follows

/-! ## The loops -/

/-- What a part of the colouring comes to: it fails exactly if its operations need more than
`2 ^ 14` colours, and else follows them. -/
def Outcome (inGraphDef : GraphDef) (r : Option Coloring) (s : State Output)
    (done ops rest : List (Op Output ℕ)) : Prop :=
  match r with
  | none => ¬ Fits (2 ^ 14) s ops rest
  | some c => Fits (2 ^ 14) s ops rest ∧
    Follows inGraphDef c.bufColor c.mBufferIndex (run s ops rest) (done ++ ops) rest

variable {r : Option Coloring} {c : Coloring} {ops ops' : List (Op Output ℕ)}

theorem Outcome.nil (h : Follows inGraphDef c.bufColor c.mBufferIndex s done rest) :
    Outcome inGraphDef (some c) s done [] rest := by
  refine ⟨trivial, ?_⟩
  rw [List.append_nil]
  exact h

theorem Outcome.bind {f : Coloring → Option Coloring}
    (h : Outcome inGraphDef r s done ops (ops' ++ rest))
    (hf : ∀ c s, Follows inGraphDef c.bufColor c.mBufferIndex s (done ++ ops) (ops' ++ rest) →
      Outcome inGraphDef (f c) s (done ++ ops) ops' rest) :
    Outcome inGraphDef (r.bind f) s done (ops ++ ops') rest := by
  cases r with
  | none =>
    show ¬ Fits (2 ^ 14) s (ops ++ ops') rest
    rw [fits_append]
    exact fun hfits => h hfits.1
  | some c =>
    have hnext := hf c _ h.2
    show Outcome inGraphDef (f c) s done (ops ++ ops') rest
    revert hnext
    cases f c with
    | none =>
      intro hnext hfits
      exact hnext (fits_append.mp hfits).2
    | some c' =>
      intro hnext
      refine ⟨fits_append.mpr ⟨h.1, hnext.1⟩, ?_⟩
      rw [run_append, ← List.append_assoc]
      exact hnext.2

/-- A loop whose turns follow their operations follows all of them. -/
theorem Outcome.foldlM {turn : Coloring → ℕ → Option Coloring} {opsAt : ℕ → List (Op Output ℕ)}
    (hturn : ∀ i c s done rest,
      Follows inGraphDef c.bufColor c.mBufferIndex s done (opsAt i ++ rest) →
      Outcome inGraphDef (turn c i) s done (opsAt i) rest) (l : List ℕ)
    (h : Follows inGraphDef c.bufColor c.mBufferIndex s done (l.flatMap opsAt ++ rest)) :
    Outcome inGraphDef (l.foldlM turn c) s done (l.flatMap opsAt) rest := by
  induction l generalizing c s done with
  | nil => exact .nil h
  | cons i l ih =>
    rw [List.flatMap_cons, List.append_assoc] at h
    rw [List.foldlM_cons, List.flatMap_cons]
    apply Outcome.bind (hturn i c s done _ h)
    intro c' s' h'
    exact ih h'

section Loops

variable (hreaders : ∀ o, inGraphDef.numReaders o < 2 ^ 15)

include hreaders

theorem releaseInputBuffer_outcome (unit i : ℕ)
    (h : Follows inGraphDef c.bufColor c.mBufferIndex s done (inGraphDef.useAt unit i ++ rest)) :
    Outcome inGraphDef (inGraphDef.releaseInputBuffer unit c i) s done
      (inGraphDef.useAt unit i) rest := by
  unfold useAt at h ⊢
  unfold releaseInputBuffer
  cases hinput : (inGraphDef.unit unit).mInputSpec[i]? with
  | none =>
    rw [hinput] at h
    exact .nil h
  | some inputSpec =>
    rw [hinput] at h
    dsimp only at h ⊢
    by_cases hwire : inputSpec.mFromUnitIndex ≥ 0
    · by_cases hrate : inGraphDef.outputRate inputSpec.fromOutput = .fullRate
      · simp only [hwire, hrate, and_self, if_true] at h ⊢
        obtain ⟨a', hrelease, h'⟩ := h.release hreaders
        rw [hrelease]
        exact ⟨⟨nofun, trivial⟩, h'⟩
      · simp only [hwire, hrate, and_false, if_true, if_false] at h ⊢
        exact .nil h
    · simp only [hwire, false_and, if_false] at h ⊢
      exact .nil h

theorem allocOutputBuffer_outcome (unit i : ℕ)
    (h : Follows inGraphDef c.bufColor c.mBufferIndex s done (inGraphDef.defineAt unit i ++ rest)) :
    Outcome inGraphDef (inGraphDef.allocOutputBuffer unit c i) s done
      (inGraphDef.defineAt unit i) rest := by
  unfold defineAt at h ⊢
  unfold allocOutputBuffer
  dsimp only
  by_cases hrate : inGraphDef.outputRate (unit, i) = .fullRate
  · simp only [hrate, if_true] at h ⊢
    by_cases hroom : s.next ≤ 2 ^ 14
    · obtain ⟨a', outIndex, halloc, h'⟩ := h.alloc hreaders hroom
      rw [halloc]
      exact ⟨⟨fun _ _ => hroom, trivial⟩, h'⟩
    · rw [h.alloc_eq_none (by omega)]
      intro hfits
      exact hroom (hfits.1 _ rfl)
  · simp only [hrate, if_false] at h ⊢
    exact .nil h

theorem colorUnit_outcome (unit : ℕ)
    (h : Follows inGraphDef c.bufColor c.mBufferIndex s done (inGraphDef.timelineOf unit ++ rest)) :
    Outcome inGraphDef (inGraphDef.colorUnit c unit) s done (inGraphDef.timelineOf unit) rest := by
  have huses : ∀ c s done rest,
      Follows inGraphDef c.bufColor c.mBufferIndex s done (inGraphDef.usesOf unit ++ rest) →
      Outcome inGraphDef (inGraphDef.releaseInputBuffers unit c) s done
        (inGraphDef.usesOf unit) rest := by
    intro c s done rest h
    exact .foldlM (fun i c s done rest => releaseInputBuffer_outcome hreaders unit i) _ h
  have hdefines : ∀ c s done rest,
      Follows inGraphDef c.bufColor c.mBufferIndex s done (inGraphDef.definesOf unit ++ rest) →
      Outcome inGraphDef (inGraphDef.allocOutputBuffers unit c) s done
        (inGraphDef.definesOf unit) rest := by
    intro c s done rest h
    exact .foldlM (fun i c s done rest => allocOutputBuffer_outcome hreaders unit i) _ h
  unfold timelineOf at h ⊢
  unfold colorUnit
  split_ifs at h ⊢ with halias
  · rw [List.append_assoc] at h
    exact (hdefines _ _ _ _ h).bind fun c s h => huses c s _ _ h
  · rw [List.append_assoc] at h
    exact (huses _ _ _ _ h).bind fun c s h => hdefines c s _ _ h

/-- The colouring of a definition follows its timeline. -/
theorem foldlM_colorUnit_outcome (hwf : inGraphDef.WellFormed) :
    Outcome inGraphDef
      ((List.range inGraphDef.numUnits).foldlM inGraphDef.colorUnit inGraphDef.uncolored)
      ⟨fun _ => 0, [], 0⟩ [] inGraphDef.timeline [] := by
  apply Outcome.foldlM (fun i c s done rest => colorUnit_outcome hreaders i)
  refine ⟨?_, ?_, rfl, rfl, ?_, .inl ⟨Nat.zero_le _, 5, by omega, rfl, Nat.zero_le _⟩,
    .inl ⟨5, by omega, rfl, by simp⟩, nofun⟩
  · rw [List.append_nil]
    exact Inv.nil (wellScoped_timeline hwf) _
  · rw [List.append_nil]
    rfl
  · rintro o ⟨hmem, -⟩
    simp at hmem

end Loops

end GraphDef

end PoopWorms.Server
