import PoopWorms.App.Sequence

/-!
# The position of a sequence

A sequence always has a tick, and its position is one of its ticks. No operation leaves
this, so none of them fails, and a sequence that carries the proof can be run without
looking at failures.
-/

namespace PoopWorms.App

namespace EWSequence

variable {α : Type}

/-- The position is a tick of the timeline. -/
structure InBounds (s : EWSequence α) : Prop where
  nonempty : s.timeline ≠ []
  nonneg : 0 ≤ s.pos
  lt : s.pos < s.timeline.length

theorem inBounds_init : (init : EWSequence α).InBounds :=
  ⟨List.cons_ne_nil _ _, le_rfl, by simp [init]⟩

theorem InBounds.length_pos {s : EWSequence α} (h : s.InBounds) : 0 < s.timeline.length :=
  List.length_pos_iff.mpr h.nonempty

/-- Only the length of the timeline matters. -/
theorem InBounds.of_length_eq {s s' : EWSequence α} (h : s.InBounds) (hpos : s'.pos = s.pos)
    (hlen : s'.timeline.length = s.timeline.length) : s'.InBounds := by
  have hp := h.length_pos
  refine ⟨List.length_pos_iff.mp (by omega), hpos ▸ h.nonneg, ?_⟩
  rw [hpos, hlen]
  exact h.lt

theorem objectAtIndex_eq_some (timeline : List (NSSet α)) {i : ℤ} (hnonneg : 0 ≤ i)
    (hlt : i < timeline.length) : ∃ events, objectAtIndex timeline i = some events := by
  have hi : i.toNat < timeline.length := by omega
  refine ⟨timeline[i.toNat], ?_⟩
  unfold objectAtIndex
  rw [if_pos hnonneg, List.getElem?_eq_getElem hi]

theorem objectAtIndex_natCast (timeline : List (NSSet α)) (i : ℕ) :
    objectAtIndex timeline (i : ℤ) = timeline[i]? := by
  unfold objectAtIndex
  rw [if_pos (Int.natCast_nonneg i), Int.toNat_natCast]

theorem inBounds_setLength {s : EWSequence α} (h : s.InBounds) (newLength : ℤ) :
    (s.setLength newLength).InBounds := by
  have hp := h.length_pos
  have hnonneg := h.nonneg
  have hlt := h.lt
  unfold setLength
  split_ifs with hpos hshort hout
  · refine ⟨List.length_pos_iff.mp ?_, le_rfl, ?_⟩ <;>
      simp only [List.length_take] <;> omega
  · refine ⟨List.length_pos_iff.mp ?_, hnonneg, ?_⟩ <;>
      simp only [List.length_take] <;> omega
  · refine ⟨List.length_pos_iff.mp ?_, hnonneg, ?_⟩ <;>
      simp only [List.length_append, List.length_replicate] <;> omega
  · exact h

theorem tick_eq_some {s : EWSequence α} (h : s.InBounds) :
    ∃ s' fired, s.tick = some (s', fired) ∧ s'.InBounds := by
  have hp := h.length_pos
  have hnonneg := h.nonneg
  have hlt := h.lt
  unfold tick
  split_ifs with hrec
  · refine ⟨_, _, rfl, List.length_pos_iff.mp ?_, ?_, ?_⟩ <;>
      simp only [List.length_append, List.length_singleton] <;> omega
  · have hne : s.timeline.length ≠ 0 := by omega
    have hmod : (s.pos + 1) % (s.timeline.length : ℤ) < s.timeline.length :=
      Int.emod_lt_of_pos _ (by omega)
    have hmod' : 0 ≤ (s.pos + 1) % (s.timeline.length : ℤ) := Int.emod_nonneg _ (by omega)
    rcases objectAtIndex_eq_some s.timeline hmod' hmod with ⟨events, hevents⟩
    refine ⟨{ s with pos := (s.pos + 1) % s.timeline.length }, events.elems, ?_,
      h.nonempty, hmod', hmod⟩
    simp only [remainder, if_neg hne, Option.bind_eq_bind, Option.bind_some, hevents]
    rfl

/-- A fold of steps that succeed and keep the number of ticks. -/
theorem foldlM_eq_some {β : Type} (f : List (NSSet α) → β → Option (List (NSSet α)))
    (xs : List β) (n : ℕ)
    (hf : ∀ t, t.length = n → ∀ x ∈ xs, ∃ t', f t x = some t' ∧ t'.length = n)
    (t : List (NSSet α)) (ht : t.length = n) :
    ∃ t', xs.foldlM f t = some t' ∧ t'.length = n := by
  induction xs generalizing t with
  | nil => exact ⟨t, rfl, ht⟩
  | cons x xs ih =>
    rcases hf t ht x (by simp) with ⟨t₁, hx, ht₁⟩
    rcases ih (fun t ht y hy => hf t ht y (by simp [hy])) t₁ ht₁ with ⟨t₂, hxs, ht₂⟩
    refine ⟨t₂, ?_, ht₂⟩
    rw [List.foldlM_cons, hx]
    exact hxs

variable [DecidableEq α]

/-- Drifting an event keeps the number of ticks. -/
theorem driftEvent_eq_some (amount : ℚ) (draw : ℕ → α → Fin 1000) {i : ℕ}
    {timeline : List (NSSet α)} (hi : i < timeline.length) (event : α) :
    ∃ timeline', driftEvent amount draw i timeline event = some timeline' ∧
      timeline'.length = timeline.length := by
  unfold driftEvent
  split_ifs with hdrawn
  · rcases objectAtIndex_eq_some timeline (i := i) (by omega) (by omega) with ⟨events, hevents⟩
    set timeline₁ := timeline.set i (events.removeObject event) with htimeline₁
    have hlen : timeline₁.length = timeline.length := List.length_set
    have hne : timeline₁.length ≠ 0 := by omega
    have hmod : ((i : ℤ) + 1) % (timeline₁.length : ℤ) < timeline₁.length :=
      Int.emod_lt_of_pos _ (by omega)
    have hmod' : 0 ≤ ((i : ℤ) + 1) % (timeline₁.length : ℤ) :=
      Int.emod_nonneg _ (by omega)
    rcases objectAtIndex_eq_some timeline₁ hmod' hmod with ⟨other, hother⟩
    refine ⟨timeline₁.set (((i : ℤ) + 1) % timeline₁.length).toNat (other.addObject event),
      ?_, by rw [List.length_set, hlen]⟩
    rw [hevents]
    simp only [Option.bind_eq_bind, Option.bind_some, remainder, ← htimeline₁, if_neg hne,
      hother]
    rfl
  · exact ⟨timeline, rfl, rfl⟩

theorem drift_eq_some (s : EWSequence α) (amount : ℚ) (draw : ℕ → α → Fin 1000) :
    ∃ s', s.drift amount draw = some s' ∧ s'.pos = s.pos ∧
      s'.timeline.length = s.timeline.length := by
  have htick : ∀ t : List (NSSet α), t.length = s.timeline.length →
      ∀ i ∈ List.range s.timeline.length,
        ∃ t', driftTick amount draw t i = some t' ∧ t'.length = s.timeline.length := by
    intro t ht i hi
    have hlt : i < t.length := by
      rw [ht]
      exact List.mem_range.mp hi
    rcases objectAtIndex_eq_some t (i := i) (by omega) (by omega) with ⟨events, hevents⟩
    unfold driftTick
    rw [hevents]
    refine foldlM_eq_some _ events.elems _ (fun t' ht' event _ => ?_) t ht
    have hi' : i < t'.length := by omega
    rcases driftEvent_eq_some amount draw hi' event
      with ⟨t'', hdrift, hlen⟩
    exact ⟨t'', hdrift, by rw [hlen, ht']⟩
  rcases foldlM_eq_some (driftTick amount draw) _ _ htick s.timeline rfl with ⟨t, ht, hlen⟩
  refine ⟨{ s with timeline := t }, ?_, rfl, hlen⟩
  unfold drift
  rw [ht]
  rfl

/-- No operation fails on a sequence in bounds, and each leaves it in bounds. -/
theorem step_eq_some {s : EWSequence α} (h : s.InBounds) (op : Op α) :
    ∃ s' fired, s.step op = some (s', fired) ∧ s'.InBounds := by
  cases op with
  | setLength newLength => exact ⟨_, _, rfl, inBounds_setLength h newLength⟩
  | addEvent event =>
    rcases objectAtIndex_eq_some s.timeline h.nonneg h.lt with ⟨events, hevents⟩
    refine ⟨{ s with timeline := s.timeline.set s.pos.toNat (events.addObject event) }, [], ?_,
      h.of_length_eq rfl List.length_set⟩
    simp only [step, addEvent, hevents]
    rfl
  | addEventAtTick event tick =>
    by_cases htick : 0 ≤ tick ∧ tick < s.timeline.length
    · rcases objectAtIndex_eq_some s.timeline htick.1 htick.2 with ⟨events, hevents⟩
      refine ⟨{ s with timeline := s.timeline.set tick.toNat (events.addObject event) }, [], ?_,
        h.of_length_eq rfl List.length_set⟩
      simp only [step, addEventAtTick, if_pos htick, hevents]
      rfl
    · refine ⟨s, [], ?_, h⟩
      simp only [step, addEventAtTick, if_neg htick]
      rfl
  | poopEvent event => exact ⟨_, _, rfl, h.of_length_eq rfl (by simp [poopEvent])⟩
  | drift amount draw =>
    rcases drift_eq_some s amount draw with ⟨s', hs', hpos, hlen⟩
    refine ⟨s', [], ?_, h.of_length_eq hpos hlen⟩
    simp only [step, hs']
    rfl
  | decay amount draw => exact ⟨_, _, rfl, h.of_length_eq rfl List.length_mapIdx⟩
  | record => exact ⟨_, _, rfl, h.of_length_eq rfl rfl⟩
  | play => exact ⟨_, _, rfl, h.of_length_eq rfl rfl⟩
  | stop => exact ⟨_, _, rfl, h.of_length_eq rfl rfl⟩
  | reset => exact ⟨_, _, rfl, h.nonempty, le_rfl, Int.natCast_pos.mpr h.length_pos⟩
  | tick => exact tick_eq_some h

/-- No run of operations fails, and each leaves the sequence in bounds. -/
theorem runOps_eq_some {s : EWSequence α} (h : s.InBounds) (ops : List (Op α)) :
    ∃ s', s.runOps ops = some s' ∧ s'.InBounds := by
  induction ops generalizing s with
  | nil => exact ⟨s, rfl, h⟩
  | cons op ops ih =>
    rcases step_eq_some h op with ⟨s₁, fired, hop, h₁⟩
    rcases ih h₁ with ⟨s₂, hops, h₂⟩
    refine ⟨s₂, ?_, h₂⟩
    rw [runOps, List.foldlM_cons, hop]
    exact hops

/-- Every run of a new sequence goes through, and ends with a timeline that has the position
as one of its ticks. -/
theorem runOps_init_inBounds (ops : List (Op α)) :
    ∃ s, (init : EWSequence α).runOps ops = some s ∧ s.timeline ≠ [] ∧ 0 ≤ s.pos ∧
      s.pos < s.timeline.length := by
  rcases runOps_eq_some inBounds_init ops with ⟨s, hs, hbounds⟩
  exact ⟨s, hs, hbounds.nonempty, hbounds.nonneg, hbounds.lt⟩

/-! ## The ticks of an event -/

/-- Tick `i` holds an event. -/
def holds (timeline : List (NSSet α)) (event : α) (i : ℕ) : Bool :=
  (timeline[i]?).elim false fun events => events.elems.contains event

theorem holds_eq_true {timeline : List (NSSet α)} {event : α} {i : ℕ} :
    holds timeline event i = true ↔ ∃ events, timeline[i]? = some events ∧ event ∈ events.elems := by
  unfold holds
  cases timeline[i]? with
  | none => simp
  | some events => simp

theorem holds_set {timeline : List (NSSet α)} {i : ℕ} (hi : i < timeline.length) (events : NSSet α)
    (event : α) :
    holds (timeline.set i events) event
      = Function.update (holds timeline event) i (events.elems.contains event) := by
  ext j
  rw [Function.update_apply]
  unfold holds
  rw [List.getElem?_set]
  by_cases hj : j = i
  · simp [hj, hi]
  · simp [hj, Ne.symm hj]

theorem lt_of_holds {timeline : List (NSSet α)} {i : ℕ} {event : α}
    (h : holds timeline event i = true) : i < timeline.length := by
  obtain ⟨events, hevents, -⟩ := holds_eq_true.mp h
  exact (List.getElem?_eq_some_iff.mp hevents).1

/-- The events that the draws let be stay where they are. -/
theorem holds_decay (s : EWSequence α) (amount : ℚ) (draw : ℕ → α → Fin 1000) (event : α) (i : ℕ) :
    holds (s.decay amount draw).timeline event i
      = (holds s.timeline event i && !drawn (draw i event) amount) := by
  unfold holds decay
  rw [List.getElem?_mapIdx]
  cases s.timeline[i]? with
  | none => rfl
  | some events =>
    rw [Bool.eq_iff_iff]
    simp [NSSet.filter]

end EWSequence

/-! ## Sequences that carry their bounds -/

/-- A sequence with its position in bounds: the sequences that the application holds. -/
structure Sequence (α : Type) where
  seq : EWSequence α
  inBounds : seq.InBounds

namespace Sequence

variable {α : Type} [DecidableEq α]

open EWSequence

def init : Sequence α := ⟨EWSequence.init, inBounds_init⟩

theorem isSome_step (s : Sequence α) (op : Op α) : (s.seq.step op).isSome := by
  rcases step_eq_some s.inBounds op with ⟨s', fired, hop, -⟩
  simp [hop]

/-- One operation, which cannot fail, with the events that it fires. -/
def step (s : Sequence α) (op : Op α) : Sequence α × List α :=
  let r := (s.seq.step op).get (s.isSome_step op)
  (⟨r.1, by
    rcases step_eq_some s.inBounds op with ⟨s', fired, hop, h'⟩
    simpa [r, hop] using h'⟩, r.2)

/-- The sequence after an operation. -/
def apply (s : Sequence α) (op : Op α) : Sequence α := (s.step op).1

theorem step_eq (s : Sequence α) (op : Op α) :
    s.seq.step op = some ((s.step op).1.seq, (s.step op).2) := by
  simp [step]

theorem step_of_eq_some {s : Sequence α} {op : Op α} {seq : EWSequence α} {events : List α}
    (h : s.seq.step op = some (seq, events)) :
    (s.apply op).seq = seq ∧ (s.step op).2 = events := by
  have hstep := s.step_eq op
  rw [h, Option.some.injEq, Prod.mk.injEq] at hstep
  exact ⟨hstep.1.symm, hstep.2.symm⟩

@[simp] theorem seq_record (s : Sequence α) : (s.apply .record).seq = s.seq.record :=
  (step_of_eq_some rfl).1

@[simp] theorem seq_play (s : Sequence α) : (s.apply .play).seq = s.seq.play :=
  (step_of_eq_some rfl).1

@[simp] theorem seq_decay (s : Sequence α) (amount : ℚ) (draw : ℕ → α → Fin 1000) :
    (s.apply (.decay amount draw)).seq = s.seq.decay amount draw :=
  (step_of_eq_some rfl).1

/-- While it records, a tick makes room and fires nothing. -/
theorem tick_of_recording {s : Sequence α} (h : s.seq.recording) :
    (s.apply .tick).seq = { s.seq with
      timeline := s.seq.timeline ++ [NSSet.empty], pos := s.seq.pos + 1 } ∧
    (s.step .tick).2 = [] :=
  step_of_eq_some (if_pos h)

/-- While it plays, a tick moves the position on by one, round the timeline. -/
theorem tick_of_playing {s : Sequence α} (h : s.seq.recording = false) :
    (s.apply .tick).seq = { s.seq with pos := (s.seq.pos + 1) % s.seq.timeline.length } ∧
    ∃ events, objectAtIndex s.seq.timeline ((s.seq.pos + 1) % s.seq.timeline.length) = some events ∧
      (s.step .tick).2 = events.elems := by
  have hlen := s.inBounds.length_pos
  have hmod : (s.seq.pos + 1) % (s.seq.timeline.length : ℤ) < s.seq.timeline.length :=
    Int.emod_lt_of_pos _ (by omega)
  have hmod' : 0 ≤ (s.seq.pos + 1) % (s.seq.timeline.length : ℤ) := Int.emod_nonneg _ (by omega)
  rcases objectAtIndex_eq_some s.seq.timeline hmod' hmod with ⟨events, hevents⟩
  have hstep : s.seq.step .tick
      = some ({ s.seq with pos := (s.seq.pos + 1) % s.seq.timeline.length }, events.elems) := by
    unfold EWSequence.step EWSequence.tick remainder
    rw [if_neg (by simp [h]), if_neg (by omega)]
    simp only [Option.bind_eq_bind, Option.bind_some, hevents]
    rfl
  exact ⟨(step_of_eq_some hstep).1, events, hevents, (step_of_eq_some hstep).2⟩

/-- While it plays, a tick moves the position on and fires what lies there. -/
theorem tick_of_not_recording {s : Sequence α} (h : s.seq.recording = false) :
    ∃ pos events, events ∈ s.seq.timeline ∧ (s.apply .tick).seq = { s.seq with pos } ∧
      (s.step .tick).2 = events.elems := by
  rcases tick_of_playing h with ⟨htick, events, hevents, hfired⟩
  unfold objectAtIndex at hevents
  split_ifs at hevents with hpos
  exact ⟨_, events, List.mem_of_getElem? hevents, htick, hfired⟩

/-- An event is added to the set at the position. -/
theorem seq_addEvent (s : Sequence α) (event : α) :
    ∃ events, objectAtIndex s.seq.timeline s.seq.pos = some events ∧
      (s.apply (.addEvent event)).seq
        = { s.seq with timeline := s.seq.timeline.set s.seq.pos.toNat (events.addObject event) } := by
  rcases objectAtIndex_eq_some s.seq.timeline s.inBounds.nonneg s.inBounds.lt with ⟨events, hevents⟩
  have hstep : s.seq.step (.addEvent event) = some ({ s.seq with
      timeline := s.seq.timeline.set s.seq.pos.toNat (events.addObject event) }, []) := by
    unfold EWSequence.step EWSequence.addEvent
    simp only [Option.bind_eq_bind, hevents]
    rfl
  exact ⟨events, hevents, (step_of_eq_some hstep).1⟩

@[simp] theorem recording_tick (s : Sequence α) :
    (s.apply .tick).seq.recording = s.seq.recording := by
  cases h : s.seq.recording with
  | true => rw [(tick_of_recording h).1, h]
  | false =>
    rcases tick_of_not_recording h with ⟨pos, events, -, htick, -⟩
    rw [htick, h]

@[simp] theorem recording_addEvent (s : Sequence α) (event : α) :
    (s.apply (.addEvent event)).seq.recording = s.seq.recording := by
  rcases seq_addEvent s event with ⟨events, -, hseq⟩
  rw [hseq]

/-! ## Sequences without events -/

theorem mem_allEvents {s : EWSequence α} {event : α} :
    event ∈ s.allEvents.elems ↔ ∃ events ∈ s.timeline, event ∈ events.elems := by
  unfold EWSequence.allEvents
  rw [List.mem_dedup, List.mem_flatMap]

/-- A sequence without an event. -/
def Silent (s : Sequence α) : Prop := s.seq.allEvents.elems = []

theorem Silent.not_mem {s : Sequence α} (h : s.Silent) {events : NSSet α}
    (hevents : events ∈ s.seq.timeline) : events.elems = [] := by
  refine List.eq_nil_iff_forall_not_mem.mpr fun event hevent => ?_
  have hmem : event ∈ s.seq.allEvents.elems := mem_allEvents.mpr ⟨events, hevents, hevent⟩
  rw [h] at hmem
  exact List.not_mem_nil hmem

/-- The events of a sequence whose sets of events are no larger. -/
theorem Silent.mono {s s' : Sequence α} (h : s.Silent)
    (hsub : ∀ events ∈ s'.seq.timeline, ∀ event ∈ events.elems,
      event ∈ s.seq.allEvents.elems) : s'.Silent := by
  refine List.eq_nil_iff_forall_not_mem.mpr fun event hevent => ?_
  rcases mem_allEvents.mp hevent with ⟨events, hevents, hmem⟩
  have hmem' := hsub events hevents event hmem
  rw [h] at hmem'
  exact List.not_mem_nil hmem'

theorem Silent.play {s : Sequence α} (h : s.Silent) : (s.apply .play).Silent := by
  refine h.mono fun events hevents event hevent => mem_allEvents.mpr ⟨events, ?_, hevent⟩
  rwa [seq_play] at hevents

theorem Silent.decay {s : Sequence α} (h : s.Silent) (amount : ℚ)
    (draw : ℕ → α → Fin 1000) : (s.apply (.decay amount draw)).Silent := by
  refine h.mono fun events hevents event hevent => ?_
  rw [seq_decay] at hevents
  rcases List.mem_mapIdx.mp hevents with ⟨i, hi, rfl⟩
  exact mem_allEvents.mpr ⟨_, List.getElem_mem hi, (List.mem_filter.mp hevent).1⟩

theorem Silent.tick {s : Sequence α} (h : s.Silent) : (s.apply .tick).Silent := by
  refine h.mono fun events hevents event hevent => ?_
  cases hrec : s.seq.recording with
  | true =>
    rw [(tick_of_recording hrec).1] at hevents
    rcases List.mem_append.mp hevents with hold | hnew
    · exact mem_allEvents.mpr ⟨events, hold, hevent⟩
    · rw [List.mem_singleton.mp hnew] at hevent
      exact absurd hevent List.not_mem_nil
  | false =>
    rcases tick_of_not_recording hrec with ⟨pos, _, -, htick, -⟩
    rw [htick] at hevents
    exact mem_allEvents.mpr ⟨events, hevents, hevent⟩

/-- A sequence without an event fires nothing. -/
theorem Silent.fires_nothing {s : Sequence α} (h : s.Silent) : (s.step .tick).2 = [] := by
  cases hrec : s.seq.recording with
  | true => exact (tick_of_recording hrec).2
  | false =>
    rcases tick_of_not_recording hrec with ⟨pos, events, hevents, -, hfired⟩
    rw [hfired, h.not_mem hevents]

end Sequence

end PoopWorms.App
