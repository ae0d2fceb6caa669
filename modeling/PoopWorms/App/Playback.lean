import PoopWorms.App.SequenceTheorems
import PoopWorms.Lib.Runs
import Mathlib.Data.Int.ModEq
import Mathlib.Data.List.Count
import Mathlib.Data.List.Induction
import Mathlib.Logic.Function.Iterate

/-!
# Playing what was recorded

A new sequence records: its position is always its last tick, so an event that is tapped lies
at the number of ticks before it. Then it plays, and goes round the timeline from its first
tick on.
-/

namespace PoopWorms.App

open EWSequence

/-- What happens to a sequence while it records. -/
inductive Take (α : Type)
  | tick
  | tap (event : α)

namespace Take

variable {α : Type}

def op : Take α → Op α
  | tick => .tick
  | tap event => .addEvent event

def isTick : Take α → Bool
  | tick => true
  | tap _ => false

def event : Take α → Option α
  | tick => none
  | tap event => some event

/-- How many ticks there are. -/
def ticks (takes : List (Take α)) : ℕ := takes.countP isTick

/-- The events that are tapped. -/
def taps (takes : List (Take α)) : List α := takes.filterMap event

/-- An event is tapped after `t` ticks. -/
def TappedAt (takes : List (Take α)) (event : α) (t : ℕ) : Prop :=
  ∃ before after, takes = before ++ tap event :: after ∧ ticks before = t

theorem ticks_append (takes takes' : List (Take α)) :
    ticks (takes ++ takes') = ticks takes + ticks takes' := List.countP_append

theorem taps_append (takes takes' : List (Take α)) :
    taps (takes ++ takes') = taps takes ++ taps takes' := List.filterMap_append

theorem not_tappedAt_nil {event : α} {t : ℕ} : ¬ TappedAt [] event t := by
  intro h
  obtain ⟨before, after, heq, -⟩ := h
  simp at heq

/-- The last of the takes is the tap, or it was before that. -/
theorem tappedAt_concat {takes : List (Take α)} {take : Take α} {event : α} {t : ℕ} :
    TappedAt (takes ++ [take]) event t ↔
      TappedAt takes event t ∨ take = tap event ∧ t = ticks takes := by
  constructor
  · intro h
    obtain ⟨before, after, heq, ht⟩ := h
    rcases List.eq_nil_or_concat after with rfl | ⟨after', last, rfl⟩
    · have hinj := List.append_inj' heq rfl
      exact .inr ⟨(List.cons.inj hinj.2).1, by rw [hinj.1, ht]⟩
    · have heq' : takes ++ [take] = (before ++ tap event :: after') ++ [last] := by
        rw [heq, List.concat_eq_append, List.append_assoc, List.cons_append]
      have hinj := List.append_inj' heq' rfl
      exact .inl ⟨before, after', hinj.1, ht⟩
  · intro h
    rcases h with ⟨before, after, rfl, ht⟩ | ⟨rfl, rfl⟩
    · exact ⟨before, after ++ [take], by rw [List.append_assoc, List.cons_append], ht⟩
    · exact ⟨takes, [], rfl, rfl⟩

theorem exists_tappedAt {takes : List (Take α)} {event : α} :
    event ∈ taps takes ↔ ∃ t, TappedAt takes event t := by
  induction takes using List.reverseRecOn with
  | nil => exact ⟨nofun, fun h => absurd h.choose_spec not_tappedAt_nil⟩
  | append_singleton takes take ih =>
    rw [taps_append, List.mem_append, ih]
    simp only [tappedAt_concat]
    cases take with
    | tick => simp [taps, Take.event]
    | tap event' =>
      simp only [taps, Take.event, List.filterMap_cons, List.filterMap_nil, List.mem_singleton,
        exists_or, tap.injEq, exists_and_left, exists_eq, and_true]
      rw [eq_comm]

/-- A tap that is not repeated is at one time. -/
theorem tappedAt_unique {takes : List (Take α)} (hnodup : (taps takes).Nodup) {event : α} {t t' : ℕ}
    (h : TappedAt takes event t) (h' : TappedAt takes event t') : t = t' := by
  induction takes using List.reverseRecOn with
  | nil => exact absurd h not_tappedAt_nil
  | append_singleton takes take ih =>
    rw [taps_append, List.nodup_append] at hnodup
    rw [tappedAt_concat] at h h'
    have hnew : take = tap event → ¬ ∃ t, TappedAt takes event t := by
      intro htake hold
      subst htake
      exact hnodup.2.2 event (exists_tappedAt.mpr hold) event (by simp [taps, Take.event]) rfl
    rcases h with h | ⟨htake, rfl⟩
    · rcases h' with h' | ⟨htake, -⟩
      · exact ih hnodup.1 h h'
      · exact absurd ⟨t, h⟩ (hnew htake)
    · rcases h' with h' | ⟨-, rfl⟩
      · exact absurd ⟨t', h'⟩ (hnew htake)
      · rfl

end Take

namespace Sequence

open Take

variable {α : Type} [DecidableEq α]

/-- A new sequence after a recording. -/
def recorded (takes : List (Take α)) : Sequence α :=
  Runs.run (fun s take => s.apply take.op) (init.apply .record) takes

/-- A recording that is played. -/
def played (takes : List (Take α)) : Sequence α := (recorded takes).apply .play

/-- What the tick fires that comes after `k` ticks. -/
def fires (s : Sequence α) (k : ℕ) : List α := ((((fun s => s.apply .tick)^[k]) s).step .tick).2

/-- The position is the last tick, and an event lies where it was tapped. -/
structure Recorded (takes : List (Take α)) (s : Sequence α) : Prop where
  recording : s.seq.recording = true
  length : s.seq.timeline.length = ticks takes + 1
  pos : s.seq.pos = ticks takes
  holds : ∀ event t, EWSequence.holds s.seq.timeline event t = true ↔ TappedAt takes event t

theorem recorded_init : Recorded [] (Sequence.init.apply .record : Sequence α) := by
  refine ⟨?_, ?_, ?_, fun event t => ?_⟩
  · rw [seq_record]
    rfl
  · rw [seq_record]
    rfl
  · rw [seq_record]
    rfl
  · rw [seq_record]
    constructor
    · intro h
      obtain ⟨events, hevents, hmem⟩ := holds_eq_true.mp h
      rw [List.mem_singleton.mp (List.mem_of_getElem? hevents)] at hmem
      exact absurd hmem List.not_mem_nil
    · intro h
      exact absurd h not_tappedAt_nil

theorem Recorded.tick {takes : List (Take α)} {s : Sequence α} (h : Recorded takes s) :
    Recorded (takes ++ [.tick]) (s.apply .tick) := by
  have hticks : ticks (takes ++ [Take.tick]) = ticks takes + 1 := ticks_append ..
  have hseq := (tick_of_recording h.recording).1
  refine ⟨by rw [recording_tick, h.recording], ?_, ?_, fun event t => ?_⟩
  · rw [hseq, hticks, List.length_append, h.length]
    rfl
  · rw [hseq, hticks, h.pos]
    push_cast
    rfl
  · -- the new tick is empty
    have hsame : EWSequence.holds (s.seq.timeline ++ [NSSet.empty]) event t
        = EWSequence.holds s.seq.timeline event t := by
      unfold EWSequence.holds
      by_cases ht : t < s.seq.timeline.length
      · rw [List.getElem?_append_left ht]
      · rw [List.getElem?_append_right (not_lt.mp ht), List.getElem?_eq_none (not_lt.mp ht)]
        cases t - s.seq.timeline.length with
        | zero => rfl
        | succ n => rfl
    rw [hseq, tappedAt_concat, ← h.holds]
    simp [hsame]

theorem Recorded.tap {takes : List (Take α)} {s : Sequence α} (h : Recorded takes s) (event : α) :
    Recorded (takes ++ [.tap event]) (s.apply (.addEvent event)) := by
  have hticks : ticks (takes ++ [Take.tap event]) = ticks takes := ticks_append ..
  obtain ⟨events, hevents, hseq⟩ := seq_addEvent s event
  rw [h.pos, objectAtIndex_natCast] at hevents
  rw [h.pos, Int.toNat_natCast] at hseq
  refine ⟨by rw [recording_addEvent, h.recording], ?_, by rw [hseq, hticks, h.pos],
    fun event' t => ?_⟩
  · rw [hseq, hticks, List.length_set, h.length]
  · have hhere : EWSequence.holds s.seq.timeline event' (ticks takes)
        = events.elems.contains event' := by
      unfold EWSequence.holds
      rw [hevents]
      rfl
    have hlt : ticks takes < s.seq.timeline.length := by
      rw [h.length]
      exact Nat.lt_succ_self _
    rw [hseq, holds_set hlt, tappedAt_concat, ← h.holds, Function.update_apply]
    by_cases ht : t = ticks takes
    · subst ht
      rw [if_pos rfl, hhere]
      rw [List.contains_iff_mem, List.contains_iff_mem]
      unfold NSSet.addObject
      rw [List.mem_insert_iff]
      constructor
      · intro hmem
        rcases hmem with rfl | hold
        · exact .inr ⟨rfl, rfl⟩
        · exact .inl hold
      · intro hmem
        rcases hmem with hold | ⟨htap, -⟩
        · exact .inr hold
        · exact .inl (Take.tap.inj htap).symm
    · simp [ht]

/-- While it records, an event lies at the number of ticks before it. -/
theorem recorded_recorded (takes : List (Take α)) : Recorded takes (recorded takes) := by
  induction takes using List.reverseRecOn with
  | nil => exact recorded_init
  | append_singleton takes take ih =>
    have hrun : recorded (takes ++ [take]) = (recorded takes).apply take.op := by
      unfold recorded
      rw [Runs.run_append, Runs.run_singleton]
    rw [hrun]
    cases take with
    | tick => exact ih.tick
    | tap event => exact ih.tap event

/-! ## Playing -/

/-- After some ticks, the position has gone round the timeline. -/
theorem seq_iterate_tick {s : Sequence α} (h : s.seq.recording = false) (k : ℕ) :
    (((fun s => s.apply .tick)^[k]) s).seq = { s.seq with
      pos := (s.seq.pos + k) % s.seq.timeline.length } := by
  induction k with
  | zero =>
    have hpos : s.seq.pos % s.seq.timeline.length = s.seq.pos :=
      Int.emod_eq_of_lt s.inBounds.nonneg s.inBounds.lt
    rw [Function.iterate_zero, id, Nat.cast_zero, Int.add_zero, hpos]
  | succ k ih =>
    set s' := ((fun s => s.apply .tick)^[k]) s with hs'
    have hrec : s'.seq.recording = false := by rw [ih, h]
    rw [Function.iterate_succ_apply', (tick_of_playing hrec).1, ih]
    simp only [EWSequence.mk.injEq, true_and, and_true]
    rw [Int.emod_add_emod, Nat.cast_succ, Int.add_assoc]

/-- The tick after `k` ticks fires what lies `k + 1` ticks behind the position. -/
theorem fires_eq {s : Sequence α} (h : s.seq.recording = false) (k : ℕ) :
    ∃ events, objectAtIndex s.seq.timeline ((s.seq.pos + k + 1) % s.seq.timeline.length)
        = some events ∧ s.fires k = events.elems := by
  have hseq := seq_iterate_tick h k
  have hrec : (((fun s => s.apply .tick)^[k]) s).seq.recording = false := by rw [hseq, h]
  obtain ⟨-, events, hevents, hfired⟩ := tick_of_playing hrec
  rw [hseq] at hevents
  simp only [Int.emod_add_emod] at hevents
  exact ⟨events, hevents, hfired⟩

variable {takes : List (Take α)}

theorem length_played (takes : List (Take α)) :
    (played takes).seq.timeline.length = ticks takes + 1 := by
  rw [played, seq_play]
  exact (recorded_recorded takes).length

/-- A recording is played from its first tick on. -/
theorem fires_played (takes : List (Take α)) (k : ℕ) :
    ∃ events, (played takes).seq.timeline[k % (ticks takes + 1)]? = some events ∧
      (played takes).fires k = events.elems := by
  have hplays : (played takes).seq.recording = false := by
    rw [played, seq_play]
    rfl
  have hpos : (played takes).seq.pos = ticks takes := by
    rw [played, seq_play]
    exact (recorded_recorded takes).pos
  obtain ⟨events, hevents, hfires⟩ := fires_eq hplays k
  refine ⟨events, ?_, hfires⟩
  have hround : ((ticks takes : ℤ) + k + 1) % ((ticks takes + 1 : ℕ) : ℤ)
      = ((k % (ticks takes + 1) : ℕ) : ℤ) := by
    have heq : (ticks takes : ℤ) + k + 1 = k + ((ticks takes + 1 : ℕ) : ℤ) := by
      push_cast
      omega
    rw [heq, Int.add_emod_right, Int.natCast_emod]
  rwa [hpos, length_played, hround, objectAtIndex_natCast] at hevents

/-- An event fires when the position is where it was tapped. -/
theorem mem_fires_played {event : α} {k : ℕ} :
    event ∈ (played takes).fires k ↔ TappedAt takes event (k % (ticks takes + 1)) := by
  obtain ⟨events, hevents, hfires⟩ := fires_played takes k
  rw [hfires, ← (recorded_recorded takes).holds]
  have htimeline : (played takes).seq.timeline = (recorded takes).seq.timeline := by
    rw [played, seq_play]
    rfl
  rw [← htimeline]
  unfold EWSequence.holds
  rw [hevents]
  simp

theorem tappedAt_lt {event : α} {t : ℕ} (h : TappedAt takes event t) : t < ticks takes + 1 := by
  rw [← (recorded_recorded takes).length]
  exact lt_of_holds (((recorded_recorded takes).holds event t).mpr h)

/-- In every stretch of as many ticks as the timeline has, an event fires once. -/
theorem count_fires_played (hnodup : (taps takes).Nodup) {event : α} (hevent : event ∈ taps takes)
    (k : ℕ) : ((List.range (ticks takes + 1)).flatMap fun i =>
      (played takes).fires (k + i)).count event = 1 := by
  obtain ⟨t, ht⟩ := exists_tappedAt.mp hevent
  have hlt := tappedAt_lt ht
  set length := ticks takes + 1 with hlength
  apply List.count_eq_one_of_mem
  · rw [List.nodup_flatMap]
    constructor
    · intro i _
      obtain ⟨events, -, hfires⟩ := fires_played takes (k + i)
      rw [hfires]
      exact events.nodup
    · -- two ticks of the stretch are at two places of the timeline
      refine List.nodup_range.imp_of_mem fun {i j} hi hj hne => ?_
      simp only [Function.onFun, List.disjoint_left]
      intro event' hfire hfire'
      have hsame := tappedAt_unique hnodup (mem_fires_played.mp hfire) (mem_fires_played.mp hfire')
      have hmod : i ≡ j [MOD length] := Nat.ModEq.add_left_cancel' k hsame
      exact hne (hmod.eq_of_lt_of_lt (List.mem_range.mp hi) (List.mem_range.mp hj))
  · -- the place of the event is among them
    rw [List.mem_flatMap]
    have hk : k % length < length := Nat.mod_lt _ (Nat.succ_pos _)
    refine ⟨(t + (length - k % length)) % length, List.mem_range.mpr (Nat.mod_lt _ (by omega)), ?_⟩
    rw [mem_fires_played, ← hlength, Nat.add_mod_mod, Nat.add_comm, ← Nat.add_mod_mod,
      Nat.add_assoc, Nat.sub_add_cancel (by omega), Nat.add_mod_right, Nat.mod_eq_of_lt hlt]
    exact ht

/-- Events that are recorded are played faithfully: each fires once in every stretch of as many
ticks as the timeline has, and they fire as far apart as they were tapped, round the timeline. -/
theorem played_faithfully (takes : List (Take α)) (hnodup : (taps takes).Nodup) :
    (∀ event ∈ taps takes, ∀ k,
      ((List.range (played takes).seq.timeline.length).flatMap fun i =>
        (played takes).fires (k + i)).count event = 1) ∧
    ∀ event event' t t' k k', TappedAt takes event t → TappedAt takes event' t' →
      event ∈ (played takes).fires k → event' ∈ (played takes).fires k' →
      (k' : ℤ) - k ≡ (t' : ℤ) - t [ZMOD (played takes).seq.timeline.length] := by
  rw [length_played]
  refine ⟨fun event hevent k => count_fires_played hnodup hevent k, ?_⟩
  intro event event' t t' k k' ht ht' hfire hfire'
  have hat := tappedAt_unique hnodup (mem_fires_played.mp hfire) ht
  have hat' := tappedAt_unique hnodup (mem_fires_played.mp hfire') ht'
  have hmod : ∀ n : ℕ, (n : ℤ) ≡ ((n % (ticks takes + 1) : ℕ) : ℤ) [ZMOD (ticks takes + 1 : ℕ)] := by
    intro n
    rw [Int.natCast_mod]
    exact (Int.mod_modEq _ _).symm
  rw [← hat, ← hat']
  exact (hmod k').sub (hmod k)

/-- A tap, two ticks, a tap and a tick. -/
theorem played_faithfully_two_taps :
    (∀ event ∈ taps [.tap 0, .tick, .tick, .tap 1, .tick], ∀ k,
      ((List.range (played [.tap 0, .tick, .tick, .tap 1, .tick]).seq.timeline.length).flatMap
        fun i => (played [.tap 0, .tick, .tick, .tap 1, .tick]).fires (k + i)).count event = 1) ∧
    ∀ event event' t t' k k', TappedAt [.tap 0, .tick, .tick, .tap 1, .tick] event t →
      TappedAt [.tap 0, .tick, .tick, .tap 1, .tick] event' t' →
      event ∈ (played [.tap 0, .tick, .tick, .tap 1, .tick]).fires k →
      event' ∈ (played [.tap 0, .tick, .tick, .tap 1, .tick]).fires k' →
      (k' : ℤ) - k ≡ (t' : ℤ) - t
        [ZMOD (played [.tap 0, .tick, .tick, .tap 1, .tick]).seq.timeline.length] :=
  played_faithfully [.tap 0, .tick, .tick, .tap 1, .tick] (by decide)

end Sequence

end PoopWorms.App
