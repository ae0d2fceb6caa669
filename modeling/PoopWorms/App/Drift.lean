import PoopWorms.App.SequenceTheorems
import PoopWorms.Lib.CyclicPass

/-!
# How far events drift

`drift:` goes over the ticks of a timeline and moves events into the tick that it goes to
next. Seen from one event, this is a pass over a ring: the ticks that hold the event are the
places with a token.
-/

namespace PoopWorms.App

namespace EWSequence

open CyclicPass

variable {α : Type} [DecidableEq α]

/-- The events of a timeline, each with its tick. -/
def occurrences (timeline : List (NSSet α)) : List (ℕ × α) :=
  timeline.zipIdx.flatMap fun p => p.1.elems.map fun event => (p.2, event)

/-- The tick of an event moves on by one, round the timeline, or stays. -/
def driftsTo (length : ℕ) (moved : ℕ → α → Bool) (o : ℕ × α) : ℕ × α :=
  (dest length (moved · o.2) o.1, o.2)

/-- All events are kept, and each is in its tick or in the next one, round the timeline. -/
structure DriftsOneStep (before after : List (NSSet α)) : Prop where
  kept : ((occurrences after).map Prod.snd).Perm ((occurrences before).map Prod.snd)
  near : ∃ moved, (occurrences after).Perm ((occurrences before).map (driftsTo before.length moved))

/-- The draws let an event drift out of tick `i`. -/
def drifts (amount : ℚ) (draw : ℕ → α → Fin 1000) (event : α) (i : ℕ) : Bool :=
  drawn (draw i event) amount

/-! ## The events of a timeline -/

theorem mem_occurrences {timeline : List (NSSet α)} {i : ℕ} {event : α} :
    (i, event) ∈ occurrences timeline ↔ holds timeline event i = true := by
  rw [holds_eq_true]
  unfold occurrences
  simp only [List.mem_flatMap, List.mem_map, Prod.mk.injEq]
  constructor
  · intro h
    obtain ⟨p, hp, event', hevent, hi, rfl⟩ := h
    exact ⟨p.1, by rw [← hi]; exact List.mem_zipIdx_iff_getElem?.mp hp, hevent⟩
  · intro h
    obtain ⟨events, hevents, hevent⟩ := h
    exact ⟨(events, i), List.mem_zipIdx_iff_getElem?.mpr hevents, event, hevent, rfl, rfl⟩

omit [DecidableEq α] in
theorem nodup_occurrences (timeline : List (NSSet α)) : (occurrences timeline).Nodup := by
  unfold occurrences
  rw [List.nodup_flatMap]
  constructor
  · intro p _
    exact p.1.nodup.map fun event event' h => (Prod.mk.inj h).2
  · -- two sets are at two ticks
    have hticks : (timeline.zipIdx.map Prod.snd).Nodup := by
      rw [List.zipIdx_map_snd]
      exact List.nodup_range'
    refine (List.pairwise_map.mp hticks).imp fun {p q} hne => ?_
    simp only [Function.onFun, List.disjoint_left, List.mem_map]
    intro o ho ho'
    obtain ⟨_, -, rfl⟩ := ho
    obtain ⟨_, -, heq⟩ := ho'
    exact hne (Prod.mk.inj heq).1.symm

/-- One step for every event is one step for the timeline. -/
theorem driftsOneStep_iff_forall {before after : List (NSSet α)}
    (hlen : after.length = before.length) :
    DriftsOneStep before after ↔
      ∀ event, OneStep before.length (holds before event) (holds after event) := by
  have hmem : ∀ moved (i : ℕ) event,
      (i, event) ∈ (occurrences before).map (driftsTo before.length moved) ↔
        ∃ k < before.length,
          holds before event k = true ∧ dest before.length (moved · event) k = i := by
    intro moved i event
    rw [List.mem_map]
    constructor
    · intro h
      obtain ⟨⟨k, event'⟩, ho, heq⟩ := h
      obtain ⟨hdest, rfl⟩ := Prod.mk.inj heq
      have hk := mem_occurrences.mp ho
      exact ⟨k, lt_of_holds hk, hk, hdest⟩
    · intro h
      obtain ⟨k, -, hk, hdest⟩ := h
      exact ⟨(k, event), mem_occurrences.mpr hk, Prod.ext hdest rfl⟩
  constructor
  · intro h event
    obtain ⟨moved, hperm⟩ := h.near
    refine ⟨(moved · event), ?_, fun j _ => ?_⟩
    · intro i hi k hk heq
      have hnodup := hperm.nodup_iff.mp (nodup_occurrences after)
      have hinj := List.inj_on_of_nodup_map hnodup (mem_occurrences.mpr hi.2)
        (mem_occurrences.mpr hk.2) (Prod.ext heq rfl)
      exact (Prod.mk.inj hinj).1
    · rw [← mem_occurrences, hperm.mem_iff, hmem]
  · intro h
    choose s hinj hiff using h
    have hperm : (occurrences after).Perm
        ((occurrences before).map (driftsTo before.length fun i event => s event i)) := by
      refine (List.perm_ext_iff_of_nodup (nodup_occurrences after) ?_).mpr ?_
      · refine (nodup_occurrences before).map_on fun o ho o' ho' heq => ?_
        obtain ⟨i, event⟩ := o
        obtain ⟨k, event'⟩ := o'
        obtain ⟨hdest, rfl⟩ := Prod.mk.inj heq
        have hi := mem_occurrences.mp ho
        have hk := mem_occurrences.mp ho'
        exact Prod.ext (hinj event ⟨lt_of_holds hi, hi⟩ ⟨lt_of_holds hk, hk⟩ hdest) rfl
      · intro o
        obtain ⟨i, event⟩ := o
        rw [mem_occurrences, hmem]
        by_cases hi : i < before.length
        · exact hiff event i hi
        · constructor
          · intro hi'
            exact absurd (hlen ▸ lt_of_holds hi') hi
          · intro hk
            obtain ⟨k, hk, -, hdest⟩ := hk
            unfold dest at hdest
            split_ifs at hdest with hs
            · exact absurd (hdest ▸ Nat.mod_lt _ (by omega)) hi
            · omega
    refine ⟨?_, _, hperm⟩
    have hsnd := hperm.map Prod.snd
    rwa [List.map_map] at hsnd

/-! ## The loops -/

/-- An event that drifts leaves its tick, and is in the next one. -/
theorem holds_driftEvent {amount : ℚ} {draw : ℕ → α → Fin 1000} {i : ℕ} {t t' : List (NSSet α)}
    {event : α} (hi : i < t.length) (h : driftEvent amount draw i t event = some t') :
    t'.length = t.length ∧ ∀ e, holds t' e
      = if e = event ∧ drifts amount draw event i = true then
          Function.update (Function.update (holds t e) i false) ((i + 1) % t.length) true
        else holds t e := by
  unfold driftEvent at h
  unfold drifts
  by_cases hdrawn : drawn (draw i event) amount = true
  · have hne : t.length ≠ 0 := by omega
    have hj : (i + 1) % t.length < t.length := Nat.mod_lt _ (by omega)
    have hrem : remainder ((i : ℤ) + 1) t.length = some (((i + 1) % t.length : ℕ) : ℤ) := by
      unfold remainder
      rw [if_neg hne]
      push_cast
      rfl
    rw [if_pos hdrawn] at h
    simp only [Option.bind_eq_bind, Option.bind_eq_some_iff, objectAtIndex_natCast, List.length_set,
      hrem] at h
    obtain ⟨events, hevents, j, hj', other, hother, ht'⟩ := h
    rw [← Option.some.inj hj', objectAtIndex_natCast] at hother
    rw [← Option.some.inj hj', Int.toNat_natCast] at ht'
    set t₁ := t.set i (events.removeObject event) with ht₁
    have hlen : t₁.length = t.length := List.length_set
    rw [← Option.some.inj ht']
    refine ⟨by rw [List.length_set, hlen], fun e => ?_⟩
    have hother' : other.elems.contains e = holds t₁ e ((i + 1) % t.length) := by
      unfold holds
      rw [hother]
      rfl
    have hevents' : events.elems.contains e = holds t e i := by
      unfold holds
      rw [hevents]
      rfl
    rw [holds_set (by rw [hlen]; exact hj), ht₁, holds_set hi]
    by_cases he : e = event
    · subst he
      have hremoved : (events.removeObject e).elems.contains e = false := by
        simp [NSSet.removeObject, events.nodup.mem_erase_iff]
      have hadded : (other.addObject e).elems.contains e = true := by simp [NSSet.addObject]
      rw [if_pos ⟨rfl, hdrawn⟩, hremoved, hadded]
    · -- the other events stay
      have hremoved : (events.removeObject event).elems.contains e = holds t e i := by
        rw [← hevents']
        simp [NSSet.removeObject, events.nodup.mem_erase_iff, he]
      have hadded : (other.addObject event).elems.contains e = holds t₁ e ((i + 1) % t.length) := by
        rw [← hother']
        simp [NSSet.addObject, he]
      rw [if_neg fun hand => he hand.1, hremoved, Function.update_eq_self, hadded, ht₁,
        holds_set hi, hremoved, Function.update_eq_self, Function.update_eq_self]
  · rw [if_neg hdrawn] at h
    rw [← Option.some.inj h]
    exact ⟨rfl, fun e => by rw [if_neg fun hand => hdrawn hand.2]⟩

theorem holds_driftEvents {amount : ℚ} {draw : ℕ → α → Fin 1000} {i : ℕ} {events : List α}
    (hnodup : events.Nodup) {t t' : List (NSSet α)} (hi : i < t.length)
    (h : events.foldlM (driftEvent amount draw i) t = some t') :
    t'.length = t.length ∧ ∀ e, holds t' e
      = if events.contains e && drifts amount draw e i then
          Function.update (Function.update (holds t e) i false) ((i + 1) % t.length) true
        else holds t e := by
  induction events generalizing t with
  | nil =>
    rw [List.foldlM_nil] at h
    rw [← Option.some.inj h]
    exact ⟨rfl, fun e => by simp⟩
  | cons event events ih =>
    rw [List.foldlM_cons, Option.bind_eq_bind, Option.bind_eq_some_iff] at h
    obtain ⟨t₁, h₁, hrest⟩ := h
    obtain ⟨hlen₁, hholds₁⟩ := holds_driftEvent hi h₁
    obtain ⟨hlen, hholds⟩ := ih (List.nodup_cons.mp hnodup).2 (by omega) hrest
    refine ⟨hlen.trans hlen₁, fun e => ?_⟩
    rw [hholds, hholds₁, hlen₁]
    by_cases he : e = event
    · subst he
      have hnot : e ∉ events := (List.nodup_cons.mp hnodup).1
      simp [hnot]
    · simp [he]

/-- A tick of the loop, seen from one event. -/
theorem holds_driftTick {amount : ℚ} {draw : ℕ → α → Fin 1000} {i : ℕ} {t t' : List (NSSet α)}
    (h : driftTick amount draw t i = some t') :
    t'.length = t.length ∧ ∀ e, holds t' e
      = moveToken t.length (drifts amount draw e) (holds t e) i := by
  unfold driftTick at h
  rw [objectAtIndex_natCast, Option.bind_eq_bind, Option.bind_eq_some_iff] at h
  obtain ⟨events, hevents, hfold⟩ := h
  have hi : i < t.length := (List.getElem?_eq_some_iff.mp hevents).1
  obtain ⟨hlen, hholds⟩ := holds_driftEvents events.nodup hi hfold
  refine ⟨hlen, fun e => ?_⟩
  have hhere : events.elems.contains e = holds t e i := by
    unfold holds
    rw [hevents]
    rfl
  rw [hholds, hhere]
  rfl

theorem holds_driftTicks {amount : ℚ} {draw : ℕ → α → Fin 1000} (ticks : List ℕ)
    {t t' : List (NSSet α)} (h : ticks.foldlM (driftTick amount draw) t = some t') :
    t'.length = t.length ∧ ∀ e, holds t' e
      = ticks.foldl (moveToken t.length (drifts amount draw e)) (holds t e) := by
  induction ticks generalizing t with
  | nil =>
    rw [List.foldlM_nil] at h
    rw [← Option.some.inj h]
    exact ⟨rfl, fun e => rfl⟩
  | cons i ticks ih =>
    rw [List.foldlM_cons, Option.bind_eq_bind, Option.bind_eq_some_iff] at h
    obtain ⟨t₁, h₁, hrest⟩ := h
    obtain ⟨hlen₁, hholds₁⟩ := holds_driftTick h₁
    obtain ⟨hlen, hholds⟩ := ih hrest
    refine ⟨hlen.trans hlen₁, fun e => ?_⟩
    rw [hholds, hholds₁, hlen₁, List.foldl_cons]

/-- `drift:` is a pass over the ticks, for every event. -/
theorem holds_drift {s s' : EWSequence α} {amount : ℚ} {draw : ℕ → α → Fin 1000}
    (h : s.drift amount draw = some s') :
    s'.timeline.length = s.timeline.length ∧ ∀ e, holds s'.timeline e
      = pass s.timeline.length (drifts amount draw e) (holds s.timeline e) := by
  unfold drift at h
  rw [Option.bind_eq_bind, Option.bind_eq_some_iff] at h
  obtain ⟨timeline, hfold, hs'⟩ := h
  rw [← Option.some.inj hs']
  exact holds_driftTicks _ hfold

/-- A call of `drift:` keeps the events and moves each by at most one tick if and only if no
event that drifts comes into a tick that holds it or lets it drift on, or it is carried round the
whole timeline. -/
theorem driftsOneStep_iff (s : EWSequence α) (amount : ℚ) (draw : ℕ → α → Fin 1000) :
    (∃ s', s.drift amount draw = some s' ∧ DriftsOneStep s.timeline s'.timeline) ↔
      ∀ event, Calm s.timeline.length (drifts amount draw event) (holds s.timeline event) ∨
        Round s.timeline.length (drifts amount draw event) (holds s.timeline event) := by
  obtain ⟨s', hs', -, -⟩ := drift_eq_some s amount draw
  obtain ⟨hlen, hholds⟩ := holds_drift hs'
  have hiff : DriftsOneStep s.timeline s'.timeline ↔
      ∀ event, Calm s.timeline.length (drifts amount draw event) (holds s.timeline event) ∨
        Round s.timeline.length (drifts amount draw event) (holds s.timeline event) := by
    rw [driftsOneStep_iff_forall hlen]
    refine forall_congr' fun event => ?_
    rw [hholds]
    by_cases hL : 0 < s.timeline.length
    · exact oneStep_pass_iff hL
    · -- a timeline without a tick
      constructor
      · intro _
        exact .inl fun i hi => absurd hi (by omega)
      · intro _
        exact ⟨fun _ => false, fun i hi => absurd hi.1 (by omega), fun j hj => absurd hj (by omega)⟩
  constructor
  · intro h
    obtain ⟨s'', hs'', hone⟩ := h
    rw [hs', Option.some.injEq] at hs''
    subst hs''
    exact hiff.mp hone
  · intro h
    exact ⟨s', hs', hiff.mpr h⟩

/-- An event that is let go twice in a row moves two ticks. -/
theorem not_driftsOneStep : ¬ ∀ (s : EWSequence ℕ) (amount : ℚ) (draw : ℕ → ℕ → Fin 1000),
    ∃ s', s.drift amount draw = some s' ∧ DriftsOneStep s.timeline s'.timeline := by
  intro h
  obtain ⟨s', hs', hone⟩ := h ⟨[⟨[7], List.nodup_singleton 7⟩, NSSet.empty, NSSet.empty], 0, false⟩
    (1 / 2) fun i _ => if i < 2 then 0 else 999
  obtain ⟨moved, hperm⟩ := hone.near
  have hfar : (2, 7) ∈ occurrences s'.timeline := by
    rw [← Option.some.inj ((by decide +kernel : some ({
      timeline := [NSSet.empty, NSSet.empty, ⟨[7], List.nodup_singleton 7⟩]
      pos := 0
      recording := false } : EWSequence ℕ) = _).trans hs')]
    decide
  have hnear := hperm.mem_iff.mp hfar
  cases hmoved : moved 0 7 with
  | true => simp [occurrences, driftsTo, dest, NSSet.empty, hmoved] at hnear
  | false => simp [occurrences, driftsTo, dest, NSSet.empty, hmoved] at hnear

end EWSequence

end PoopWorms.App
