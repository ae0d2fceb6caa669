import PoopWorms.App.ModelTheorems
import PoopWorms.App.Playback

/-!
# What flashes and what sounds

A worm and its sequence each observe the ticks. The sequence registers before its worm, so as
long as it records it is called first; `play` registers it again, behind the worm. From then on the
worm flashes what lies at the position before the sequence moves it on and fires what lies
there.
-/

namespace PoopWorms.App

open Octets Server Take EWSequence

/-- An observer of the ticks. -/
inductive Observer
  | worm
  | sequence
deriving DecidableEq

/-- `addObserver:` for the ticks. -/
def Observer.register (observers : List Observer) (o : Observer) : List Observer := observers ++ [o]

/-- `removeObserver:`. -/
def Observer.unregister (observers : List Observer) (o : Observer) : List Observer :=
  observers.filter (· ≠ o)

/-- What a tick of a worm and its sequence reads. -/
structure TickInput where
  input : WormInput
  order : List EWPitchEvent

/-- A worm, those of it that observe the ticks in the order in which they registered, and the
events whose splotches have flashed and those that have been fired in the last tick. -/
structure Stage where
  app : PWViewController
  w : ℕ
  observers : List Observer
  flashed : List EWPitchEvent
  fired : List EWPitchEvent

namespace Stage

variable (env : Platform)

/-- `initWithView:andAngle:`, where the sequence starts to record before the worm registers. -/
def initWithView (s : PWViewController) : Stage where
  app := s.initWithView env
  w := s.next
  observers :=
    Observer.register (Observer.register (Observer.unregister [] .sequence) .sequence) .worm
  flashed := []
  fired := []

def addNoteWithPitch (st : Stage) (pitch : Word) : Stage :=
  { st with app := st.app.addNoteWithPitch st.w pitch }

/-- `stopCreating`, which plays the sequence. -/
def stopCreating (st : Stage) : Stage :=
  { st with
    app := st.app.stopCreating st.w
    observers := Observer.register (Observer.unregister st.observers .sequence) .sequence }

/-- The events at the position; a worm that has cleared itself does not come to them. -/
def flashes (s : PWViewController) (w : ℕ) : List EWPitchEvent :=
  if (s.worm w).observing then
    ((s.worm w).sequence.seq.eventsAtTick (s.worm w).sequence.seq.pos).elim [] NSSet.elems
  else []

/-- The tick of an observer. -/
def deliver (t : TickInput) (st : Stage) : Observer → Stage
  | .worm =>
    let app := st.app.wormTick env st.w t.input
    { st with
      app
      observers :=
        if (app.worm st.w).observing then st.observers else Observer.unregister st.observers .worm
      flashed := flashes app st.w }
  | .sequence =>
    { st with
      app := st.app.sequenceTick env st.w t.order
      fired := ((st.app.worm st.w).sequence.step .tick).2 }

/-- The notification center posts a tick. -/
def tick (st : Stage) (t : TickInput) : Stage :=
  st.observers.foldl (deliver env t) { st with flashed := [], fired := [] }

/-! ## Runs -/

/-- What happens to a worm while it is created. -/
inductive Making
  | tap (pitch : Word)
  | tick (t : TickInput)

def make (st : Stage) : Making → Stage
  | .tap pitch => st.addNoteWithPitch pitch
  | .tick t => st.tick env t

/-- A worm, once it is created. -/
def made (s : PWViewController) (makings : List Making) : Stage :=
  (Runs.run (make env) (initWithView env s) makings).stopCreating

/-- In the last tick, the splotches have flashed of those events that have been fired. `shown` says
which events have a splotch: one in the place of the splotch before it has none. -/
def Agrees (shown : EWPitchEvent → Bool) (st : Stage) : Prop :=
  ∀ event, shown event = true → (event ∈ st.flashed ↔ event ∈ st.fired)

/-- The tick after the position. -/
def next (s : EWSequence EWPitchEvent) : ℕ := ((s.pos + 1) % s.timeline.length).toNat

/-- The sequence has one tick, or all events at the position and at the next tick that have a
splotch decay. -/
def Still (shown : EWPitchEvent → Bool) (st : Stage) (t : TickInput) : Prop :=
  (st.app.worm st.w).sequence.seq.length = 1 ∨
    ∀ event, shown event = true → ∀ i,
      i = (st.app.worm st.w).sequence.seq.pos.toNat ∨ i = next (st.app.worm st.w).sequence.seq →
      holds (st.app.worm st.w).sequence.seq.timeline event i = true →
        drawn (t.input.draw i event) (env.decayAmount (st.app.worm st.w).age) = true

/-! ## While a worm is created -/

variable {env} {st : Stage}

open PWViewController

/-- A worm on its way, and what has been recorded. -/
structure Makes (st : Stage) (takes : List (Take EWPitchEvent)) : Prop where
  observers : st.observers = [.sequence, .worm]
  growing : Growing (st.app.worm st.w)
  sequence : (st.app.worm st.w).sequence = Sequence.recorded takes
  nodup : (taps takes).Nodup
  old : ∀ event ∈ taps takes, event.ident < st.app.nextEvent

/-- A tick of a sequence changes the sequence of its worm, and makes no event. -/
theorem worm_sequenceTick (env : Platform) (s : PWViewController) (w : ℕ)
    (order : List EWPitchEvent) :
    (s.sequenceTick env w order).worm w
      = { s.worm w with sequence := (s.worm w).sequence.apply .tick } ∧
    (s.sequenceTick env w order).nextEvent = s.nextEvent := by
  obtain ⟨audio, htick⟩ := sequenceTick_eq env s w order
  rw [htick]
  exact ⟨Function.update_self .., rfl⟩

theorem makes_initWithView (s : PWViewController) : Makes (initWithView env s) [] := by
  have hworm : ((initWithView env s).app.worm (initWithView env s).w).sequence
      = Sequence.recorded [] := by
    unfold initWithView PWViewController.initWithView
    simp only [worm_modify_self]
    rfl
  obtain ⟨p, audio, hinit, hp⟩ := initWithView_eq env s
  refine ⟨rfl, ?_, hworm, List.nodup_nil, fun _ h => absurd h List.not_mem_nil⟩
  have hp' : (initWithView env s).app.worm (initWithView env s).w = p := by
    unfold initWithView
    rw [hinit]
    exact Function.update_self ..
  rw [hp']
  exact hp

theorem Makes.tap {takes : List (Take EWPitchEvent)} (h : Makes st takes) (pitch : Word) :
    Makes (st.addNoteWithPitch pitch) (takes ++ [.tap ⟨st.app.nextEvent, pitch⟩]) := by
  have hworm : (st.addNoteWithPitch pitch).app.worm st.w = { st.app.worm st.w with
      sequence := (st.app.worm st.w).sequence.apply (.addEvent ⟨st.app.nextEvent, pitch⟩) } :=
    Function.update_self ..
  have htaps : taps (takes ++ [Take.tap ⟨st.app.nextEvent, pitch⟩])
      = taps takes ++ [⟨st.app.nextEvent, pitch⟩] := taps_append ..
  constructor
  · exact h.observers
  · exact hworm ▸ h.growing.addEvent _
  · have hrun : Sequence.recorded (takes ++ [Take.tap ⟨st.app.nextEvent, pitch⟩])
        = (Sequence.recorded takes).apply (.addEvent ⟨st.app.nextEvent, pitch⟩) := by
      unfold Sequence.recorded
      rw [Runs.run_append, Runs.run_singleton]
      rfl
    rw [hrun, ← h.sequence]
    exact congrArg PWWorm.sequence hworm
  · rw [htaps, List.nodup_append]
    refine ⟨h.nodup, List.nodup_singleton _, fun event hevent event' hevent' heq => ?_⟩
    have hold := h.old event hevent
    rw [heq, List.mem_singleton.mp hevent'] at hold
    exact lt_irrefl _ hold
  · intro event hevent
    rw [htaps, List.mem_append, List.mem_singleton] at hevent
    rcases hevent with hold | rfl
    · exact Nat.lt_succ_of_lt (h.old event hold)
    · exact Nat.lt_succ_self _

theorem Makes.tick {takes : List (Take EWPitchEvent)} (h : Makes st takes) (t : TickInput) :
    Makes (st.tick env t) (takes ++ [.tick]) := by
  obtain ⟨hseq, hnext⟩ := worm_sequenceTick env st.app st.w t.order
  set app := st.app.sequenceTick env st.w t.order with happ
  have hworm : app.worm st.w = { st.app.worm st.w with
      sequence := (st.app.worm st.w).sequence.apply .tick } := hseq
  have hgrowing : Growing (app.worm st.w) := by
    rw [hworm]
    exact { h.growing with
      recording := (Sequence.recording_tick _).trans h.growing.recording }
  -- first the sequence, then the worm, which stays where it is
  have htick : st.tick env t = { st with
      app
      flashed := flashes app st.w
      fired := ((st.app.worm st.w).sequence.step .tick).2 } := by
    unfold Stage.tick
    rw [h.observers]
    simp only [List.foldl_cons, List.foldl_nil, deliver, ← happ, wormTick_of_growing hgrowing,
      hgrowing.observing, if_true]
  have htaps : taps (takes ++ [Take.tick]) = taps takes := by
    rw [taps_append]
    exact List.append_nil _
  rw [htick]
  constructor
  · exact h.observers
  · exact hgrowing
  · have hrun : Sequence.recorded (takes ++ [Take.tick])
        = (Sequence.recorded takes).apply .tick := by
      unfold Sequence.recorded
      rw [Runs.run_append, Runs.run_singleton]
      rfl
    rw [hrun, ← h.sequence]
    exact congrArg PWWorm.sequence hworm
  · rw [htaps]
    exact h.nodup
  · rw [htaps]
    intro event hevent
    simp only [hnext]
    exact h.old event hevent

theorem makes_run (env : Platform) (s : PWViewController) (makings : List Making) :
    ∃ takes, Makes (Runs.run (make env) (initWithView env s) makings) takes := by
  have hstep : ∀ (st : Stage) making, (∃ takes, st.Makes takes) →
      ∃ takes, (st.make env making).Makes takes := by
    intro st making h
    obtain ⟨takes, hmakes⟩ := h
    cases making with
    | tap pitch => exact ⟨_, hmakes.tap pitch⟩
    | tick t => exact ⟨_, hmakes.tick t⟩
  exact Runs.invariant hstep ⟨[], makes_initWithView s⟩ makings

/-! ## Once it plays -/

/-- A worm that plays: an event is at one tick only, and a worm that no longer observes the ticks
has none. -/
structure Plays (st : Stage) : Prop where
  recording : (st.app.worm st.w).sequence.seq.recording = false
  creating : (st.app.worm st.w).creating = false
  once : ∀ event i j, holds (st.app.worm st.w).sequence.seq.timeline event i = true →
    holds (st.app.worm st.w).sequence.seq.timeline event j = true → i = j
  observers : (st.observers = [.worm, .sequence] ∧ (st.app.worm st.w).observing = true) ∨
    (st.observers = [.sequence] ∧ (st.app.worm st.w).sequence.Silent)

theorem plays_made (s : PWViewController) (makings : List Making) : Plays (made env s makings) := by
  obtain ⟨takes, h⟩ := makes_run env s makings
  set st := Runs.run (make env) (initWithView env s) makings with hst
  have hworm : (made env s makings).app.worm (made env s makings).w = { st.app.worm st.w with
      sequence := (st.app.worm st.w).sequence.apply .play
      sequenceObserving := true
      creating := false
      splotchWorm := (st.app.worm st.w).splotchWorm.map fun _ => ⟨true⟩ } := Function.update_self ..
  have hrecorded := Sequence.recorded_recorded takes
  have hsequence : ((made env s makings).app.worm (made env s makings).w).sequence
      = (Sequence.recorded takes).apply .play := by rw [hworm, ← h.sequence]
  have hobservers : (made env s makings).observers = [.worm, .sequence] := by
    have hplay : (made env s makings).observers
        = Observer.register (Observer.unregister st.observers .sequence) .sequence := rfl
    rw [hplay, h.observers]
    rfl
  constructor
  · rw [hsequence, Sequence.seq_play]
    rfl
  · rw [hworm]
  · rw [hsequence, Sequence.seq_play]
    intro event i j hi hj
    exact tappedAt_unique h.nodup ((hrecorded.holds event i).mp hi)
      ((hrecorded.holds event j).mp hj)
  · refine .inl ⟨hobservers, ?_⟩
    rw [hworm]
    exact h.growing.observing

theorem holds_of_silent {s : Sequence EWPitchEvent} (h : s.Silent) (event : EWPitchEvent) (i : ℕ) :
    holds s.seq.timeline event i = false := by
  by_contra hholds
  obtain ⟨events, hevents, hmem⟩ := holds_eq_true.mp (by simpa using hholds)
  rw [h.not_mem (List.mem_of_getElem? hevents)] at hmem
  exact List.not_mem_nil hmem

/-- A worm that plays decays on its tick; it clears itself only if nothing is left. -/
theorem worm_wormTick (env : Platform) (s : PWViewController) (w : ℕ) (input : WormInput)
    (hcreating : (s.worm w).creating = false) :
    ((s.wormTick env w input).worm w).sequence
      = (s.worm w).sequence.apply (.decay (env.decayAmount (s.worm w).age) input.draw) ∧
    ((s.wormTick env w input).worm w).creating = false ∧
    (((s.wormTick env w input).worm w).observing = (s.worm w).observing ∨
      ((s.wormTick env w input).worm w).observing = false ∧
        ((s.wormTick env w input).worm w).sequence.Silent) := by
  constructor
  · unfold PWViewController.wormTick
    rw [hcreating, if_neg Bool.false_ne_true]
    extract_lets age s₁ s₂ offScreen dead s₃
    have hs₃ : (s₃.worm w).sequence
        = (s.worm w).sequence.apply (.decay (env.decayAmount age) input.draw) := by
      simp only [s₃, s₂, s₁, worm_modify_self]
    split_ifs
    · obtain ⟨audio, hclear⟩ := clearWorm_eq env s₃ w
      have hsame : ((s₃.modify w PWWorm.clear).worm w).sequence = (s₃.worm w).sequence := by
        rw [worm_modify_self]
        rfl
      rw [hclear, ← hs₃]
      exact hsame
    · obtain ⟨audio, acts, hmove, -⟩ := moveWorm_eq env s₃ w input.hit
      rw [hmove]
      exact hs₃
  · obtain ⟨audio, q, acts, htick, hq⟩ := wormTick_eq env s w input
    have hworm : (s.wormTick env w input).worm w = q := by
      rw [htick]
      exact worm_modify_self s w fun _ => q
    rw [hworm]
    rcases hq with hlives | hdies
    · rw [hlives.eq]
      exact ⟨hcreating, .inl rfl⟩
    · have hsilent := hdies.silent
      rw [hdies.eq]
      exact ⟨hcreating, .inr ⟨rfl, hsilent⟩⟩

/-- A sequence that plays fires what lies on the next tick. -/
theorem mem_fired_iff {s : Sequence EWPitchEvent} (h : s.seq.recording = false)
    (event : EWPitchEvent) :
    event ∈ (s.step .tick).2 ↔ holds s.seq.timeline event (next s.seq) = true := by
  obtain ⟨-, events, hevents, hfired⟩ := Sequence.tick_of_playing h
  have hnext : 0 ≤ (s.seq.pos + 1) % s.seq.timeline.length := by
    have hlen := s.inBounds.length_pos
    exact Int.emod_nonneg _ (by omega)
  rw [← Int.toNat_of_nonneg hnext, objectAtIndex_natCast] at hevents
  rw [hfired]
  unfold holds next
  rw [hevents]
  simp

/-- A worm that observes the ticks flashes what lies at the position. -/
theorem mem_flashes_iff {s : PWViewController} {w : ℕ} (hobserving : (s.worm w).observing = true)
    (event : EWPitchEvent) :
    event ∈ flashes s w ↔
      holds (s.worm w).sequence.seq.timeline event (s.worm w).sequence.seq.pos.toNat = true := by
  have hbounds := (s.worm w).sequence.inBounds
  have hevents : (s.worm w).sequence.seq.eventsAtTick (s.worm w).sequence.seq.pos
      = (s.worm w).sequence.seq.timeline[(s.worm w).sequence.seq.pos.toNat]? := by
    unfold eventsAtTick objectAtIndex
    rw [if_pos ⟨hbounds.nonneg, hbounds.lt⟩, if_pos hbounds.nonneg]
  unfold flashes holds
  rw [if_pos hobserving, hevents]
  cases (s.worm w).sequence.seq.timeline[(s.worm w).sequence.seq.pos.toNat]? with
  | none => simp
  | some events => simp

/-- The tick of the sequence leaves a worm that plays as it is. -/
theorem Plays.sequenceTick {app : PWViewController} {w : ℕ} {observers : List Observer}
    {flashed fired : List EWPitchEvent} (h : Plays ⟨app, w, observers, flashed, fired⟩)
    (order flashed' fired' : List EWPitchEvent) :
    Plays ⟨app.sequenceTick env w order, w, observers, flashed', fired'⟩ := by
  have hworm := (worm_sequenceTick env app w order).1
  have hseq : ((app.worm w).sequence.apply .tick).seq.timeline
      = (app.worm w).sequence.seq.timeline := by
    rw [(Sequence.tick_of_playing h.recording).1]
  constructor
  · simp only [hworm, Sequence.recording_tick]
    exact h.recording
  · simp only [hworm]
    exact h.creating
  · simp only [hworm, hseq]
    exact h.once
  · simp only [hworm]
    rcases h.observers with ⟨hboth, hobserving⟩ | ⟨hone, hsilent⟩
    · exact .inl ⟨hboth, hobserving⟩
    · exact .inr ⟨hone, hsilent.tick⟩

/-- What a tick of a worm that plays shows, and what it sounds. -/
theorem Plays.tick_eq (env : Platform) (h : Plays st) (t : TickInput) :
    (st.tick env t).Plays ∧
    (∀ event, event ∈ (st.tick env t).flashed ↔
      holds ((st.app.worm st.w).sequence.seq.decay (env.decayAmount (st.app.worm st.w).age)
        t.input.draw).timeline event (st.app.worm st.w).sequence.seq.pos.toNat = true) ∧
    ∀ event, event ∈ (st.tick env t).fired ↔
      holds ((st.app.worm st.w).sequence.seq.decay (env.decayAmount (st.app.worm st.w).age)
        t.input.draw).timeline event (next (st.app.worm st.w).sequence.seq) = true := by
  rcases h.observers with ⟨hboth, hobserving⟩ | ⟨hone, hsilent⟩
  · -- the worm comes first
    obtain ⟨hsequence, hcreating, hlives⟩ := worm_wormTick env st.app st.w t.input h.creating
    set app := st.app.wormTick env st.w t.input with happ
    set d := (st.app.worm st.w).sequence.seq.decay (env.decayAmount (st.app.worm st.w).age)
      t.input.draw with hd
    set observers := if (app.worm st.w).observing then st.observers
      else Observer.unregister st.observers .worm with hobservers
    have htick : st.tick env t = ⟨app.sequenceTick env st.w t.order, st.w, observers,
        flashes app st.w, ((app.worm st.w).sequence.step .tick).2⟩ := by
      unfold Stage.tick
      rw [hobservers, hboth]
      rfl
    have hseq : (app.worm st.w).sequence.seq = d := by rw [hsequence, Sequence.seq_decay]
    have hrecording : (app.worm st.w).sequence.seq.recording = false := by
      rw [hseq]
      exact h.recording
    have hplays : Plays ⟨app, st.w, observers, [], []⟩ := by
      refine ⟨hrecording, hcreating, ?_, ?_⟩
      · simp only [hseq, hd, holds_decay, Bool.and_eq_true]
        exact fun event i j hi hj => h.once event i j hi.1 hj.1
      · rcases hlives with hlives | ⟨hgone, hsilent⟩
        · have hstill : (app.worm st.w).observing = true := hlives.trans hobserving
          exact .inl ⟨by rw [hobservers, if_pos hstill, hboth], hstill⟩
        · refine .inr ⟨?_, hsilent⟩
          rw [hobservers, hgone, if_neg Bool.false_ne_true, hboth]
          rfl
    have hpos : d.pos = (st.app.worm st.w).sequence.seq.pos := rfl
    have hnext : next d = next (st.app.worm st.w).sequence.seq := by
      unfold next
      rw [hpos, hd, decay, List.length_mapIdx]
    rw [htick]
    refine ⟨hplays.sequenceTick t.order _ _, fun event => ?_, fun event => ?_⟩
    · rw [← hpos]
      rcases hlives with hlives | ⟨hgone, hsilent⟩
      · simp only [mem_flashes_iff (hlives.trans hobserving), hseq]
      · -- it has cleared itself
        have hnone : flashes app st.w = [] := if_neg (by simp [hgone])
        have hempty := holds_of_silent hsilent event d.pos.toNat
        rw [hseq] at hempty
        simp [hnone, hempty]
    · simp only [mem_fired_iff hrecording, hseq, hnext]
  · -- only the sequence is left
    have htick : st.tick env t = ⟨st.app.sequenceTick env st.w t.order, st.w, st.observers, [],
        ((st.app.worm st.w).sequence.step .tick).2⟩ := by
      unfold Stage.tick
      rw [hone]
      simp only [List.foldl_cons, List.foldl_nil, deliver]
    have hplays : Plays ⟨st.app, st.w, st.observers, st.flashed, st.fired⟩ := h
    rw [htick]
    refine ⟨hplays.sequenceTick t.order _ _, fun event => ?_, fun event => ?_⟩
    · simp [holds_decay, holds_of_silent hsilent]
    · simp [holds_decay, holds_of_silent hsilent, hsilent.fires_nothing]

/-- Two ticks of a sequence follow each other, unless it has only one. -/
theorem next_ne {s : EWSequence EWPitchEvent} (h : s.InBounds) :
    s.length = 1 ∧ s.pos.toNat = next s ∨ s.length ≠ 1 ∧ s.pos.toNat ≠ next s := by
  have hnonneg := h.nonneg
  have hlt := h.lt
  unfold next EWSequence.length
  by_cases hlast : s.pos + 1 < s.timeline.length
  · rw [Int.emod_eq_of_lt (by omega) hlast]
    omega
  · have hround : s.pos + 1 = s.timeline.length := by omega
    rw [hround, Int.emod_self]
    omega

/-- A tick of a worm that plays agrees exactly if the worm is still. -/
theorem Plays.agrees_tick_iff (h : Plays st) (shown : EWPitchEvent → Bool) (t : TickInput) :
    Agrees shown (st.tick env t) ↔ Still env shown st t := by
  obtain ⟨-, hflashed, hfired⟩ := h.tick_eq env t
  unfold Agrees Still
  simp only [hflashed, hfired, holds_decay, Bool.and_eq_true]
  set seq := (st.app.worm st.w).sequence.seq with hseq
  have honce : ∀ event i j, holds seq.timeline event i = true → holds seq.timeline event j = true →
      i = j := h.once
  rcases next_ne (st.app.worm st.w).sequence.inBounds with ⟨hone, hsame⟩ | ⟨hmany, hne⟩
  · rw [← hseq] at hone hsame
    rw [hsame]
    exact ⟨fun _ => .inl hone, fun _ event _ => Iff.rfl⟩
  · rw [← hseq] at hmany hne
    constructor
    · intro hagrees
      refine .inr fun event hshown i hi hholds => ?_
      -- what does not decay would be seen or heard alone
      by_contra hdrawn
      have hiff := hagrees event hshown
      have hkept :
          (!drawn (t.input.draw i event) (env.decayAmount (st.app.worm st.w).age)) = true := by
        simpa using hdrawn
      rcases hi with rfl | rfl
      · exact hne (honce event _ _ hholds (hiff.mp ⟨hholds, hkept⟩).1)
      · exact hne (honce event _ _ (hiff.mpr ⟨hholds, hkept⟩).1 hholds)
    · intro hstill event hshown
      have hdecays := hstill.resolve_left hmany event hshown
      have hgone : ∀ i, i = seq.pos.toNat ∨ i = next seq → ¬ (holds seq.timeline event i = true ∧
          (!drawn (t.input.draw i event) (env.decayAmount (st.app.worm st.w).age)) = true) := by
        intro i hi hkept
        rw [hdecays i hi hkept.1] at hkept
        exact Bool.false_ne_true hkept.2
      exact iff_of_false (hgone _ (.inl rfl)) (hgone _ (.inr rfl))

/-- Every tick of a worm after its creation flashes what its sequence fires if and only if at every
tick the sequence has one tick, or what lies at the position and at the next tick decays. -/
theorem agrees_run_iff (env : Platform) (shown : EWPitchEvent → Bool) (s : PWViewController)
    (makings : List Making) (ticks : List TickInput) :
    Runs.Guarded (Stage.tick env) (fun st t => Agrees shown (st.tick env t)) (made env s makings)
        ticks ↔
      Runs.Guarded (Stage.tick env) (Still env shown) (made env s makings) ticks := by
  have hstep : ∀ (st : Stage) t, st.Plays → (st.tick env t).Plays :=
    fun st t h => (h.tick_eq env t).1
  have hiff : ∀ (st : Stage) t, st.Plays →
      (Agrees shown (st.tick env t) ↔ Still env shown st t) :=
    fun st t h => h.agrees_tick_iff shown t
  exact Runs.guarded_congr hstep hiff (plays_made s makings) ticks

/-- A tick that nobody reads anything from. -/
def plainTick : TickInput := ⟨⟨fun _ _ => Fin.last 999, false, none⟩, []⟩

/-- A worm of two ticks with one note: the note sounds on a tick on which nothing flashes. -/
theorem not_agrees : ¬ ∀ (env : Platform) (shown : EWPitchEvent → Bool) (s : PWViewController)
    (makings : List Making) (ticks : List TickInput),
    Runs.Guarded (Stage.tick env) (fun st t => Agrees shown (st.tick env t)) (made env s makings)
      ticks := by
  intro h
  have hagrees := (h .young (fun _ => true) PWViewController.init [.tap 0#32, .tick plainTick]
    [plainTick]).1
  have hfired : ((made .young PWViewController.init [.tap 0#32, .tick plainTick]).tick .young
      plainTick).fired = [⟨0, 0#32⟩] := by decide +kernel
  have hflashed : ((made .young PWViewController.init [.tap 0#32, .tick plainTick]).tick .young
      plainTick).flashed = [] := by decide +kernel
  have hevent := (hagrees ⟨0, 0#32⟩ rfl).mpr (by rw [hfired]; exact List.mem_cons_self)
  rw [hflashed] at hevent
  exact List.not_mem_nil hevent

end Stage

end PoopWorms.App
