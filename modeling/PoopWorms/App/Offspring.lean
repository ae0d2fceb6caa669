import PoopWorms.App.MatingPass
import PoopWorms.App.Playback

/-!
# What an offspring gets from its parents

On every beat an offspring first ticks, which makes room for one more tick, and then gets the note
that the draws pick. So its timeline is a tick longer than it was meant to be, and a note lies
one tick behind the tick that it was picked from. The notes are picked from the mother alone:
where the events of the father should be looked up, the mother's are.
-/

namespace PoopWorms.App

open Octets Server Take MatingLoop

namespace PWViewController

variable {env : Platform} {s : PWViewController}

/-- The pitches of a sequence at a tick. -/
def pitchesAt (s : EWSequence EWPitchEvent) (t : ℕ) : List Word :=
  ((s.timeline[t]?).elim [] NSSet.elems).map EWPitchEvent.pitch

/-- The pitch that a draw picks from the events of a tick. -/
def pick (events : Option (NSSet EWPitchEvent)) (choice : ℕ) : Option Word :=
  (events.bind fun events => events.anyObject choice).map EWPitchEvent.pitch

/-- The pitch that the draws of a beat pick from the mother: the draw for the father comes last. -/
def inherits (mother : EWSequence EWPitchEvent) (draw : BeatDraws) (i : ℕ) : Option Word :=
  ((if draw.fatherDraw.val = 0 then pick (mother.eventsAtTick i) draw.fatherEvent else none).or
    (if draw.motherDraw.val = 0 then pick (mother.eventsAtTick i) draw.motherEvent else none)).filter
      (· ≠ noPitch)

/-- The length that is drawn for an offspring. -/
def drawnLength (motherLength fatherLength extra : ℕ) : ℕ :=
  min motherLength fatherLength +
    if 0 < max motherLength fatherLength - min motherLength fatherLength then
      extra % (max motherLength fatherLength - min motherLength fatherLength) else 0

theorem worm_withWorm_self (s : PWViewController) (p : PWWorm) (nextEvent : ℕ) (audio : Audio) :
    (s.withWorm p nextEvent audio).worm s.next = p := Function.update_self ..

/-! ## The recording of an offspring -/

/-- What is recorded on a beat. -/
def beatTakes (pitch : Option Word) (ident : ℕ) : List (Take EWPitchEvent) :=
  .tick :: pitch.toList.map fun pitch => .tap ⟨ident, pitch⟩

/-- A pitch is recorded after `t` ticks. -/
def HeardAt (takes : List (Take EWPitchEvent)) (pitch : Word) (t : ℕ) : Prop :=
  ∃ event, TappedAt takes event t ∧ event.pitch = pitch

theorem ticks_beatTakes (takes : List (Take EWPitchEvent)) (pitch : Option Word) (ident : ℕ) :
    ticks (takes ++ beatTakes pitch ident) = ticks takes + 1 := by
  rw [ticks_append]
  cases pitch with
  | none => rfl
  | some pitch => rfl

/-- On a beat, a pitch is recorded behind the tick. -/
theorem heardAt_beatTakes {takes : List (Take EWPitchEvent)} {picked : Option Word} {ident : ℕ}
    {pitch : Word} {t : ℕ} :
    HeardAt (takes ++ beatTakes picked ident) pitch t ↔
      HeardAt takes pitch t ∨ picked = some pitch ∧ t = ticks takes + 1 := by
  have htick : ∀ event, TappedAt (takes ++ [Take.tick]) event t ↔ TappedAt takes event t := by
    intro event
    rw [tappedAt_concat]
    simp
  cases picked with
  | none =>
    unfold HeardAt beatTakes
    simp [htick]
  | some picked =>
    have hsplit : takes ++ beatTakes (some picked) ident
        = (takes ++ [Take.tick]) ++ [.tap ⟨ident, picked⟩] := by
      rw [List.append_assoc]
      rfl
    have hticks : ticks (takes ++ [Take.tick]) = ticks takes + 1 := ticks_append ..
    unfold HeardAt
    rw [hsplit]
    have htap : ∀ event, TappedAt ((takes ++ [Take.tick]) ++ [.tap ⟨ident, picked⟩]) event t ↔
        TappedAt takes event t ∨ Take.tap ⟨ident, picked⟩ = Take.tap event ∧ t = ticks takes + 1 := by
      intro event
      rw [tappedAt_concat, htick, hticks]
    simp only [htap]
    constructor
    · intro h
      obtain ⟨event, hold | ⟨hnew, ht⟩, hpitch⟩ := h
      · exact .inl ⟨event, hold, hpitch⟩
      · rw [← Take.tap.inj hnew] at hpitch
        exact .inr ⟨congrArg some hpitch, ht⟩
    · intro h
      rcases h with ⟨event, hold, hpitch⟩ | ⟨hpicked, ht⟩
      · exact ⟨event, .inl hold, hpitch⟩
      · exact ⟨⟨ident, picked⟩, .inr ⟨rfl, ht⟩, Option.some.inj hpicked⟩

/-- The pitch after both draws: the code's variable, which starts from `noPitch`. -/
theorem filter_pick (motherEvent fatherEvent : Option EWPitchEvent) (motherDraw : Fin 2)
    (fatherDraw : Fin 3) :
    (((if fatherDraw.val = 0 then fatherEvent.map EWPitchEvent.pitch else none).or
      (if motherDraw.val = 0 then motherEvent.map EWPitchEvent.pitch else none)).filter (· ≠ noPitch)) =
      let pitch := noPitch
      let pitch :=
        match motherEvent with
        | some event => if motherDraw = 0 then event.pitch else pitch
        | none => pitch
      let pitch :=
        match fatherEvent with
        | some event => if fatherDraw = 0 then event.pitch else pitch
        | none => pitch
      if pitch ≠ noPitch then some pitch else none := by
  cases motherEvent with
  | none =>
    cases fatherEvent with
    | none => simp
    | some f => by_cases hf : fatherDraw = 0 <;> simp [hf, Option.filter_some]
  | some m =>
    cases fatherEvent with
    | none => by_cases hm : motherDraw = 0 <;> simp [hm, Option.filter_some]
    | some f =>
      by_cases hf : fatherDraw = 0 <;> by_cases hm : motherDraw = 0 <;>
        simp [hf, hm, Option.filter_some]

/-- A beat adds the note that its draws pick from the mother. -/
theorem offspringBeat_pick (env : Platform) {mother : ℕ} (hmother : mother ≠ s.next)
    (draws : OffspringDraws) (i : ℕ) {p : PWWorm} (h : Growing p)
    {takes : List (Take EWPitchEvent)} (htakes : p.sequence = Sequence.recorded takes)
    (nextEvent : ℕ) (audio : Audio) :
    ∃ p' nextEvent' audio',
      offspringBeat env mother s.next draws (s.withWorm p nextEvent audio) i
        = s.withWorm p' nextEvent' audio' ∧ Growing p' ∧
      p'.sequence = Sequence.recorded
        (takes ++ beatTakes (inherits (s.worm mother).sequence.seq (draws.beat i) i)
          nextEvent) := by
  have htakes₁ : p.ticked.sequence = Sequence.recorded (takes ++ [.tick]) := by
    unfold Sequence.recorded
    rw [Runs.run_append, Runs.run_singleton, PWWorm.ticked, htakes]
    rfl
  unfold offspringBeat
  extract_lets draw s₁ s₂ eventsAtTick motherEvent fatherEvent pitch pitch' pitch''
  obtain ⟨a₁, hs₂⟩ : ∃ a₁, s₂ = s.withWorm p.ticked nextEvent a₁ :=
    tick_withWorm env h nextEvent audio _
  have hm : (s.withWorm p.ticked nextEvent a₁).worm mother = s.worm mother :=
    Function.update_of_ne hmother ..
  have hevents : eventsAtTick = (s.worm mother).sequence.seq.eventsAtTick i := by
    simp only [eventsAtTick, hs₂, hm]
  have hpick : inherits (s.worm mother).sequence.seq (draws.beat i) i
      = if pitch'' ≠ noPitch then some pitch'' else none := by
    unfold inherits pick
    rw [← hevents]
    exact filter_pick motherEvent fatherEvent draw.motherDraw draw.fatherDraw
  rw [hs₂, hpick]
  split_ifs with hpitch
  · refine ⟨_, _, _, addNoteWithPitch_withWorm _ _ _ _, h.ticked.addEvent _, ?_⟩
    · have hsplit : takes ++ beatTakes (some pitch'') nextEvent
          = (takes ++ [Take.tick]) ++ [.tap ⟨nextEvent, pitch''⟩] := by
        rw [List.append_assoc]
        rfl
      rw [hsplit, Sequence.recorded, Runs.run_append, Runs.run_singleton, htakes₁]
      rfl
  · exact ⟨p.ticked, nextEvent, a₁, rfl, h.ticked, htakes₁⟩

/-- The beats record what their draws pick, each behind a tick. -/
theorem foldl_offspringBeat_pick (env : Platform) {mother : ℕ} (hmother : mother ≠ s.next)
    (draws : OffspringDraws) {p : PWWorm} (h : Growing p)
    (hsequence : p.sequence = Sequence.recorded []) (nextEvent : ℕ) (audio : Audio) (n : ℕ) :
    ∃ p' nextEvent' audio' takes,
      (List.range n).foldl (offspringBeat env mother s.next draws) (s.withWorm p nextEvent audio)
        = s.withWorm p' nextEvent' audio' ∧ Growing p' ∧
      p'.sequence = Sequence.recorded takes ∧ ticks takes = n ∧
      ∀ pitch t, HeardAt takes pitch t ↔
        ∃ i < n, t = i + 1 ∧ inherits (s.worm mother).sequence.seq (draws.beat i) i = some pitch := by
  induction n with
  | zero =>
    refine ⟨p, nextEvent, audio, [], rfl, h, hsequence, rfl, fun pitch t => ?_⟩
    constructor
    · intro hheard
      exact absurd hheard.choose_spec.1 not_tappedAt_nil
    · intro hbeat
      exact absurd hbeat.choose_spec.1 (Nat.not_lt_zero _)
  | succ n ih =>
    obtain ⟨p₁, n₁, a₁, takes, hbeats, h₁, hsequence₁, hticks, hheard⟩ := ih
    obtain ⟨p₂, n₂, a₂, hbeat, h₂, hsequence₂⟩ :=
      offspringBeat_pick env hmother draws n h₁ hsequence₁ n₁ a₁
    refine ⟨p₂, n₂, a₂, _, ?_, h₂, hsequence₂, by rw [ticks_beatTakes, hticks], fun pitch t => ?_⟩
    · rw [List.range_succ, List.foldl_append, hbeats, List.foldl_cons, List.foldl_nil, hbeat]
    · rw [heardAt_beatTakes, hheard, hticks]
      constructor
      · intro hor
        rcases hor with ⟨i, hi, ht, hpick⟩ | ⟨hpick, ht⟩
        · exact ⟨i, Nat.lt_succ_of_lt hi, ht, hpick⟩
        · exact ⟨n, Nat.lt_succ_self n, ht, hpick⟩
      · intro hbeat
        obtain ⟨i, hi, ht, hpick⟩ := hbeat
        by_cases hin : i = n
        · exact .inr ⟨hin ▸ hpick, by rw [ht, hin]⟩
        · exact .inl ⟨i, by omega, ht, hpick⟩

/-- An offspring, and what it plays. -/
theorem offspringOf_pick (env : Platform) (s : PWViewController) {mother : ℕ}
    (hmother : mother < s.next) (father : ℕ) {draws : OffspringDraws} (hcoin : draws.coin ≠ 0) :
    ∃ p nextEvent audio takes, s.offspringOf env mother father draws
        = (s.withWorm p nextEvent audio, some s.next) ∧
      p.sequence = Sequence.played takes ∧
      ticks takes = drawnLength (s.worm mother).sequence.seq.length
        (s.worm father).sequence.seq.length draws.extra ∧
      ∀ pitch t, HeardAt takes pitch t ↔
        ∃ i < ticks takes, t = i + 1 ∧
          inherits (s.worm mother).sequence.seq (draws.beat i) i = some pitch := by
  unfold offspringOf
  rw [if_neg hcoin]
  extract_lets motherLength fatherLength lengthDiff minLength newLength worm s₁ s₂ s₃ m f
  have hlength : newLength = drawnLength (s.worm mother).sequence.seq.length
      (s.worm father).sequence.seq.length draws.extra := rfl
  set p₀ : PWWorm := { PWWorm.unallocated with
    sequence := Sequence.init.apply .record
    sequenceObserving := true
    creating := true
    splotchWorm := some ⟨false⟩
    retains := 1
    observing := true } with hp₀
  have hinit : s₁ = s.withWorm p₀ s.nextEvent (s.audio.mantleSynths env.fpu) := rfl
  have h₀ : Growing p₀ := by
    refine ⟨rfl, rfl, rfl, ?_, rfl, rfl, rfl⟩
    rw [hp₀]
    exact (Sequence.recorded_recorded []).recording
  obtain ⟨p₁, n₁, a₁, takes, hbeats, h₁, hsequence, hticks, hheard⟩ :=
    foldl_offspringBeat_pick env hmother.ne draws h₀ rfl s.nextEvent (s.audio.mantleSynths env.fpu)
      newLength
  have hs₂ : s₂ = s.withWorm p₁ n₁ a₁ := by
    simp only [s₂, hinit, worm]
    exact hbeats
  have hs₃ : s₃ = s.withWorm p₁.born n₁ a₁ := by
    simp only [s₃, hs₂, worm]
    exact stopCreating_withWorm h₁ n₁ a₁
  have hplays : p₁.born.sequence = Sequence.played takes := by
    rw [PWWorm.born, Sequence.played, ← hsequence]
  rw [← hticks] at hheard
  rw [hs₃]
  split_ifs
  · exact ⟨p₁.born, n₁, a₁.eatEffect env.fpu s.next m, takes, rfl, hplays, hticks ▸ hlength, hheard⟩
  · exact ⟨p₁.born, n₁, a₁.eatEffect env.fpu s.next f, takes, rfl, hplays, hticks ▸ hlength, hheard⟩
  · exact ⟨p₁.born, n₁, a₁, takes, rfl, hplays, hticks ▸ hlength, hheard⟩

/-! ## Heredity -/

/-- A note of pitch `pitch` at tick `t` comes from a parent: it is the mother's, or the father's if
his draw succeeds there, and a parent whose draw succeeds there has a note there. -/
def TakesAfter (mother father : EWSequence EWPitchEvent) (draws : OffspringDraws) (beats t : ℕ)
    (pitch : Word) : Prop :=
  (pitch ∈ pitchesAt mother t ∨
    (t < beats ∧ (draws.beat t).fatherDraw.val = 0) ∧ pitch ∈ pitchesAt father t) ∧
  ((t < beats ∧ (draws.beat t).motherDraw.val = 0) ∧ pitchesAt mother t ≠ [] ∨
    (t < beats ∧ (draws.beat t).fatherDraw.val = 0) ∧ pitchesAt father t ≠ [])

instance (mother father : EWSequence EWPitchEvent) (draws : OffspringDraws) (beats t : ℕ)
    (pitch : Word) : Decidable (TakesAfter mother father draws beats t pitch) :=
  inferInstanceAs (Decidable (
    (pitch ∈ pitchesAt mother t ∨
      (t < beats ∧ (draws.beat t).fatherDraw.val = 0) ∧ pitch ∈ pitchesAt father t) ∧
    ((t < beats ∧ (draws.beat t).motherDraw.val = 0) ∧ pitchesAt mother t ≠ [] ∨
      (t < beats ∧ (draws.beat t).fatherDraw.val = 0) ∧ pitchesAt father t ≠ [])))

/-- All notes of a child come from its parents. -/
def Heredity (mother father child : EWSequence EWPitchEvent) (draws : OffspringDraws)
    (beats : ℕ) : Prop :=
  ∀ t, ∀ pitch ∈ pitchesAt child t, TakesAfter mother father draws beats t pitch

theorem mem_pitchesAt {seq : EWSequence EWPitchEvent} {t : ℕ} {pitch : Word} :
    pitch ∈ pitchesAt seq t ↔
      ∃ event, EWSequence.holds seq.timeline event t = true ∧ event.pitch = pitch := by
  unfold pitchesAt
  rw [List.mem_map]
  unfold EWSequence.holds
  cases seq.timeline[t]? with
  | none => simp
  | some events => simp

/-- What is played at a tick was recorded there. -/
theorem mem_pitchesAt_played {takes : List (Take EWPitchEvent)} {t : ℕ} {pitch : Word} :
    pitch ∈ pitchesAt (Sequence.played takes).seq t ↔ HeardAt takes pitch t := by
  rw [mem_pitchesAt, Sequence.played, Sequence.seq_play]
  refine exists_congr fun event => and_congr_left fun _ => ?_
  exact (Sequence.recorded_recorded takes).holds event t

/-- All notes of an offspring come from its parents if and only if the pitch that a beat picks
from the mother could come from them on the next tick, too. -/
theorem heredity_iff (env : Platform) (s : PWViewController) (mother father : ℕ)
    (draws : OffspringDraws) (hmother : mother < s.next) (hcoin : draws.coin ≠ 0) :
    (∃ s' child, s.offspringOf env mother father draws = (s', some child) ∧
      Heredity (s.worm mother).sequence.seq (s.worm father).sequence.seq
        (s'.worm child).sequence.seq draws
        (drawnLength (s.worm mother).sequence.seq.length (s.worm father).sequence.seq.length
          draws.extra)) ↔
      ∀ i < drawnLength (s.worm mother).sequence.seq.length (s.worm father).sequence.seq.length
          draws.extra,
        ∀ pitch ∈ inherits (s.worm mother).sequence.seq (draws.beat i) i,
          TakesAfter (s.worm mother).sequence.seq (s.worm father).sequence.seq draws
            (drawnLength (s.worm mother).sequence.seq.length (s.worm father).sequence.seq.length
              draws.extra) (i + 1) pitch := by
  obtain ⟨p, nextEvent, audio, takes, hborn, hsequence, hticks, hheard⟩ :=
    offspringOf_pick env s hmother father hcoin
  rw [← hticks]
  set motherSeq := (s.worm mother).sequence.seq
  set fatherSeq := (s.worm father).sequence.seq
  have hchild : ((s.withWorm p nextEvent audio).worm s.next).sequence = Sequence.played takes := by
    rw [worm_withWorm_self, hsequence]
  have hiff : Heredity motherSeq fatherSeq (Sequence.played takes).seq draws (ticks takes) ↔
      ∀ i < ticks takes, ∀ pitch ∈ inherits motherSeq (draws.beat i) i,
        TakesAfter motherSeq fatherSeq draws (ticks takes) (i + 1) pitch := by
    unfold Heredity
    simp only [mem_pitchesAt_played, hheard]
    constructor
    · intro h i hi pitch hpick
      exact h (i + 1) pitch ⟨i, hi, rfl, hpick⟩
    · intro h t pitch hbeat
      obtain ⟨i, hi, rfl, hpick⟩ := hbeat
      exact h i hi pitch hpick
  rw [← hiff]
  constructor
  · intro h
    obtain ⟨s', child, heq, hheredity⟩ := h
    rw [hborn, Prod.mk.injEq] at heq
    rw [← heq.1, ← Option.some.inj heq.2, hchild] at hheredity
    exact hheredity
  · intro h
    refine ⟨_, _, hborn, ?_⟩
    rwa [hchild]

/-- Two worms that had one touch each. -/
theorem heredity_iff_of_two_worms :
    (∃ s' child, (population 2).offspringOf .young 0 1 .plain = (s', some child) ∧
      Heredity ((population 2).worm 0).sequence.seq
        ((population 2).worm 1).sequence.seq (s'.worm child).sequence.seq .plain
        (drawnLength ((population 2).worm 0).sequence.seq.length
          ((population 2).worm 1).sequence.seq.length OffspringDraws.plain.extra)) ↔
      ∀ i < drawnLength ((population 2).worm 0).sequence.seq.length
          ((population 2).worm 1).sequence.seq.length OffspringDraws.plain.extra,
        ∀ pitch ∈ inherits ((population 2).worm 0).sequence.seq
            (OffspringDraws.plain.beat i) i,
          TakesAfter ((population 2).worm 0).sequence.seq
            ((population 2).worm 1).sequence.seq .plain
            (drawnLength ((population 2).worm 0).sequence.seq.length
              ((population 2).worm 1).sequence.seq.length
              OffspringDraws.plain.extra) (i + 1) pitch :=
  heredity_iff .young (population 2) 0 1 .plain (by decide) (by decide)

/-- The note of the first tick comes out on the second, where the parents have none. -/
theorem not_heredity : ¬ ∀ (env : Platform) (s : PWViewController) (mother father : ℕ)
    (draws : OffspringDraws), mother < s.next → father < s.next → draws.coin ≠ 0 →
    ∃ s' child, s.offspringOf env mother father draws = (s', some child) ∧
      Heredity (s.worm mother).sequence.seq (s.worm father).sequence.seq
        (s'.worm child).sequence.seq draws
        (drawnLength (s.worm mother).sequence.seq.length (s.worm father).sequence.seq.length
          draws.extra) := by
  intro h
  have hmother : 0 < (population 2).next := by decide
  obtain ⟨s', child, heq, hheredity⟩ := h .young (population 2) 0 1 .plain hmother
    (by decide) (by decide)
  obtain ⟨p, nextEvent, audio, takes, hborn, hsequence, hticks, hheard⟩ :=
    offspringOf_pick .young (population 2) hmother 1 (show OffspringDraws.plain.coin ≠ 0 by decide)
  rw [hborn, Prod.mk.injEq] at heq
  have hchild : (s'.worm child).sequence = Sequence.played takes := by
    rw [← heq.1, ← Option.some.inj heq.2, worm_withWorm_self, hsequence]
  have hone : ticks takes = 1 := hticks.trans (by decide)
  have hpick : inherits ((population 2).worm 0).sequence.seq (OffspringDraws.plain.beat 0) 0
      = some 0#32 := by decide
  have hnote : 0#32 ∈ pitchesAt (s'.worm child).sequence.seq 1 := by
    rw [hchild, mem_pitchesAt_played, hheard]
    exact ⟨0, by omega, rfl, hpick⟩
  exact absurd (hheredity 1 _ hnote) (by decide)

/-! ## Length -/

/-- How long the sequence of a worm is. -/
def lengthOf (s : PWViewController) (w : ℕ) : ℕ := (s.worm w).sequence.seq.length

/-- One tick longer than it was drawn. -/
theorem lengthOf_offspring (env : Platform) (s : PWViewController) {mother : ℕ}
    (hmother : mother < s.next) (father : ℕ) {draws : OffspringDraws} (hcoin : draws.coin ≠ 0) :
    ∃ p nextEvent audio, s.offspringOf env mother father draws
        = (s.withWorm p nextEvent audio, some s.next) ∧
      p.sequence.seq.length
        = drawnLength (s.lengthOf mother) (s.lengthOf father) draws.extra + 1 := by
  obtain ⟨p, nextEvent, audio, takes, hborn, hsequence, hticks, -⟩ :=
    offspringOf_pick env s hmother father hcoin
  refine ⟨p, nextEvent, audio, hborn, ?_⟩
  unfold EWSequence.length
  rw [hsequence, Sequence.length_played, hticks]
  rfl

/-- The length of an offspring is between those of its parents if and only if they differ. -/
theorem drawnLength_between (a b extra : ℕ) :
    (min a b ≤ drawnLength a b extra + 1 ∧ drawnLength a b extra + 1 ≤ max a b) ↔ a ≠ b := by
  unfold drawnLength
  constructor
  · intro h heq
    rw [heq, max_self, min_self, Nat.sub_self, if_neg (lt_irrefl 0)] at h
    omega
  · intro hne
    have hpos : 0 < max a b - min a b := by omega
    have hlt : extra % (max a b - min a b) < max a b - min a b := Nat.mod_lt _ hpos
    rw [if_pos hpos]
    omega

/-- Two worms that mate, and what is drawn for it. -/
structure Birth where
  mother : ℕ
  father : ℕ
  pairing : Pairing

/-- The parents are in the population, and if they have an offspring, their lengths differ. -/
def UnequalParents (s : PWViewController) (b : Birth) : Prop :=
  b.mother ∈ s.worms ∧ b.father ∈ s.worms ∧
    (b.pairing.draws.coin.val ≠ 0 → s.lengthOf b.mother ≠ s.lengthOf b.father)

instance (s : PWViewController) (b : Birth) : Decidable (s.UnequalParents b) :=
  inferInstanceAs (Decidable (_ ∧ _ ∧ (_ → _)))

/-- One generation after the other. -/
def breed (env : Platform) (s : PWViewController) (births : List Birth) : PWViewController :=
  Runs.run (fun s b => s.mate env b.mother b.father b.pairing) s births

/-- The lengths of all worms are in a range. -/
structure InRange (lo hi : ℕ) (s : PWViewController) : Prop where
  allocated : ∀ w ∈ s.worms, w < s.next
  low : ∀ w ∈ s.worms, lo ≤ s.lengthOf w
  high : ∀ w ∈ s.worms, s.lengthOf w ≤ hi

theorem InRange.mate {lo hi : ℕ} (h : InRange lo hi s) {b : Birth} (hb : s.UnequalParents b) :
    InRange lo hi (s.mate env b.mother b.father b.pairing) := by
  obtain ⟨hmother, hfather, hlengths⟩ := hb
  by_cases hcoin : b.pairing.draws.coin = 0
  · have hnone : s.mate env b.mother b.father b.pairing = s := by
      have hbarren : s.offspringOf env b.mother b.father b.pairing.draws = (s, none) := if_pos hcoin
      unfold PWViewController.mate
      rw [hbarren]
    rwa [hnone]
  · obtain ⟨p, nextEvent, audio, hborn, hlength⟩ :=
      lengthOf_offspring env s (h.allocated _ hmother) b.father hcoin
    have hbetween := (drawnLength_between _ _ b.pairing.draws.extra).mpr
      (hlengths (Fin.val_ne_of_ne hcoin))
    rw [← hlength] at hbetween
    set s' := s.mate env b.mother b.father b.pairing with hs'
    have heq : s' = ((({ s.withWorm p nextEvent audio with
        worms := s.worms ++ [s.next] } : PWViewController).date b.mother b.father
          b.pairing.now).note (.born b.pairing.now b.mother b.father)) := by
      rw [hs']
      unfold PWViewController.mate
      rw [hborn]
      rfl
    have hworms : s'.worms = s.worms ++ [s.next] := by
      rw [heq]
      rfl
    have hlengthOf : ∀ w, s'.lengthOf w
        = if w = s.next then p.sequence.seq.length else s.lengthOf w := by
      intro w
      have hsequence : (s'.worm w).sequence = ((s.withWorm p nextEvent audio).worm w).sequence := by
        rw [heq]
        simp only [note, worm_date]
        split_ifs
        · rfl
        · rfl
      unfold lengthOf
      rw [hsequence]
      simp only [withWorm, Function.update_apply]
      split_ifs
      · rfl
      · rfl
    -- the founders keep their lengths, and the newborn is between its parents
    have hmem : ∀ w ∈ s'.worms, w < s.next + 1 ∧ lo ≤ s'.lengthOf w ∧ s'.lengthOf w ≤ hi := by
      intro w hw
      rw [hworms, List.mem_append, List.mem_singleton] at hw
      rw [hlengthOf]
      rcases hw with hold | rfl
      · have hlt := h.allocated w hold
        rw [if_neg hlt.ne]
        exact ⟨by omega, h.low w hold, h.high w hold⟩
      · have hm := h.low _ hmother
        have hf := h.low _ hfather
        have hm' := h.high _ hmother
        have hf' := h.high _ hfather
        rw [if_pos rfl]
        omega
    have hnext : s'.next = s.next + 1 := by
      rw [heq]
      rfl
    exact ⟨fun w hw => by rw [hnext]; exact (hmem w hw).1, fun w hw => (hmem w hw).2.1,
      fun w hw => (hmem w hw).2.2⟩

/-- The length of an offspring is between those of its parents if and only if these differ; and as
long as all parents' lengths differ, no generation leaves the range of the first. -/
theorem length_offspring_iff (env : Platform) (s : PWViewController)
    (hallocated : ∀ w ∈ s.worms, w < s.next) (mother father : ℕ) (draws : OffspringDraws)
    (hmother : mother < s.next) (hcoin : draws.coin ≠ 0) (births : List Birth)
    (hbirths : Runs.Guarded (fun s b => s.mate env b.mother b.father b.pairing) UnequalParents s
      births) :
    ((∃ s' child, s.offspringOf env mother father draws = (s', some child) ∧
        min (s.lengthOf mother) (s.lengthOf father) ≤ s'.lengthOf child ∧
        s'.lengthOf child ≤ max (s.lengthOf mother) (s.lengthOf father)) ↔
      s.lengthOf mother ≠ s.lengthOf father) ∧
    ∀ lo hi, (∀ w ∈ s.worms, lo ≤ s.lengthOf w ∧ s.lengthOf w ≤ hi) →
      ∀ w ∈ (s.breed env births).worms,
        lo ≤ (s.breed env births).lengthOf w ∧ (s.breed env births).lengthOf w ≤ hi := by
  constructor
  · obtain ⟨p, nextEvent, audio, hborn, hlength⟩ := lengthOf_offspring env s hmother father hcoin
    have hchild : (s.withWorm p nextEvent audio).lengthOf s.next
        = drawnLength (s.lengthOf mother) (s.lengthOf father) draws.extra + 1 := by
      rw [← hlength, lengthOf, worm_withWorm_self]
    rw [← drawnLength_between _ _ draws.extra, ← hchild]
    constructor
    · intro h
      obtain ⟨s', child, heq, hbetween⟩ := h
      rw [hborn, Prod.mk.injEq] at heq
      rwa [← heq.1, ← Option.some.inj heq.2] at hbetween
    · intro h
      exact ⟨_, _, hborn, h⟩
  · intro lo hi hrange
    have hstep : ∀ (s : PWViewController) b, InRange lo hi s → s.UnequalParents b →
        InRange lo hi (s.mate env b.mother b.father b.pairing) := fun s b h hb => h.mate hb
    have hfinal : InRange lo hi (s.breed env births) := Runs.invariant_of_guarded hstep
      ⟨hallocated, fun w hw => (hrange w hw).1, fun w hw => (hrange w hw).2⟩ hbirths
    exact fun w hw => ⟨hfinal.low w hw, hfinal.high w hw⟩

/-- Two worms, of which the second records for a tick. -/
def unequalPair : PWViewController :=
  Runs.run (handle .young) (population 1)
    [.touchesBegan true 0#32, .sequenceTick 1 [], .touchesBegan false 0#32, .stopTimer]

/-- The two worms have an offspring. -/
theorem length_offspring_iff_of_two_worms :
    ((∃ s' child, unequalPair.offspringOf .young 0 1 .plain = (s', some child) ∧
        min (unequalPair.lengthOf 0) (unequalPair.lengthOf 1) ≤ s'.lengthOf child ∧
        s'.lengthOf child ≤ max (unequalPair.lengthOf 0) (unequalPair.lengthOf 1)) ↔
      unequalPair.lengthOf 0 ≠ unequalPair.lengthOf 1) ∧
    ∀ lo hi, (∀ w ∈ unequalPair.worms, lo ≤ unequalPair.lengthOf w ∧
        unequalPair.lengthOf w ≤ hi) →
      ∀ w ∈ (unequalPair.breed .young [⟨0, 1, pairingAt 10 true⟩]).worms,
        lo ≤ (unequalPair.breed .young [⟨0, 1, pairingAt 10 true⟩]).lengthOf w ∧
        (unequalPair.breed .young [⟨0, 1, pairingAt 10 true⟩]).lengthOf w ≤ hi :=
  length_offspring_iff .young unequalPair (by decide) 0 1 .plain (by decide)
    (by decide) [⟨0, 1, pairingAt 10 true⟩] (by decide)

/-- Two worms of one tick have an offspring of two. -/
theorem not_length_offspring : ¬ ∀ (env : Platform) (s : PWViewController) (mother father : ℕ)
    (draws : OffspringDraws), mother < s.next → father < s.next → draws.coin ≠ 0 →
    ∃ s' child, s.offspringOf env mother father draws = (s', some child) ∧
      min (s.lengthOf mother) (s.lengthOf father) ≤ s'.lengthOf child ∧
      s'.lengthOf child ≤ max (s.lengthOf mother) (s.lengthOf father) := by
  intro h
  have hmother : 0 < (population 2).next := by decide
  obtain ⟨s', child, heq, -, hmax⟩ := h .young (population 2) 0 1 .plain hmother
    (by decide) (by decide)
  obtain ⟨p, nextEvent, audio, hborn, hlength⟩ :=
    lengthOf_offspring .young (population 2) hmother 1 (show OffspringDraws.plain.coin ≠ 0 by decide)
  rw [hborn, Prod.mk.injEq] at heq
  have hchild : s'.lengthOf child = p.sequence.seq.length := by
    rw [← heq.1, ← Option.some.inj heq.2, lengthOf, worm_withWorm_self]
  rw [hchild, hlength] at hmax
  exact absurd hmax (by decide)

end PWViewController

end PoopWorms.App
