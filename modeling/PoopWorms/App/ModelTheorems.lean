import PoopWorms.App.Model

/-!
# What the methods do to the worms

Each method of a worm and of the controller in terms of the state before it. The audio is
left open here: what matters is which worm changes, and what the log gains.
-/

namespace PoopWorms.App

open Octets Server

/-- A worm to which `clearWorm` has been sent. -/
def PWWorm.clear (p : PWWorm) : PWWorm := { p with observing := false, splotchWorm := none }

/-- An offspring on its way, a tick later. -/
def PWWorm.ticked (p : PWWorm) : PWWorm := { p with sequence := p.sequence.apply .tick }

/-- The worm that an offspring on its way becomes. -/
def PWWorm.born (p : PWWorm) : PWWorm :=
  { p with
    sequence := p.sequence.apply .play
    sequenceObserving := true
    creating := false
    splotchWorm := some ⟨true⟩ }

theorem PWWorm.dead_iff (p : PWWorm) : p.dead ↔ p.sequence.Silent := by
  unfold PWWorm.dead Sequence.Silent
  rw [decide_eq_true_iff, List.length_eq_zero_iff]

namespace PWViewController

variable {env : Platform} {s : PWViewController}

section Fields

variable (s : PWViewController) (w x : ℕ) (f : PWWorm → PWWorm) (act : Act)

theorem worm_modify : (s.modify w f).worm x = if x = w then f (s.worm w) else s.worm x :=
  Function.update_apply ..

@[simp] theorem worm_modify_self : (s.modify w f).worm w = f (s.worm w) :=
  Function.update_self ..

@[simp] theorem modify_modify (g : PWWorm → PWWorm) :
    (s.modify w f).modify w g = s.modify w fun p => g (f p) := by
  unfold modify
  simp

end Fields

/-! ## Worms -/

theorem foldl_fire_eq (env : Platform) (w : ℕ) (events : List EWPitchEvent) (s : PWViewController) :
    ∃ audio, events.foldl (fire env w) s
      = { s with audio, log := s.log ++ List.replicate events.length (.fired w) } := by
  induction events generalizing s with
  | nil => exact ⟨s.audio, by simp⟩
  | cons event events ih =>
    rcases ih (s.fire env w event) with ⟨audio, haudio⟩
    refine ⟨audio, ?_⟩
    rw [List.foldl_cons, haudio]
    simp [fire, note, List.replicate_succ]

/-- A tick of a sequence moves it on and fires the events that lie there. -/
theorem sequenceTick_eq (env : Platform) (s : PWViewController) (w : ℕ) (order : List EWPitchEvent) :
    ∃ audio, s.sequenceTick env w order
      = { s.modify w (fun p => { p with sequence := p.sequence.apply .tick }) with
          audio
          log := s.log
            ++ List.replicate ((s.worm w).sequence.step .tick).2.length (.fired w) } := by
  unfold sequenceTick
  set events := ((s.worm w).sequence.step .tick).2 with hevents
  have hlen : (if order.Perm events then order else events).length = events.length := by
    split_ifs with horder
    · exact horder.length_eq
    · rfl
  rcases foldl_fire_eq env w (if order.Perm events then order else events)
    (s.modify w fun p => { p with sequence := ((s.worm w).sequence.step .tick).1 })
    with ⟨audio, haudio⟩
  refine ⟨audio, ?_⟩
  simp only
  rw [haudio, hlen]
  rfl

/-- A body moves once the worm is no longer being created. -/
theorem moveWorm_eq (env : Platform) (s : PWViewController) (w : ℕ) (hit : Option Splotch) :
    ∃ audio acts, s.moveWorm env w hit = { s with audio, log := s.log ++ acts } ∧
      (∀ act ∈ acts, act = .moved w ∨ act = .ate w) ∧
      ((s.worm w).splotchWorm ≠ some ⟨true⟩ → acts = []) := by
  by_cases hbody : (s.worm w).splotchWorm = some ⟨true⟩
  · unfold moveWorm
    rw [hbody]
    cases hit with
    | none => exact ⟨s.audio, [.moved w], rfl, by simp, fun h => absurd rfl h⟩
    | some splotch =>
      cases splotch with
      | food itemId =>
        exact ⟨s.audio.eatFood w itemId, [.moved w, .ate w], by simp [handleWormPoint, note],
          by simp, fun h => absurd rfl h⟩
      | effect itemId =>
        exact ⟨s.audio.eatEffect env.fpu w itemId, [.moved w, .ate w],
          by simp [handleWormPoint, note], by simp, fun h => absurd rfl h⟩
  · refine ⟨s.audio, [], ?_, by simp, fun _ => rfl⟩
    unfold moveWorm
    split
    · next h => exact absurd h hbody
    · simp

theorem clearWorm_eq (env : Platform) (s : PWViewController) (w : ℕ) :
    ∃ audio, s.clearWorm env w
      = { s.modify w PWWorm.clear with audio, log := s.log ++ [.cleared w] } := by
  refine ⟨s.audio.dismantleSynths env.fpu w, ?_⟩
  unfold clearWorm note modify
  simp [PWWorm.clear]

/-- A worm that ticks and lives on, with what it does on the way. -/
structure Lives (w : ℕ) (p q : PWWorm) (acts : List Act) : Prop where
  eq : q = { p with sequence := q.sequence, age := q.age }
  creating : p.creating → q = p
  silent : p.sequence.Silent → q.sequence.Silent
  moves : ∀ act ∈ acts, act = .moved w ∨ act = .ate w
  body : p.splotchWorm ≠ some ⟨true⟩ → acts = []

/-- A worm that ticks and clears itself: it is dead by then. -/
structure Dies (w : ℕ) (p q : PWWorm) (acts : List Act) : Prop where
  eq : q = { p with sequence := q.sequence, age := q.age }.clear
  creating : p.creating = false
  silent : q.sequence.Silent
  clears : acts = [.cleared w]

theorem wormTick_eq (env : Platform) (s : PWViewController) (w : ℕ) (input : WormInput) :
    ∃ audio q acts, s.wormTick env w input
        = { s.modify w (fun _ => q) with audio, log := s.log ++ acts } ∧
      (Lives w (s.worm w) q acts ∨ Dies w (s.worm w) q acts) := by
  cases hcreating : (s.worm w).creating with
  | true =>
    rcases moveWorm_eq env s w input.hit with ⟨audio, acts, heq, hacts, hbody⟩
    refine ⟨audio, s.worm w, acts, ?_, .inl ⟨rfl, fun _ => rfl, fun h => h, hacts, hbody⟩⟩
    unfold wormTick
    rw [hcreating, if_pos rfl, heq]
    unfold modify
    simp
  | false =>
    set sequence := (s.worm w).sequence.apply
      (.decay (env.decayAmount (s.worm w).age) input.draw) with hsequence
    set offScreen := (s.worm w).splotchWorm.isNone || input.offScreen with hoff
    set dead := ({ s.worm w with sequence } : PWWorm).dead with hdead
    set age := if offScreen || dead then (s.worm w).age + 40 else (s.worm w).age + 1 with hage
    set q : PWWorm := { s.worm w with sequence, age } with hq
    set s₁ : PWViewController := { s.modify w (fun _ => q) with
      audio := s.audio.setVolume w (env.volume (s.worm w).age) } with hs₁
    have htick : s.wormTick env w input
        = if offScreen && dead then s₁.clearWorm env w else s₁.moveWorm env w input.hit := by
      unfold wormTick
      rw [hcreating, if_neg Bool.false_ne_true]
      simp [hs₁, hq, hage, hdead, hoff, hsequence, modify]
    have hsilent : (s.worm w).sequence.Silent → q.sequence.Silent := fun h => h.decay _ _
    have hq₁ : s₁.worm w = q := by simp [hs₁]
    cases hdies : offScreen && dead with
    | true =>
      have hdead' : dead = true := (Bool.and_eq_true_iff.mp hdies).2
      rcases clearWorm_eq env s₁ w with ⟨audio, haudio⟩
      refine ⟨audio, q.clear, [.cleared w], ?_,
        .inr ⟨rfl, hcreating, (PWWorm.dead_iff _).mp hdead', rfl⟩⟩
      rw [htick, hdies, if_pos rfl, haudio]
      simp [hs₁, modify]
    | false =>
      rcases moveWorm_eq env s₁ w input.hit with ⟨audio, acts, heq, hacts, hbody⟩
      refine ⟨audio, q, acts, ?_, .inl ⟨rfl, ?_, hsilent, hacts, ?_⟩⟩
      · rw [htick, hdies, if_neg Bool.false_ne_true, heq]
        rfl
      · intro htrue
        rw [hcreating] at htrue
        exact absurd htrue Bool.false_ne_true
      · rw [hq₁] at hbody
        exact hbody

/-! ## Offspring -/

/-- An offspring on its way: it records, and has nothing to do with the ticker's ticks. -/
structure Growing (p : PWWorm) : Prop where
  sequenceObserving : p.sequenceObserving
  observing : p.observing
  creating : p.creating
  recording : p.sequence.seq.recording
  splotchWorm : p.splotchWorm = some ⟨false⟩
  retains : p.retains = 1
  lastDate : p.lastDate = none

/-- A worm that has just been born. -/
structure Newborn (p : PWWorm) : Prop where
  sequenceObserving : p.sequenceObserving
  observing : p.observing
  creating : p.creating = false
  splotchWorm : p.splotchWorm = some ⟨true⟩
  retains : p.retains = 1
  lastDate : p.lastDate = none

/-- The state in which `p` is the worm that was allocated last. -/
def withWorm (s : PWViewController) (p : PWWorm) (nextEvent : ℕ) (audio : Audio) :
    PWViewController :=
  { s with worm := Function.update s.worm s.next p, next := s.next + 1, nextEvent, audio }

theorem initWithView_eq (env : Platform) (s : PWViewController) :
    ∃ p audio, s.initWithView env = s.withWorm p s.nextEvent audio ∧ Growing p := by
  refine ⟨_, _, rfl, rfl, rfl, rfl, ?_, rfl, rfl, rfl⟩
  rw [Sequence.seq_record]
  rfl

/-- Adding a note to a worm. -/
theorem Growing.addEvent {p : PWWorm} (h : Growing p) (event : EWPitchEvent) :
    Growing { p with sequence := p.sequence.apply (.addEvent event) } :=
  { h with recording := (Sequence.recording_addEvent _ _).trans h.recording }

/-- The body of an offspring on its way stays where it is. -/
theorem wormTick_of_growing {w : ℕ} (h : Growing (s.worm w)) (input : WormInput) :
    s.wormTick env w input = s := by
  unfold wormTick moveWorm
  rw [if_pos h.creating, h.splotchWorm]

theorem Growing.ticked {p : PWWorm} (h : Growing p) : Growing p.ticked :=
  { h with recording := (Sequence.recording_tick _).trans h.recording }

/-- Neither the sequence nor the body of an offspring on its way does more than count. -/
theorem tick_withWorm (env : Platform) {p : PWWorm} (h : Growing p) (nextEvent : ℕ)
    (audio : Audio) (input : WormInput) :
    ∃ audio', ((s.withWorm p nextEvent audio).sequenceTick env s.next []).wormTick env s.next input
      = s.withWorm p.ticked nextEvent audio' := by
  have hw : (s.withWorm p nextEvent audio).worm s.next = p := Function.update_self ..
  rcases sequenceTick_eq env (s.withWorm p nextEvent audio) s.next [] with ⟨a₁, h₁⟩
  rw [hw, (Sequence.tick_of_recording h.recording).2] at h₁
  have htick : (s.withWorm p nextEvent audio).sequenceTick env s.next []
      = s.withWorm p.ticked nextEvent a₁ := by
    rw [h₁]
    simp [withWorm, modify, PWWorm.ticked]
  have hw₁ : (s.withWorm p.ticked nextEvent a₁).worm s.next = p.ticked := Function.update_self ..
  refine ⟨a₁, ?_⟩
  rw [htick]
  exact wormTick_of_growing (by rw [hw₁]; exact h.ticked) input

theorem addNoteWithPitch_withWorm (p : PWWorm) (nextEvent : ℕ) (audio : Audio) (pitch : Word) :
    (s.withWorm p nextEvent audio).addNoteWithPitch s.next pitch
      = s.withWorm { p with sequence := p.sequence.apply (.addEvent ⟨nextEvent, pitch⟩) }
        (nextEvent + 1) audio := by
  simp [addNoteWithPitch, withWorm, modify]

theorem Growing.born {p : PWWorm} (h : Growing p) : Newborn p.born :=
  ⟨rfl, h.observing, rfl, rfl, h.retains, h.lastDate⟩

theorem stopCreating_withWorm {p : PWWorm} (h : Growing p) (nextEvent : ℕ) (audio : Audio) :
    (s.withWorm p nextEvent audio).stopCreating s.next = s.withWorm p.born nextEvent audio := by
  simp only [stopCreating, withWorm, modify, PWWorm.born]
  simp [h.splotchWorm]

theorem offspringBeat_eq (env : Platform) (mother : ℕ) (draws : OffspringDraws) (i : ℕ) {p : PWWorm}
    (h : Growing p) (nextEvent : ℕ) (audio : Audio) :
    ∃ p' nextEvent' audio',
      offspringBeat env mother s.next draws (s.withWorm p nextEvent audio) i
        = s.withWorm p' nextEvent' audio' ∧ Growing p' := by
  unfold offspringBeat
  extract_lets draw s₁ s₂ eventsAtTick motherEvent fatherEvent pitch pitch' pitch''
  obtain ⟨a₁, hs₂⟩ : ∃ a₁, s₂ = s.withWorm p.ticked nextEvent a₁ :=
    tick_withWorm env h nextEvent audio _
  -- whether and which note is added does not matter
  rw [hs₂]
  split_ifs with hpitch
  · exact ⟨_, _, _, addNoteWithPitch_withWorm _ _ _ _, h.ticked.addEvent _⟩
  · exact ⟨p.ticked, nextEvent, a₁, rfl, h.ticked⟩

theorem foldl_offspringBeat_eq (env : Platform) (mother : ℕ) (draws : OffspringDraws) (l : List ℕ)
    {p : PWWorm} (h : Growing p) (nextEvent : ℕ) (audio : Audio) :
    ∃ p' nextEvent' audio',
      l.foldl (offspringBeat env mother s.next draws) (s.withWorm p nextEvent audio)
        = s.withWorm p' nextEvent' audio' ∧ Growing p' := by
  induction l generalizing p nextEvent audio with
  | nil => exact ⟨p, nextEvent, audio, rfl, h⟩
  | cons i l ih =>
    rcases offspringBeat_eq env (s := s) mother draws i h nextEvent audio
      with ⟨p₁, n₁, a₁, hbeat, h₁⟩
    rw [List.foldl_cons, hbeat]
    exact ih h₁ n₁ a₁

/-- An offspring is a new worm, and nothing else changes. -/
theorem offspringOf_eq (env : Platform) (s : PWViewController) (mother father : ℕ) (draws : OffspringDraws) :
    s.offspringOf env mother father draws = (s, none) ∨
    (draws.coin ≠ 0 ∧ ∃ p nextEvent audio, s.offspringOf env mother father draws
      = (s.withWorm p nextEvent audio, some s.next) ∧ Newborn p) := by
  unfold offspringOf
  by_cases hcoin : draws.coin = 0
  · exact .inl (if_pos hcoin)
  · refine .inr ⟨hcoin, ?_⟩
    rw [if_neg hcoin]
    extract_lets motherLength fatherLength lengthDiff minLength newLength worm s₁ s₂ s₃ m f
    rcases initWithView_eq env s with ⟨p₀, a₀, hinit, h₀⟩
    rcases foldl_offspringBeat_eq env (s := s) mother draws (List.range newLength) h₀
      s.nextEvent a₀ with ⟨p₁, n₁, a₁, hbeats, h₁⟩
    have hs₂ : s₂ = s.withWorm p₁ n₁ a₁ := by
      simp only [s₂, s₁, hinit, worm]
      exact hbeats
    have hs₃ : s₃ = s.withWorm p₁.born n₁ a₁ := by
      simp only [s₃, hs₂, worm]
      exact stopCreating_withWorm h₁ n₁ a₁
    rw [hs₃]
    split_ifs
    · exact ⟨p₁.born, n₁, a₁.eatEffect env.fpu s.next m, rfl, h₁.born⟩
    · exact ⟨p₁.born, n₁, a₁.eatEffect env.fpu s.next f, rfl, h₁.born⟩
    · exact ⟨p₁.born, n₁, a₁, rfl, h₁.born⟩

/-! ## The loops of the controller -/

/-- The same worm, but for its dates. -/
def Alike (p q : PWWorm) : Prop := q = { p with mating := q.mating, lastDate := q.lastDate }

theorem Alike.refl (p : PWWorm) : Alike p p := rfl

theorem Alike.trans {p q r : PWWorm} (hpq : Alike p q) (hqr : Alike q r) : Alike p r := by
  unfold Alike at hpq hqr ⊢
  rw [hqr, hpq]

/-- What a turn of the mating loop can do: worms have dates, and one may be born. -/
structure Turned (s s' : PWViewController) : Prop where
  creatingWorm : s'.creatingWorm = s.creatingWorm
  currentWorm : s'.currentWorm = s.currentWorm
  stopTimer : s'.stopTimer = s.stopTimer
  alike : ∀ x, x ≠ s.next → Alike (s.worm x) (s'.worm x)
  born : (Alike (s.worm s.next) (s'.worm s.next) ∧ s'.next = s.next ∧ s'.worms = s.worms ∧
      s'.log = s.log) ∨
    (∃ p, Newborn p ∧ Alike p (s'.worm s.next) ∧ s'.next = s.next + 1 ∧
      s'.worms = s.worms ++ [s.next] ∧
      ∃ now mother father, s'.log = s.log ++ [.born now mother father])

theorem Turned.refl (s : PWViewController) : Turned s s :=
  ⟨rfl, rfl, rfl, fun _ _ => .refl _, .inl ⟨.refl _, rfl, rfl, rfl⟩⟩

/-- A date changes nothing else. -/
theorem Turned.modify {s s' : PWViewController} (h : Turned s s') (w : ℕ)
    {f : PWWorm → PWWorm} (hf : ∀ p, Alike p (f p)) : Turned s (s'.modify w f) := by
  have hworm : ∀ x, Alike (s'.worm x) ((s'.modify w f).worm x) := by
    intro x
    rw [worm_modify]
    split_ifs with hx
    · subst hx
      exact hf _
    · exact .refl _
  refine ⟨h.creatingWorm, h.currentWorm, h.stopTimer, fun x hx => (h.alike x hx).trans (hworm x),
    ?_⟩
  rcases h.born with ⟨halike, hrest⟩ | ⟨p, hp, halike, hrest⟩
  · exact .inl ⟨halike.trans (hworm _), hrest⟩
  · exact .inr ⟨p, hp, halike.trans (hworm _), hrest⟩

/-- A birth before the dates are written down. -/
theorem turned_withWorm (s : PWViewController) {p : PWWorm} (hp : Newborn p) (nextEvent : ℕ)
    (audio : Audio) (now : ℚ) (worm1 worm2 : ℕ) :
    Turned s { s.withWorm p nextEvent audio with
      worms := s.worms ++ [s.next], log := s.log ++ [.born now worm1 worm2] } := by
  refine ⟨rfl, rfl, rfl, fun x hx => ?_, .inr ⟨p, hp, ?_, rfl, rfl, now, worm1, worm2, rfl⟩⟩
  · have hworm : (s.withWorm p nextEvent audio).worm x = s.worm x := Function.update_of_ne hx ..
    exact (congrArg (Alike (s.worm x)) hworm).mpr (.refl _)
  · have hworm : (s.withWorm p nextEvent audio).worm s.next = p := Function.update_self ..
    exact (congrArg (Alike p) hworm).mpr (.refl _)

theorem meet_eq (env : Platform) (s : PWViewController) (worm1 worm2 : ℕ) (pairing : Pairing) :
    s.meet env worm1 worm2 pairing = s.couple worm1 worm2 ∨
    (s.MayMate worm1 worm2 pairing.now ∧ pairing.draws.coin ≠ 0 ∧
      ∃ p nextEvent audio, Newborn p ∧ s.meet env worm1 worm2 pairing
        = (({ s.withWorm p nextEvent audio with
              worms := s.worms ++ [s.next]
              log := s.log ++ [.born pairing.now worm1 worm2] } : PWViewController).date
            worm1 worm2 pairing.now).couple worm1 worm2) := by
  unfold meet
  by_cases hmay : s.MayMate worm1 worm2 pairing.now
  · simp only [if_pos hmay]
    unfold mate
    rcases offspringOf_eq env s worm1 worm2 pairing.draws with hnone | hborn
    · left
      rw [hnone]
    · rcases hborn with ⟨hcoin, p, nextEvent, audio, hborn, hp⟩
      right
      rw [hborn]
      exact ⟨hmay, hcoin, p, nextEvent, audio, hp, rfl⟩
  · left
    simp only [if_neg hmay]

theorem Turned.couple {s s' : PWViewController} (h : Turned s s') (worm1 worm2 : ℕ) :
    Turned s (s'.couple worm1 worm2) := by
  have hmating : ∀ p : PWWorm, Alike p { p with mating := true } := fun _ => rfl
  exact (h.modify _ hmating).modify _ hmating

theorem Turned.date {s s' : PWViewController} (h : Turned s s') (worm1 worm2 : ℕ) (now : ℚ) :
    Turned s (s'.date worm1 worm2 now) := by
  have hdate : ∀ p : PWWorm, Alike p { p with lastDate := some now } := fun _ => rfl
  exact (h.modify _ hdate).modify _ hdate

theorem turned_meet (s : PWViewController) (worm1 worm2 : ℕ) (pairing : Pairing) :
    Turned s (s.meet env worm1 worm2 pairing) := by
  rcases meet_eq env s worm1 worm2 pairing with hcouple
    | ⟨-, -, p, n, audio, hp, hborn⟩
  · rw [hcouple]
    exact (Turned.refl s).couple _ _
  · rw [hborn]
    exact ((turned_withWorm s hp n audio _ _ _).date _ _ _).couple _ _

theorem turned_turn (m : MatingLoop) (pairing : Pairing) :
    Turned m.app (m.turn env pairing).app := by
  unfold MatingLoop.turn
  split
  · exact .refl _
  · split_ifs
    · exact turned_meet _ _ _ _
    · exact .refl _
  · simp only
    split_ifs
    · exact .refl _
    · exact (Turned.refl _).modify _ fun _ => rfl

/-- What the turns of the loops keep, a tick keeps once the dead worms are removed. -/
theorem tick_invariant {I : PWViewController → Prop}
    (hI : ∀ s s', I s → Turned s s' → I s') {s : PWViewController} (hs : I s.removeDead)
    (pairings : List Pairing) : I (s.tick env pairings) :=
  Runs.invariant (I := fun m : MatingLoop => I m.app)
    (fun m pairing hm => hI _ _ hm (turned_turn m pairing)) hs pairings

/-- The sweep over a copy of the array. -/
theorem foldl_removeIfDead_eq (l : List ℕ) (s : PWViewController) :
    l.foldl removeIfDead s = { s with
      worms := s.worms.filter fun w => ¬ (w ∈ l ∧ s.Removable w)
      log := s.log ++ (l.filter fun w => s.Removable w).map .left } := by
  induction l generalizing s with
  | nil => simp
  | cons x l ih =>
    by_cases hx : s.Removable x
    · have hstep : s.removeIfDead x
          = { s with worms := s.worms.filter (· ≠ x), log := s.log ++ [.left x] } := if_pos hx
      have hsame : ∀ w, (s.removeIfDead x).Removable w ↔ s.Removable w := by
        intro w
        rw [hstep]
        exact Iff.rfl
      rw [List.foldl_cons, ih]
      simp only [hsame]
      rw [hstep]
      congr 1
      · rw [List.filter_filter]
        refine List.filter_congr fun w _ => ?_
        by_cases hw : w = x <;> simp [hw, hx]
      · simp [hx]
    · have hstep : s.removeIfDead x = s := if_neg hx
      rw [List.foldl_cons, hstep, ih]
      congr 1
      · refine List.filter_congr fun w _ => ?_
        by_cases hw : w = x <;> simp [hw, hx]
      · simp [hx]

theorem removeDead_eq (s : PWViewController) :
    s.removeDead = { s with
      worms := s.worms.filter fun w => ¬ s.Removable w
      log := s.log ++ (s.worms.filter fun w => s.Removable w).map .left } := by
  unfold removeDead
  rw [foldl_removeIfDead_eq]
  congr 1
  refine List.filter_congr fun w hw => ?_
  simp [hw]

theorem foldl_clearWorm_eq (env : Platform) (l : List ℕ) (s : PWViewController) :
    ∃ audio, l.foldl (fun s w => s.clearWorm env w) s = { s with
      worm := fun w => if w ∈ l then (s.worm w).clear else s.worm w
      audio
      log := s.log ++ l.map .cleared } := by
  induction l generalizing s with
  | nil => exact ⟨s.audio, by simp⟩
  | cons x l ih =>
    rcases clearWorm_eq env s x with ⟨a₁, h₁⟩
    rcases ih (s.clearWorm env x) with ⟨audio, haudio⟩
    refine ⟨audio, ?_⟩
    rw [List.foldl_cons, haudio, h₁]
    congr 1
    · funext w
      by_cases hw : w = x
      · subst hw
        simp [PWWorm.clear]
      · simp [worm_modify, hw]
    · simp

theorem clearStuff_eq (env : Platform) (s : PWViewController) :
    ∃ audio, s.clearStuff env = { s with
      worm := fun w => if w ∈ s.worms then (s.worm w).clear else s.worm w
      worms := []
      audio
      log := s.log ++ s.worms.map .cleared ++ s.worms.map .left } := by
  rcases foldl_clearWorm_eq env s.worms s with ⟨audio, haudio⟩
  refine ⟨audio, ?_⟩
  unfold clearStuff
  simp only [haudio]

theorem startCreatingWorm_eq (env : Platform) (s : PWViewController) :
    ∃ p audio, s.startCreatingWorm env = { s.withWorm p s.nextEvent audio with
      creatingWorm := true, currentWorm := some s.next, worms := s.worms ++ [s.next] } ∧
      Growing p := by
  rcases initWithView_eq env { s with creatingWorm := true } with ⟨p, audio, heq, hp⟩
  refine ⟨p, audio, ?_, hp⟩
  unfold startCreatingWorm
  simp only [heq]
  rfl

/-! ## Events -/

/-- What an event does to the state. -/
inductive Handled (env : Platform) (s : PWViewController) : Event → PWViewController → Prop
  | quiet (e : Event) (stopTimer : Bool) (audio : Audio) :
    Handled env s e { s with stopTimer, audio }
  | started (yPercent : Word) (p : PWWorm) (audio : Audio) (hp : Growing p) :
    Handled env s (.touchesBegan true yPercent)
      { s.withWorm p s.nextEvent audio with
        creatingWorm := true
        currentWorm := some s.next
        worms := s.worms ++ [s.next]
        stopTimer := true }
  | noted (inBorder : Bool) (yPercent : Word) (w : ℕ) (event : EWPitchEvent)
      (hcreating : s.creatingWorm) (hw : s.currentWorm = some w) :
    Handled env s (.touchesBegan inBorder yPercent)
      { s.modify w (fun p => { p with sequence := p.sequence.apply (.addEvent event) }) with
        nextEvent := s.nextEvent + 1
        stopTimer := true }
  | stopped (w : ℕ) (hw : s.currentWorm = some w) :
    Handled env s .stopTimer
      { s.stopCreating w with creatingWorm := false, currentWorm := none, stopTimer := false }
  | stoppedNothing (hnone : s.currentWorm = none) :
    Handled env s .stopTimer
      { s with creatingWorm := false, currentWorm := none, stopTimer := false }
  | wormTicked (w : ℕ) (input : WormInput) (q : PWWorm) (acts : List Act) (audio : Audio)
      (hobserving : (s.worm w).observing)
      (hq : Lives w (s.worm w) q acts ∨ Dies w (s.worm w) q acts) :
    Handled env s (.wormTick w input)
      { s.modify w (fun _ => q) with audio, log := s.log ++ acts }
  | sequenceTicked (w : ℕ) (order : List EWPitchEvent) (audio : Audio)
      (hobserving : (s.worm w).sequenceObserving) :
    Handled env s (.sequenceTick w order)
      { s.modify w (fun p => { p with sequence := p.sequence.apply .tick }) with
        audio
        log := s.log ++ List.replicate ((s.worm w).sequence.step .tick).2.length (.fired w) }
  | ticked (pairings : List Pairing) : Handled env s (.tick pairings) (s.tick env pairings)
  | cleared (audio : Audio) :
    Handled env s .clearStuff
      { s with
        worm := fun w => if w ∈ s.worms then (s.worm w).clear else s.worm w
        worms := []
        audio
        log := s.log ++ s.worms.map .cleared ++ s.worms.map .left }

theorem handled (env : Platform) (s : PWViewController) (e : Event) : Handled env s e (s.handle env e) := by
  cases e with
  | touchesBegan inBorder yPercent =>
    unfold handle
    cases hcreating : s.creatingWorm with
    | false =>
      cases inBorder with
      | false => exact .quiet _ s.stopTimer s.audio
      | true =>
        rcases startCreatingWorm_eq env s with ⟨p, audio, hstart, hp⟩
        simp only [Bool.false_eq_true, not_false_eq_true, if_true, hstart]
        exact .started yPercent p audio hp
    | true =>
      simp only [not_true_eq_false, if_false]
      unfold addNoteWithYPercent
      rw [if_pos hcreating]
      cases hw : s.currentWorm with
      | none => exact .quiet _ true s.audio
      | some w => exact .noted inBorder yPercent w ⟨s.nextEvent, yPercent⟩ hcreating hw
  | stopTimer =>
    simp only [handle]
    split_ifs with htimer
    · unfold stopCreatingWorm
      cases hw : s.currentWorm with
      | none => exact .stoppedNothing hw
      | some w => exact .stopped w hw
    · exact .quiet _ s.stopTimer s.audio
  | wormTick w input =>
    simp only [handle]
    split_ifs with hobserving
    · rcases wormTick_eq env s w input with ⟨audio, q, acts, htick, hq⟩
      rw [htick]
      exact .wormTicked w input q acts audio hobserving hq
    · exact .quiet _ s.stopTimer s.audio
  | sequenceTick w order =>
    simp only [handle]
    split_ifs with hobserving
    · rcases sequenceTick_eq env s w order with ⟨audio, htick⟩
      rw [htick]
      exact .sequenceTicked w order audio hobserving
    · exact .quiet _ s.stopTimer s.audio
  | tick pairings => exact .ticked pairings
  | clearStuff =>
    rcases clearStuff_eq env s with ⟨audio, hclear⟩
    unfold handle
    rw [hclear]
    exact .cleared audio
  | synthEnds n => exact .quiet _ s.stopTimer (s.audio.synthEnds n)

/-! ## Allocated worms -/

/-- Every worm in sight is allocated, and its body retains it. -/
structure Allocated (s : PWViewController) : Prop where
  retains : ∀ w < s.next, (s.worm w).retains = 1
  idle : ∀ w, s.next ≤ w → (s.worm w).observing = false ∧ (s.worm w).sequenceObserving = false
  worms : ∀ w ∈ s.worms, w < s.next
  current : ∀ w, s.currentWorm = some w → w < s.next
  nodup : s.worms.Nodup

/-- `dealloc` is never called: the body that is deallocated still retains its worm. -/
theorem Allocated.drain_eq (h : Allocated s) : s.drain = s := by
  have hworm : (fun w => if w < s.next ∧ s.retainCount w = 0 then (s.worm w).dealloc
      else s.worm w) = s.worm := by
    funext w
    refine if_neg fun hw => ?_
    have hretains := h.retains w hw.1
    have hcount := hw.2
    unfold retainCount at hcount
    omega
  unfold drain
  rw [hworm]

theorem Allocated.init : Allocated init where
  retains := fun _ hw => absurd hw (Nat.not_lt_zero _)
  idle := fun _ _ => ⟨rfl, rfl⟩
  worms := fun _ hw => absurd hw List.not_mem_nil
  current := fun _ hw => absurd hw (Option.some_ne_none _).symm
  nodup := List.nodup_nil

/-- No worm is allocated. -/
theorem Allocated.mono {s' : PWViewController} (h : Allocated s) (hnext : s'.next = s.next)
    (hworms : s'.worms.Sublist s.worms)
    (hcurrent : ∀ w, s'.currentWorm = some w → s.currentWorm = some w)
    (hworm : ∀ w, (s'.worm w).retains = (s.worm w).retains ∧
      ((s'.worm w).observing → (s.worm w).observing) ∧
      ((s'.worm w).sequenceObserving → (s.worm w).sequenceObserving ∨ w < s.next)) :
    Allocated s' := by
  refine ⟨fun w hw => ?_, fun w hw => ?_, fun w hw => ?_, fun w hw => ?_, h.nodup.sublist hworms⟩
  · rw [(hworm w).1]
    exact h.retains w (hnext ▸ hw)
  · rw [hnext] at hw
    rcases h.idle w hw with ⟨hobserving, hsequence⟩
    rcases hworm w with ⟨-, hobserving', hsequence'⟩
    refine ⟨Bool.eq_false_iff.mpr fun h => ?_, Bool.eq_false_iff.mpr fun h => ?_⟩
    · exact absurd (hobserving' h) (Bool.eq_false_iff.mp hobserving)
    · rcases hsequence' h with h | h
      · exact absurd h (Bool.eq_false_iff.mp hsequence)
      · omega
  · rw [hnext]
    exact h.worms w (hworms.subset hw)
  · rw [hnext]
    exact h.current w (hcurrent w hw)

/-- One worm is allocated, and put into the array. -/
theorem Allocated.alloc {s' : PWViewController} (h : Allocated s)
    (hnext : s'.next = s.next + 1) (hworms : s'.worms = s.worms ++ [s.next])
    (hcurrent : ∀ w, s'.currentWorm = some w → s.currentWorm = some w ∨ w = s.next)
    (hretains : (s'.worm s.next).retains = 1)
    (halike : ∀ w, w ≠ s.next → Alike (s.worm w) (s'.worm w)) : Allocated s' := by
  refine ⟨fun w hw => ?_, fun w hw => ?_, fun w hw => ?_, fun w hw => ?_, ?_⟩
  · by_cases hne : w = s.next
    · rw [hne, hretains]
    · rw [halike w hne]
      exact h.retains w (by omega)
  · have hne : w ≠ s.next := by omega
    rw [halike w hne]
    exact h.idle w (by omega)
  · rw [hworms] at hw
    rcases List.mem_append.mp hw with hold | hnew
    · have hlt := h.worms w hold
      omega
    · have heq := List.mem_singleton.mp hnew
      omega
  · rcases hcurrent w hw with hold | hnew
    · have hlt := h.current w hold
      omega
    · omega
  · rw [hworms]
    refine List.nodup_append.mpr ⟨h.nodup, List.nodup_singleton _, fun x hx y hy heq => ?_⟩
    have hlt := h.worms x hx
    have hy' := List.mem_singleton.mp hy
    omega

theorem Allocated.turned {s s' : PWViewController} (h : Allocated s) (ht : Turned s s') :
    Allocated s' := by
  rcases ht.born with ⟨halike, hnext, hworms, -⟩ | ⟨p, hp, halike, hnext, hworms, -⟩
  · refine h.mono hnext (hworms ▸ List.Sublist.refl _) (fun w hw => ht.currentWorm ▸ hw)
      fun w => ?_
    have hw : Alike (s.worm w) (s'.worm w) := by
      by_cases hne : w = s.next
      · rw [hne]
        exact halike
      · exact ht.alike w hne
    rw [hw]
    exact ⟨rfl, fun h => h, .inl⟩
  · refine h.alloc hnext hworms (fun w hw => .inl (ht.currentWorm ▸ hw)) ?_ ht.alike
    rw [halike]
    exact hp.retains

theorem Allocated.removeDead (h : Allocated s) : Allocated s.removeDead := by
  rw [removeDead_eq]
  exact h.mono rfl List.filter_sublist (fun _ hw => hw) fun _ => ⟨rfl, fun h => h, .inl⟩

theorem Allocated.handle (h : Allocated s) (e : Event) : Allocated (s.handle env e) := by
  have hs' := handled env s e
  generalize s.handle env e = s' at hs' ⊢
  cases hs' with
  | quiet => exact ⟨h.retains, h.idle, h.worms, h.current, h.nodup⟩
  | started yPercent p audio hp =>
    refine h.alloc rfl rfl (fun w hw => .inr (Option.some.inj hw).symm) ?_ fun w hw => ?_
    · exact (congrArg PWWorm.retains (Function.update_self ..)).trans hp.retains
    · exact (congrArg (Alike (s.worm w)) (Function.update_of_ne hw ..)).mpr (.refl _)
  | noted inBorder yPercent w event hcreating hw =>
    refine h.mono rfl (List.Sublist.refl _) (fun _ hw => hw) fun x => ?_
    simp only [worm_modify]
    split_ifs with hx
    · subst hx
      exact ⟨rfl, fun h => h, .inl⟩
    · exact ⟨rfl, fun h => h, .inl⟩
  | stopped w hw =>
    refine h.mono rfl (List.Sublist.refl _) (fun _ hw => absurd hw (Option.some_ne_none _).symm) fun x => ?_
    simp only [stopCreating, worm_modify]
    split_ifs with hx
    · subst hx
      exact ⟨rfl, fun h => h, fun _ => .inr (h.current x hw)⟩
    · exact ⟨rfl, fun h => h, .inl⟩
  | stoppedNothing hnone =>
    exact ⟨h.retains, h.idle, h.worms, fun _ hw => absurd hw (Option.some_ne_none _).symm, h.nodup⟩
  | wormTicked w input q acts audio hobserving hq =>
    refine h.mono rfl (List.Sublist.refl _) (fun _ hw => hw) fun x => ?_
    simp only [worm_modify]
    split_ifs with hx
    · subst hx
      rcases hq with hlives | hdies
      · rw [hlives.eq]
        exact ⟨rfl, fun h => h, .inl⟩
      · rw [hdies.eq]
        exact ⟨rfl, fun _ => hobserving, .inl⟩
    · exact ⟨rfl, fun h => h, .inl⟩
  | sequenceTicked w order audio hobserving =>
    refine h.mono rfl (List.Sublist.refl _) (fun _ hw => hw) fun x => ?_
    simp only [worm_modify]
    split_ifs with hx
    · subst hx
      exact ⟨rfl, fun h => h, .inl⟩
    · exact ⟨rfl, fun h => h, .inl⟩
  | ticked pairings => exact tick_invariant (fun _ _ => Allocated.turned) h.removeDead pairings
  | cleared audio =>
    refine h.mono rfl (List.nil_sublist _) (fun _ hw => hw) fun x => ?_
    simp only
    split_ifs with hx
    · exact ⟨rfl, fun hobserving => Bool.noConfusion hobserving, .inl⟩
    · exact ⟨rfl, fun h => h, .inl⟩

/-- Draining the pool after an event deallocates nothing. -/
theorem Allocated.step_eq (h : Allocated s) (e : Event) : s.step env e = s.handle env e :=
  (h.handle e).drain_eq

theorem Allocated.step (h : Allocated s) (e : Event) : Allocated (s.step env e) := by
  rw [h.step_eq]
  exact h.handle e

/-- What holds at the start, and is kept by every event that a guard allows in a state with
allocated worms, holds in every state of a guarded run. -/
theorem run_invariant {G : PWViewController → Event → Prop} {I : PWViewController → Prop}
    (hinit : I PWViewController.init)
    (hhandle : ∀ s e, Allocated s → I s → G s e → I (s.handle env e)) {es : List Event}
    (hg : Runs.Guarded (PWViewController.step env) G PWViewController.init es) :
    I (run env es) := by
  refine (Runs.invariant_of_guarded (I := fun s => Allocated s ∧ I s) (fun s e hs hge => ?_)
    ⟨Allocated.init, hinit⟩ hg).2
  refine ⟨hs.1.step e, ?_⟩
  rw [hs.1.step_eq]
  exact hhandle s e hs.1 hs.2 hge

end PWViewController

/-- The functions of the platform for young worms, and for touches at the top of the
screen. -/
def Platform.young : Platform where
  fpu := ⟨fun _ => 0#32, fun _ => 0#32, fun _ => 0#32⟩
  decayAmount := fun _ => 0
  volume := fun _ => 0x3f800000#32
  roundedFreq := fun _ => 1046#32

end PoopWorms.App
