import PoopWorms.App.ModelTheorems

/-!
# The time between two births

The test in front of a birth reads `!worm1.mating || !worm2.mating && …`: where the first
worm is not mating, the dates of the two are not looked at. The cooldown holds as long as
that does not matter, that is, as long as a birth behind `!worm1.mating` finds both worms
without a date in the last three seconds.
-/

namespace PoopWorms.App

open Octets Server Runs

/-- A birth at `now`, with `w` for a parent. -/
def Act.BornTo (act : Act) (w : ℕ) (now : ℚ) : Prop :=
  ∃ mother father, act = .born now mother father ∧ (w = mother ∨ w = father)

/-- A worm without a date in the last three seconds. -/
def PWWorm.Rested (p : PWWorm) (now : ℚ) : Prop :=
  ∀ lastDate ∈ p.lastDate, 3 < now - lastDate

instance (p : PWWorm) (now : ℚ) : Decidable (p.Rested now) :=
  inferInstanceAs (Decidable (∀ lastDate ∈ p.lastDate, 3 < now - lastDate))

/-- A birth behind `!worm1.mating` finds both worms rested. -/
def MatingLoop.Respectful (m : MatingLoop) (pairing : Pairing) : Prop :=
  pairing.intersects → pairing.draws.coin.val ≠ 0 →
    ∀ worm1 ∈ m.app.worms[m.i]?, ∀ worm2 ∈ m.app.worms[m.j]?, ¬ (m.app.worm worm1).mating →
      (m.app.worm worm1).Rested pairing.now ∧ (m.app.worm worm2).Rested pairing.now

instance (m : MatingLoop) (pairing : Pairing) : Decidable (m.Respectful pairing) :=
  inferInstanceAs (Decidable (_ → _ → ∀ worm1 ∈ m.app.worms[m.i]?, ∀ worm2 ∈ m.app.worms[m.j]?,
    ¬ (m.app.worm worm1).mating → _))

namespace PWViewController

variable {env : Platform} {s s' : PWViewController}

/-- Two births that share a parent are more than three seconds apart. -/
def Cooldown (s : PWViewController) : Prop :=
  s.log.Pairwise fun a b => ∀ w now now', a.BornTo w now → b.BornTo w now' → 3 < now' - now

/-- Every turn of the mating loop is respectful. -/
def MatesRespectfully (env : Platform) (s : PWViewController) : Event → Prop
  | .tick pairings => Guarded (MatingLoop.turn env) MatingLoop.Respectful s.matingLoop pairings
  | _ => True

instance (s : PWViewController) : ∀ e, Decidable (MatesRespectfully env s e)
  | .tick pairings => inferInstanceAs (Decidable (Guarded _ _ s.matingLoop pairings))
  | .touchesBegan .. | .stopTimer | .wormTick .. | .sequenceTick .. | .clearStuff
  | .synthEnds _ => isTrue trivial

/-- The births are apart, and the last date of a worm is no earlier than any birth it had. -/
structure DateState (s : PWViewController) : Prop where
  cooldown : s.Cooldown
  dated : ∀ act ∈ s.log, ∀ w now, act.BornTo w now →
    w < s.next ∧ ∃ lastDate, (s.worm w).lastDate = some lastDate ∧ now ≤ lastDate

theorem DateState.init : DateState init where
  cooldown := List.Pairwise.nil
  dated := fun _ hact => absurd hact List.not_mem_nil

/-- A step without a birth. -/
theorem DateState.of_not_born (h : DateState s) {l : List Act} (hlog : s'.log = s.log ++ l)
    (hl : ∀ act ∈ l, ∀ w now, ¬ act.BornTo w now) (hnext : s.next ≤ s'.next)
    (hold : ∀ w < s.next, (s'.worm w).lastDate = (s.worm w).lastDate) : DateState s' := by
  refine ⟨?_, fun act hact w now hborn => ?_⟩
  · unfold Cooldown
    rw [hlog, List.pairwise_append]
    refine ⟨h.cooldown, List.pairwise_of_forall_mem_list ?_, ?_⟩
    · intro a _ b hb w now now' _ hborn
      exact absurd hborn (hl b hb w now')
    · intro a _ b hb w now now' _ hborn
      exact absurd hborn (hl b hb w now')
  · rw [hlog] at hact
    rcases List.mem_append.mp hact with hact | hact
    · rcases h.dated act hact w now hborn with ⟨hlt, hdate⟩
      rw [hold w hlt]
      exact ⟨by omega, hdate⟩
    · exact absurd hborn (hl act hact w now)

theorem DateState.of_same (h : DateState s) (hlog : s'.log = s.log) (hnext : s.next ≤ s'.next)
    (hold : ∀ w < s.next, (s'.worm w).lastDate = (s.worm w).lastDate) : DateState s' :=
  h.of_not_born (by rw [hlog, List.append_nil]) (fun _ hact => absurd hact List.not_mem_nil)
    hnext hold

theorem lastDate_couple (s : PWViewController) (worm1 worm2 x : ℕ) :
    ((s.couple worm1 worm2).worm x).lastDate = (s.worm x).lastDate := by
  unfold couple
  simp only [worm_modify]
  split_ifs <;> simp_all

theorem lastDate_date (s : PWViewController) (worm1 worm2 x : ℕ) (now : ℚ) :
    ((s.date worm1 worm2 now).worm x).lastDate
      = if x = worm1 ∨ x = worm2 then some now else (s.worm x).lastDate := by
  unfold date
  simp only [worm_modify]
  split_ifs <;> simp_all

/-- Worms that may mate are rested, if they are where their dates are not looked at. -/
theorem MayMate.rested {worm1 worm2 : ℕ} {now : ℚ} (h : s.MayMate worm1 worm2 now)
    (hfree : ¬ (s.worm worm1).mating → (s.worm worm1).Rested now ∧ (s.worm worm2).Rested now) :
    (s.worm worm1).Rested now ∧ (s.worm worm2).Rested now := by
  rcases h with hmating | ⟨-, h₁, h₂⟩
  · exact hfree hmating
  · unfold PWWorm.sinceLastDate at h₁ h₂
    refine ⟨fun lastDate hdate => ?_, fun lastDate hdate => ?_⟩
    · rwa [hdate] at h₁
    · rwa [hdate] at h₂

/-- A birth to two worms that are rested. -/
theorem DateState.born (h : DateState s) {worm1 worm2 : ℕ} {now : ℚ} (hlt₁ : worm1 < s.next)
    (hlt₂ : worm2 < s.next) (hrested₁ : (s.worm worm1).Rested now)
    (hrested₂ : (s.worm worm2).Rested now)
    (hlog : s'.log = s.log ++ [.born now worm1 worm2]) (hnext : s'.next = s.next + 1)
    (hdates : ∀ w < s.next, (s'.worm w).lastDate
      = if w = worm1 ∨ w = worm2 then some now else (s.worm w).lastDate) : DateState s' := by
  -- a birth that a parent of the new one had is more than three seconds ago
  have hago : ∀ act ∈ s.log, ∀ w t, act.BornTo w t → w = worm1 ∨ w = worm2 → 3 < now - t := by
    intro act hact w t hborn hw
    rcases h.dated act hact w t hborn with ⟨-, lastDate, hdate, hle⟩
    have hrested : 3 < now - lastDate := by
      rcases hw with rfl | rfl
      · exact hrested₁ lastDate hdate
      · exact hrested₂ lastDate hdate
    linarith
  have hnew : ∀ w t, (Act.born now worm1 worm2).BornTo w t →
      t = now ∧ (w = worm1 ∨ w = worm2) := by
    rintro w t ⟨mother, father, heq, hw⟩
    cases heq
    exact ⟨rfl, hw⟩
  refine ⟨?_, fun act hact w t hborn => ?_⟩
  · unfold Cooldown
    rw [hlog, List.pairwise_append]
    refine ⟨h.cooldown, List.pairwise_singleton .., fun a ha b hb w t t' hborn hborn' => ?_⟩
    rw [List.mem_singleton.mp hb] at hborn'
    rcases hnew w t' hborn' with ⟨rfl, hw⟩
    exact hago a ha w t hborn hw
  · rw [hlog] at hact
    rcases List.mem_append.mp hact with hact | hact
    · rcases h.dated act hact w t hborn with ⟨hlt, lastDate, hdate, hle⟩
      refine ⟨by omega, ?_⟩
      rw [hdates w hlt]
      split_ifs with hw
      · have hlong := hago act hact w t hborn hw
        exact ⟨now, rfl, by linarith⟩
      · exact ⟨lastDate, hdate, hle⟩
    · rw [List.mem_singleton.mp hact] at hborn
      rcases hnew w t hborn with ⟨rfl, hw⟩
      have hlt : w < s.next := by
        rcases hw with rfl | rfl
        · exact hlt₁
        · exact hlt₂
      refine ⟨by omega, t, ?_, le_rfl⟩
      rw [hdates w hlt, if_pos hw]

theorem DateState.meet (h : DateState s) {worm1 worm2 : ℕ} (hlt₁ : worm1 < s.next)
    (hlt₂ : worm2 < s.next) (pairing : Pairing)
    (hg : pairing.draws.coin ≠ 0 → ¬ (s.worm worm1).mating →
      (s.worm worm1).Rested pairing.now ∧ (s.worm worm2).Rested pairing.now) :
    DateState (s.meet env worm1 worm2 pairing) := by
  rcases meet_eq env s worm1 worm2 pairing with hcouple
    | ⟨hmay, hcoin, p, nextEvent, audio, hp, hborn⟩
  · rw [hcouple]
    exact h.of_same rfl le_rfl fun w _ => lastDate_couple s worm1 worm2 w
  · rw [hborn]
    rcases hmay.rested (hg hcoin) with ⟨hrested₁, hrested₂⟩
    refine h.born hlt₁ hlt₂ hrested₁ hrested₂ rfl rfl fun w hw => ?_
    rw [lastDate_couple, lastDate_date]
    simp only [withWorm, Function.update_of_ne hw.ne]

theorem DateState.turn {m : MatingLoop} (hs : Allocated m.app) (h : DateState m.app)
    (pairing : Pairing) (hg : m.Respectful pairing) : DateState (m.turn env pairing).app := by
  unfold MatingLoop.turn
  split
  · exact h
  · next worm1 worm2 hworm1 hworm2 =>
    split_ifs with hintersects
    · refine h.meet (hs.worms worm1 (List.mem_of_getElem? hworm1))
        (hs.worms worm2 (List.mem_of_getElem? hworm2)) pairing fun hcoin => ?_
      exact hg hintersects (Fin.val_ne_of_ne hcoin) worm1 hworm1 worm2 hworm2
    · exact h
  · simp only
    split_ifs
    · exact h
    · refine h.of_same rfl le_rfl fun w _ => ?_
      simp only [worm_modify]
      split_ifs with heq
      · rw [heq]
      · rfl

theorem DateState.removeDead (h : DateState s) : DateState s.removeDead := by
  rw [removeDead_eq]
  refine h.of_not_born rfl (fun act hact w now hborn => ?_) le_rfl fun _ _ => rfl
  rcases hborn with ⟨mother, father, rfl, -⟩
  simp at hact

theorem DateState.handle (hs : Allocated s) (h : DateState s) (e : Event)
    (hg : MatesRespectfully env s e) : DateState (s.handle env e) := by
  have hs' := handled env s e
  generalize s.handle env e = s' at hs' ⊢
  cases hs' with
  | quiet => exact h.of_same rfl le_rfl fun _ _ => rfl
  | started yPercent p audio hp =>
    refine h.of_same rfl (Nat.le_succ _) fun w hw => ?_
    simp only [withWorm, Function.update_of_ne hw.ne]
  | noted inBorder yPercent w event hcreating hw =>
    refine h.of_same rfl le_rfl fun x _ => ?_
    simp only [worm_modify]
    split_ifs with heq
    · rw [heq]
    · rfl
  | stopped w hw =>
    refine h.of_same rfl le_rfl fun x _ => ?_
    simp only [stopCreating, worm_modify]
    split_ifs with heq
    · rw [heq]
    · rfl
  | stoppedNothing hnone => exact h.of_same rfl le_rfl fun _ _ => rfl
  | wormTicked w input q acts audio hobserving hq =>
    refine h.of_not_born rfl (fun act hact x now hborn => ?_) le_rfl fun x _ => ?_
    · rcases hborn with ⟨mother, father, rfl, -⟩
      rcases hq with hlives | hdies
      · simpa using hlives.moves _ hact
      · simp [hdies.clears] at hact
    · simp only [worm_modify]
      split_ifs with heq
      · rw [heq]
        rcases hq with hlives | hdies
        · rw [hlives.eq]
        · rw [hdies.eq]
          rfl
      · rfl
  | sequenceTicked w order audio hobserving =>
    refine h.of_not_born rfl (fun act hact x now hborn => ?_) le_rfl fun x _ => ?_
    · rcases hborn with ⟨mother, father, rfl, -⟩
      exact absurd (List.eq_of_mem_replicate hact) (by simp)
    · simp only [worm_modify]
      split_ifs with heq
      · rw [heq]
      · rfl
  | ticked pairings =>
    exact (invariant_of_guarded (I := fun m : MatingLoop => Allocated m.app ∧ DateState m.app)
      (fun m pairing hm hg => ⟨hm.1.turned (turned_turn m pairing), hm.2.turn hm.1 pairing hg⟩)
      ⟨hs.removeDead, h.removeDead⟩ hg).2
  | cleared audio =>
    refine h.of_not_born (List.append_assoc ..) (fun act hact w now hborn => ?_) le_rfl
      fun w _ => ?_
    · rcases hborn with ⟨mother, father, rfl, -⟩
      simp at hact
    · simp only
      split_ifs <;> rfl

/-- In every run whose births behind `!worm1.mating` find both worms rested, two births that
share a parent are more than three seconds apart. -/
theorem cooldown_of_guarded (env : Platform) (es : List Event)
    (hg : Guarded (step env) (MatesRespectfully env) init es) : (run env es).Cooldown :=
  (run_invariant DateState.init (fun _ e hs h hge => h.handle hs e hge) hg).cooldown

/-- Some worms with a note each. -/
def wormsWithNotes (n : ℕ) : List Event :=
  (List.replicate n [.touchesBegan true 0#32, .touchesBegan false 0#32, .stopTimer]).flatten

/-- Some worms with a note each, before the pool is drained, which deallocates none of them. -/
def population (n : ℕ) : PWViewController := Runs.run (handle .young) init (wormsWithNotes n)

/-- A pair at some time, with the coin for an offspring that gets the first note. -/
def pairingAt (now : ℚ) (intersects : Bool) : Pairing :=
  ⟨intersects, now, .plain⟩

/-- Two worms meet in a tick, and again ten seconds later. -/
theorem cooldown_of_guarded_two_worms :
    (run .young (wormsWithNotes 2
      ++ [.tick ([true, false, false, false, false, false].map (pairingAt 10)),
        .tick ([true].map (pairingAt 20))])).Cooldown :=
  cooldown_of_guarded .young _ (by decide +kernel)

/-- Of three worms, the first and the last meet, and then the second and the last, in one
tick: both pairs have an offspring. -/
theorem not_cooldown : ¬ ∀ env es, (run env es).Cooldown := by
  intro h
  have hlog : (run .young (wormsWithNotes 3 ++ [.tick ([false, true, false, false, true].map
      (pairingAt 10))])).log = [.born 10 0 2, .born 10 1 2] := by decide +kernel
  have hcooldown := h .young (wormsWithNotes 3 ++ [.tick ([false, true, false, false, true].map
    (pairingAt 10))])
  unfold Cooldown at hcooldown
  rw [hlog] at hcooldown
  have hlong := (List.pairwise_cons.mp hcooldown).1 (.born 10 1 2) (by simp) 2 10 10
    ⟨0, 2, rfl, .inr rfl⟩ ⟨1, 2, rfl, .inr rfl⟩
  norm_num at hlong

end PWViewController

end PoopWorms.App
