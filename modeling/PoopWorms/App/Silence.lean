import PoopWorms.App.ModelTheorems

/-!
# Sound after a worm is cleared

`clearWorm` takes the worm off the ticker but not its sequence, and nothing deallocates the
worm afterwards, so the sequence goes on playing. A cleared worm stays silent if it has no
event left by then, and gets none later.
-/

namespace PoopWorms.App

open Octets Server Runs

namespace PWViewController

variable {env : Platform} {s s' : PWViewController}

/-- No event of a worm is fired after the worm has been cleared. -/
def NoSoundAfterClear (s : PWViewController) : Prop := NeverAfter Act.cleared Act.fired s.log

/-- `clearStuff` finds only worms without events, and no note is added to a worm that has
lost its body, which is what `clearWorm` leaves of it. -/
def ClearsSilent (s : PWViewController) : Event → Prop
  | .clearStuff => ∀ w ∈ s.worms, (s.worm w).dead
  | .touchesBegan _ _ =>
    s.creatingWorm → ∀ w, s.currentWorm = some w → (s.worm w).splotchWorm.isSome
  | _ => True

/-- A worm that has been cleared: it has no body and no event. -/
structure Cleared (s : PWViewController) (w : ℕ) : Prop where
  lt : w < s.next
  body : (s.worm w).splotchWorm = none
  silent : (s.worm w).sequence.Silent

structure SilenceState (s : PWViewController) : Prop where
  noSound : s.NoSoundAfterClear
  cleared : ∀ w, Act.cleared w ∈ s.log → s.Cleared w

theorem SilenceState.init : SilenceState init where
  noSound := neverAfter_nil
  cleared := fun _ hw => absurd hw List.not_mem_nil

/-- A step that fires nothing. -/
theorem SilenceState.of_not_fired (h : SilenceState s) {l : List Act}
    (hlog : s'.log = s.log ++ l) (hl : ∀ w, Act.fired w ∉ l)
    (hold : ∀ w, s.Cleared w → s'.Cleared w) (hnew : ∀ w, Act.cleared w ∈ l → s'.Cleared w) :
    SilenceState s' := by
  refine ⟨?_, fun w hw => ?_⟩
  · unfold NoSoundAfterClear
    rw [hlog]
    exact h.noSound.append fun w hw => absurd hw (hl w)
  · rw [hlog] at hw
    rcases List.mem_append.mp hw with hw | hw
    · exact hold w (h.cleared w hw)
    · exact hnew w hw

/-- A step that adds nothing to the log. -/
theorem SilenceState.of_log_eq (h : SilenceState s) (hlog : s'.log = s.log)
    (hold : ∀ w, s.Cleared w → s'.Cleared w) : SilenceState s' :=
  h.of_not_fired (by rw [hlog, List.append_nil]) (fun _ => List.not_mem_nil) hold
    fun _ hw => absurd hw List.not_mem_nil

theorem Cleared.congr {w : ℕ} (h : s.Cleared w) (hnext : s.next ≤ s'.next)
    (halike : Alike (s.worm w) (s'.worm w)) : s'.Cleared w := by
  refine ⟨by have hlt := h.lt; omega, ?_, ?_⟩ <;> rw [halike]
  · exact h.body
  · exact h.silent

theorem SilenceState.turned (h : SilenceState s) (ht : Turned s s') : SilenceState s' := by
  have halike : ∀ w, s.Cleared w → Alike (s.worm w) (s'.worm w) := by
    intro w hw
    have hlt := hw.lt
    exact ht.alike w (by omega)
  rcases ht.born with ⟨-, hnext, -, hlog⟩ | ⟨p, -, -, hnext, -, now, mother, father, hlog⟩
  · exact h.of_log_eq hlog fun w hw => hw.congr hnext.ge (halike w hw)
  · exact h.of_not_fired hlog (by simp) (fun w hw => hw.congr (by omega) (halike w hw)) (by simp)

theorem SilenceState.removeDead (h : SilenceState s) : SilenceState s.removeDead := by
  rw [removeDead_eq]
  exact h.of_not_fired rfl (by simp) (fun w hw => hw.congr le_rfl (.refl _)) (by simp)

theorem SilenceState.handle (hs : Allocated s) (h : SilenceState s) (e : Event)
    (hg : s.ClearsSilent e) : SilenceState (s.handle env e) := by
  have hs' := handled env s e
  generalize s.handle env e = s' at hs' ⊢
  cases hs' with
  | quiet => exact h.of_log_eq rfl fun w hw => hw.congr le_rfl (.refl _)
  | started yPercent p audio hp =>
    refine h.of_log_eq rfl fun w hw => hw.congr (Nat.le_succ _) ?_
    have hne : w ≠ s.next := by
      have hlt := hw.lt
      omega
    exact (congrArg (Alike (s.worm w)) (Function.update_of_ne hne ..)).mpr (.refl _)
  | noted inBorder yPercent w event hcreating hw =>
    -- the worm that gets the note has a body, so it is none of those cleared
    have hbody := hg hcreating w hw
    refine h.of_log_eq rfl fun x hx => hx.congr le_rfl ?_
    have hne : x ≠ w := by
      rintro rfl
      rw [hx.body] at hbody
      exact absurd hbody Bool.false_ne_true
    simp only [worm_modify, if_neg hne]
    exact .refl _
  | stopped w hw =>
    refine h.of_log_eq rfl fun x hx => ⟨hx.lt, ?_, ?_⟩ <;>
      simp only [stopCreating, worm_modify] <;> split_ifs with heq
    · rw [← heq, hx.body]
      rfl
    · exact hx.body
    · exact (heq ▸ hx.silent).play
    · exact hx.silent
  | stoppedNothing hnone => exact h.of_log_eq rfl fun w hw => hw.congr le_rfl (.refl _)
  | wormTicked w input q acts audio hobserving hq =>
    have hlt : w < s.next := by
      by_contra hge
      rw [(hs.idle w (not_lt.mp hge)).1] at hobserving
      exact absurd hobserving Bool.false_ne_true
    rcases hq with hlives | hdies
    · refine h.of_not_fired rfl (fun x hx => ?_) (fun x hx => ⟨hx.lt, ?_, ?_⟩) fun x hx => ?_
      · rcases hlives.moves _ hx with heq | heq <;> exact absurd heq (by simp)
      · simp only [worm_modify]
        split_ifs with heq
        · rw [hlives.eq]
          exact heq ▸ hx.body
        · exact hx.body
      · simp only [worm_modify]
        split_ifs with heq
        · exact hlives.silent (heq ▸ hx.silent)
        · exact hx.silent
      · rcases hlives.moves _ hx with heq | heq <;> exact absurd heq (by simp)
    · have hq : q.splotchWorm = none := by
        rw [hdies.eq]
        rfl
      rw [hdies.clears]
      refine h.of_not_fired rfl (by simp) (fun x hx => ⟨hx.lt, ?_, ?_⟩) fun x hx => ?_
      · simp only [worm_modify]
        split_ifs
        · exact hq
        · exact hx.body
      · simp only [worm_modify]
        split_ifs
        · exact hdies.silent
        · exact hx.silent
      · have heq : x = w := by simpa using hx
        refine ⟨heq ▸ hlt, ?_, ?_⟩ <;> simp only [worm_modify, if_pos heq]
        · exact hq
        · exact hdies.silent
  | sequenceTicked w order audio hobserving =>
    refine ⟨h.noSound.append fun x hx hcleared => ?_, fun x hx => ?_⟩
    · -- a worm that has been cleared has nothing to fire
      have heq := List.eq_of_mem_replicate hx
      have hmem : Act.cleared x ∈ s.log := by
        rcases List.mem_append.mp hcleared with hcleared | hcleared
        · exact hcleared
        · exact absurd (List.eq_of_mem_replicate hcleared) (by simp)
      have hsilent := (h.cleared x hmem).silent
      rw [Act.fired.inj heq] at hsilent
      rw [hsilent.fires_nothing] at hx
      exact absurd hx List.not_mem_nil
    · have hmem : Act.cleared x ∈ s.log := by
        rcases List.mem_append.mp hx with hx | hx
        · exact hx
        · exact absurd (List.eq_of_mem_replicate hx) (by simp)
      have hx := h.cleared x hmem
      refine ⟨hx.lt, ?_, ?_⟩ <;> simp only [worm_modify] <;> split_ifs with heq
      · exact heq ▸ hx.body
      · exact hx.body
      · exact (heq ▸ hx.silent).tick
      · exact hx.silent
  | ticked pairings =>
    exact tick_invariant (fun _ _ => SilenceState.turned) h.removeDead pairings
  | cleared audio =>
    refine h.of_not_fired (List.append_assoc ..) (by simp) (fun x hx => ⟨hx.lt, ?_, ?_⟩)
      fun x hx => ?_
    · simp only
      split_ifs
      · rfl
      · exact hx.body
    · simp only
      split_ifs
      · exact hx.silent
      · exact hx.silent
    · have hmem : x ∈ s.worms := by simpa using hx
      refine ⟨hs.worms x hmem, ?_, ?_⟩ <;> simp only [if_pos hmem]
      · rfl
      · exact (PWWorm.dead_iff _).mp (hg x hmem)

/-- In every run that clears only worms without events, and adds no note to a worm without a
body, a worm is silent once it has been cleared. -/
theorem noSoundAfterClear_of_guarded (env : Platform) (es : List Event)
    (hg : Guarded (step env) ClearsSilent init es) : (run env es).NoSoundAfterClear :=
  (run_invariant SilenceState.init (fun _ e hs h hge => h.handle hs e hge) hg).noSound

/-- A worm without notes is cleared, and its sequence ticks. -/
theorem noSoundAfterClear_of_guarded_without_notes :
    (run .young [.touchesBegan true 0#32, .stopTimer, .clearStuff,
      .sequenceTick 0 []]).NoSoundAfterClear :=
  noSoundAfterClear_of_guarded .young _
    ⟨fun hcreating => absurd hcreating Bool.false_ne_true, trivial,
      by simp only [ClearsSilent]; decide, trivial, trivial⟩

/-- A worm with one note is cleared, and its sequence ticks. -/
theorem not_noSoundAfterClear : ¬ ∀ env es, (run env es).NoSoundAfterClear := by
  intro h
  have hlog : (run .young [.touchesBegan true 0#32, .touchesBegan false 0#32, .stopTimer,
      .clearStuff, .sequenceTick 0 []]).log = [.cleared 0, .left 0, .fired 0] := by
    decide
  have hsound := h .young [.touchesBegan true 0#32, .touchesBegan false 0#32, .stopTimer,
    .clearStuff, .sequenceTick 0 []]
  unfold NoSoundAfterClear NeverAfter at hsound
  rw [hlog] at hsound
  exact (List.pairwise_cons.mp hsound).1 (.fired 0) (by simp) 0 rfl rfl

end PWViewController

end PoopWorms.App
