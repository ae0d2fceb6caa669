import PoopWorms.App.ModelTheorems

/-!
# The worm that is being created

The controller's `creatingWorm` and `currentWorm`, the population, and the worm's own flags
belong together. `clearStuff` updates only the population: it takes the current worm away
from it while the worm is still being created. Every other event keeps the parts together.
-/

namespace PoopWorms.App

open Octets Server

namespace PWViewController

variable {env : Platform} {s s' : PWViewController}

/-- A worm on its way into the population. -/
structure InCreation (s : PWViewController) (w : ℕ) : Prop where
  mem : w ∈ s.worms
  creating : (s.worm w).creating
  recording : (s.worm w).sequence.seq.recording
  body : (s.worm w).splotchWorm.isSome

/-- `creatingWorm` is set if and only if there is a current worm, and then the current worm
is on its way into the population. -/
structure CreationState (s : PWViewController) : Prop where
  iff : s.creatingWorm = true ↔ s.currentWorm.isSome
  current : ∀ w, s.currentWorm = some w → s.InCreation w

/-- Nothing is cleared while a worm is being created. -/
def ClearsWhenIdle (s : PWViewController) : Event → Prop
  | .clearStuff => s.creatingWorm = false
  | _ => True

theorem CreationState.init : CreationState init where
  iff := by decide
  current := fun _ hw => absurd hw (Option.some_ne_none _).symm

/-- Nothing that the creation of a worm depends on is touched. -/
theorem InCreation.congr {w : ℕ} (h : s.InCreation w) (hmem : w ∈ s'.worms)
    (halike : Alike (s.worm w) (s'.worm w)) : s'.InCreation w := by
  refine ⟨hmem, ?_, ?_, ?_⟩ <;> rw [halike]
  · exact h.creating
  · exact h.recording
  · exact h.body

theorem CreationState.turned (hs : Allocated s) (h : CreationState s) (ht : Turned s s') :
    CreationState s' := by
  refine ⟨by rw [ht.creatingWorm, ht.currentWorm]; exact h.iff, fun w hw => ?_⟩
  rw [ht.currentWorm] at hw
  have hlt := hs.current w hw
  have hmem : w ∈ s'.worms := by
    rcases ht.born with ⟨-, -, hworms, -⟩ | ⟨-, -, -, -, hworms, -⟩
    · rw [hworms]
      exact (h.current w hw).mem
    · rw [hworms]
      exact List.mem_append_left _ (h.current w hw).mem
  exact (h.current w hw).congr hmem (ht.alike w (by omega))

/-- The sweep leaves a worm that is being created where it is. -/
theorem CreationState.removeDead (h : CreationState s) : CreationState s.removeDead := by
  rw [removeDead_eq]
  refine ⟨h.iff, fun w hw => (h.current w hw).congr ?_ (.refl _)⟩
  have hcreating := (h.current w hw).creating
  refine List.mem_filter.mpr ⟨(h.current w hw).mem, ?_⟩
  simp [Removable, hcreating]

theorem CreationState.handle (hs : Allocated s) (h : CreationState s) (e : Event)
    (hg : s.ClearsWhenIdle e) : CreationState (s.handle env e) := by
  have hs' := handled env s e
  generalize s.handle env e = s' at hs' ⊢
  cases hs' with
  | quiet => exact ⟨h.iff, fun w hw => (h.current w hw).congr (h.current w hw).mem (.refl _)⟩
  | started yPercent p audio hp =>
    refine ⟨by simp, fun w hw => ?_⟩
    have hw' : w = s.next := (Option.some.inj hw).symm
    have hp' : (Function.update s.worm s.next p) w = p := by rw [hw', Function.update_self]
    refine ⟨by simp [hw'], ?_, ?_, ?_⟩ <;> simp only [withWorm, hp']
    · exact hp.creating
    · exact hp.recording
    · rw [hp.splotchWorm]
      rfl
  | noted inBorder yPercent w event hcreating hw =>
    refine ⟨h.iff, fun x hx => ?_⟩
    have hcur := h.current x hx
    refine ⟨hcur.mem, ?_, ?_, ?_⟩ <;> simp only [worm_modify] <;> split_ifs with heq
    · exact heq ▸ hcur.creating
    · exact hcur.creating
    · rw [Sequence.recording_addEvent]
      exact heq ▸ hcur.recording
    · exact hcur.recording
    · exact heq ▸ hcur.body
    · exact hcur.body
  | stopped w hw => exact ⟨by simp, fun _ hx => absurd hx (Option.some_ne_none _).symm⟩
  | stoppedNothing hnone => exact ⟨by simp, fun _ hx => absurd hx (Option.some_ne_none _).symm⟩
  | wormTicked w input q acts audio hobserving hq =>
    refine ⟨h.iff, fun x hx => (h.current x hx).congr (h.current x hx).mem ?_⟩
    have hcreating := (h.current x hx).creating
    simp only [worm_modify]
    split_ifs with heq
    · rw [heq] at hcreating ⊢
      rcases hq with hlives | hdies
      · rw [hlives.creating hcreating]
        exact .refl _
      · rw [hdies.creating] at hcreating
        exact absurd hcreating Bool.false_ne_true
    · exact .refl _
  | sequenceTicked w order audio hobserving =>
    refine ⟨h.iff, fun x hx => ?_⟩
    have hcur := h.current x hx
    refine ⟨hcur.mem, ?_, ?_, ?_⟩ <;> simp only [worm_modify] <;> split_ifs with heq
    · exact heq ▸ hcur.creating
    · exact hcur.creating
    · rw [Sequence.recording_tick]
      exact heq ▸ hcur.recording
    · exact hcur.recording
    · exact heq ▸ hcur.body
    · exact hcur.body
  | ticked pairings =>
    exact (tick_invariant (I := fun s => Allocated s ∧ CreationState s)
      (fun _ _ hI ht => ⟨hI.1.turned ht, hI.2.turned hI.1 ht⟩)
      ⟨hs.removeDead, h.removeDead⟩ pairings).2
  | cleared audio =>
    -- without a current worm, nothing is asked of the population
    have hnone : s.currentWorm.isSome = false := by
      rw [← Bool.not_eq_true, ← h.iff, Bool.not_eq_true]
      exact hg
    refine ⟨h.iff, fun w hw => ?_⟩
    rw [hw] at hnone
    exact absurd hnone (by simp)

/-- In every run that clears only while no worm is being created, the flags of the
controller, the population and the current worm agree in every state. -/
theorem creationState_of_guarded (env : Platform) (es : List Event)
    (hg : Runs.Guarded (step env) ClearsWhenIdle init es) : CreationState (run env es) :=
  run_invariant CreationState.init (fun _ e hs h hge => h.handle hs e hge) hg

/-- A worm is created, gets a note and is done; everything is cleared; the next worm begins. -/
theorem creationState_of_guarded_two_worms :
    CreationState (run .young [.touchesBegan true 0#32, .touchesBegan false 0#32, .stopTimer,
      .clearStuff, .touchesBegan true 0#32]) :=
  creationState_of_guarded .young _ ⟨trivial, trivial, trivial, rfl, trivial, trivial⟩

/-- After a touch of the border and `clearStuff`, the current worm is not in the population. -/
theorem not_creationState : ¬ ∀ env es, CreationState (run env es) := by
  intro h
  have hcurrent := (h .young [.touchesBegan true 0#32, .clearStuff]).current 0 (by decide +kernel)
  exact absurd hcurrent.mem (by decide +kernel)

end PWViewController

end PoopWorms.App
