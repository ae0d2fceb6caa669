import Mathlib.Data.List.Basic
import Mathlib.Order.WellFounded

/-!
# Runs of a deterministic machine

A machine is a step function `step : σ → ε → σ`; a run feeds it a list of events, first
to last. `Guarded` says that every step of a run is taken in a state where a guard
allows it, and the two invariant rules carry a property from the first state of a run to
every state it reaches. A run of which every step decreases a rank comes to its end.
-/

namespace PoopWorms.Runs

variable {σ ε : Type*}

/-- The state reached from `s` by the events of `es`, first to last. -/
def run (step : σ → ε → σ) (s : σ) (es : List ε) : σ := es.foldl step s

/-- Every event of the run arrives in a state in which the guard allows it. -/
def Guarded (step : σ → ε → σ) (G : σ → ε → Prop) : σ → List ε → Prop
  | _, [] => True
  | s, e :: es => G s e ∧ Guarded step G (step s e) es

variable {step : σ → ε → σ} {G : σ → ε → Prop} {I : σ → Prop}

/-- Whether a run is guarded can be computed. -/
instance decidableGuarded [∀ s e, Decidable (G s e)] :
    ∀ s es, Decidable (Guarded step G s es)
  | _, [] => isTrue trivial
  | s, e :: es => @instDecidableAnd _ _ _ (decidableGuarded (step s e) es)

@[simp] theorem run_nil (s : σ) : run step s [] = s := rfl

@[simp] theorem run_cons (s : σ) (e : ε) (es : List ε) :
    run step s (e :: es) = run step (step s e) es := rfl

theorem run_singleton (step : σ → ε → σ) (s : σ) (e : ε) : run step s [e] = step s e := rfl

theorem run_append (s : σ) (es es' : List ε) :
    run step s (es ++ es') = run step (run step s es) es' := List.foldl_append

@[simp] theorem guarded_nil (s : σ) : Guarded step G s [] := trivial

@[simp] theorem guarded_cons (s : σ) (e : ε) (es : List ε) :
    Guarded step G s (e :: es) ↔ G s e ∧ Guarded step G (step s e) es := Iff.rfl

/-- A property that every allowed step keeps holds of every state of a guarded run. -/
theorem invariant_of_guarded (hstep : ∀ s e, I s → G s e → I (step s e)) {s : σ}
    {es : List ε} (hs : I s) (hg : Guarded step G s es) : I (run step s es) := by
  induction es generalizing s with
  | nil => exact hs
  | cons e es ih =>
    obtain ⟨he, hes⟩ := hg
    exact ih (hstep s e hs he) hes

/-- A property that every step keeps holds of every state of every run. -/
theorem invariant (hstep : ∀ s e, I s → I (step s e)) {s : σ} (hs : I s) (es : List ε) :
    I (run step s es) := by
  induction es generalizing s with
  | nil => exact hs
  | cons e es ih => exact ih (hstep s e hs)

/-- Two guards that allow the same steps where an invariant holds allow the same runs. -/
theorem guarded_congr {H : σ → ε → Prop} (hstep : ∀ s e, I s → I (step s e))
    (hiff : ∀ s e, I s → (G s e ↔ H s e)) {s : σ} (hs : I s) (es : List ε) :
    Guarded step G s es ↔ Guarded step H s es := by
  induction es generalizing s with
  | nil => simp
  | cons e es ih => rw [guarded_cons, guarded_cons, hiff s e hs, ih (hstep s e hs)]

/-- As above, where the invariant is kept by the allowed steps only. -/
theorem guarded_congr_of_guarded {H : σ → ε → Prop} (hstep : ∀ s e, I s → G s e → I (step s e))
    (hiff : ∀ s e, I s → (G s e ↔ H s e)) {s : σ} (hs : I s) (es : List ε) :
    Guarded step G s es ↔ Guarded step H s es := by
  induction es generalizing s with
  | nil => simp
  | cons e es ih =>
    rw [guarded_cons, guarded_cons, ← hiff s e hs]
    exact and_congr_right fun hG => ih (hstep s e hs hG)

/-- As long as the run is not over, every step decreases a rank: then it comes to its end,
whatever the events are. -/
theorem exists_over {μ : Type*} [Preorder μ] [WellFoundedLT μ] {E : ε → Prop} {Over : σ → Prop}
    (rank : σ → μ) (hstep : ∀ s e, I s → E e → I (step s e))
    (hrank : ∀ s e, I s → E e → ¬ Over s → rank (step s e) < rank s) {s : σ} (hs : I s)
    (events : ℕ → ε) (hevents : ∀ n, E (events n)) :
    ∃ n, Over (run step s ((List.range n).map events)) := by
  induction h : rank s using WellFoundedLT.induction generalizing s events with
  | ind r ih =>
    by_cases hover : Over s
    · exact ⟨0, hover⟩
    · have hlt : rank (step s (events 0)) < r := h ▸ hrank s _ hs (hevents 0) hover
      obtain ⟨n, hn⟩ := ih _ hlt (hstep s _ hs (hevents 0)) (fun n => events (n + 1))
        (fun n => hevents (n + 1)) rfl
      refine ⟨n + 1, ?_⟩
      rwa [List.range_succ_eq_map, List.map_cons, List.map_map, run_cons]

/-! ## Traces -/

section Traces

variable {α ι : Type*} {a b : ι → α} {log l : List α}

/-- In a trace, nothing of the form `b i` follows `a i`. -/
def NeverAfter (a b : ι → α) (log : List α) : Prop :=
  log.Pairwise fun x y => ∀ i, x = a i → y ≠ b i

theorem neverAfter_nil : NeverAfter a b [] := List.Pairwise.nil

/-- A trace may grow by what is not forbidden by the whole of it. -/
theorem NeverAfter.append (h : NeverAfter a b log) (hl : ∀ i, b i ∈ l → a i ∉ log ++ l) :
    NeverAfter a b (log ++ l) := by
  unfold NeverAfter
  rw [List.pairwise_append]
  refine ⟨h, List.pairwise_of_forall_mem_list ?_, ?_⟩
  · rintro x hx y hy i rfl rfl
    exact hl i hy (List.mem_append_right _ hx)
  · rintro x hx y hy i rfl rfl
    exact hl i hy (List.mem_append_left _ hx)

end Traces

end PoopWorms.Runs
