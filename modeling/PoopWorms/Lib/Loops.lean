import Mathlib.Data.List.Basic
import Mathlib.Order.Basic
import Mathlib.Tactic.Common

/-!
# Loops that may not end

A loop takes turns; a turn stops with a result, goes on, or fails. `loop` runs a loop for a
bounded number of turns. `Ends` says without a bound that a loop stops with a result, and is what
an induction over the turns goes by. A loop over indices may fail, but always ends.
-/

namespace PoopWorms.Loops

/-- How a turn ends. -/
inductive Turn (σ τ : Type*)
  | stop (t : τ)
  | again (s : σ)

variable {σ τ : Type*}

/-- What comes behind a turn. -/
def Turn.followedBy (k : σ → Option τ) : Turn σ τ → Option τ
  | .stop t => some t
  | .again s => k s

/-- The loop, for so many turns. -/
def loop (turn : σ → Option (Turn σ τ)) : ℕ → σ → Option τ
  | 0, _ => none
  | n + 1, s => (turn s).bind (Turn.followedBy (loop turn n))

/-- The loop stops with the result. -/
inductive Ends (turn : σ → Option (Turn σ τ)) : σ → τ → Prop
  | stop {s : σ} {t : τ} (h : turn s = some (.stop t)) : Ends turn s t
  | again {s s' : σ} {t : τ} (h : turn s = some (.again s')) (rest : Ends turn s' t) :
    Ends turn s t

variable {turn turn' : σ → Option (Turn σ τ)} {s s' : σ} {t : τ} {n n' : ℕ}

theorem loop_stop (h : turn s = some (.stop t)) : loop turn (n + 1) s = some t := by
  rw [loop, h]
  rfl

theorem loop_again (h : turn s = some (.again s')) : loop turn (n + 1) s = loop turn n s' := by
  rw [loop, h]
  rfl

/-- More turns, each of which does at least what it did, give the same result. -/
theorem loop_mono (hturn : ∀ s r, turn s = some r → turn' s = some r) (hn : n ≤ n')
    (h : loop turn n s = some t) : loop turn' n' s = some t := by
  induction n generalizing n' s with
  | zero => exact (nomatch h)
  | succ n ih =>
    obtain ⟨m, rfl⟩ : ∃ m, n' = m + 1 := ⟨n' - 1, by omega⟩
    rw [loop, Option.bind_eq_some_iff] at h
    obtain ⟨r, hr, hfollowed⟩ := h
    have hr' := hturn s r hr
    cases r with
    | stop t' =>
      rw [loop_stop hr']
      exact hfollowed
    | again s' =>
      rw [loop_again hr']
      exact ih (by omega) hfollowed

/-- A loop stops with a result if and only if it does so within some number of turns. -/
theorem exists_loop_iff : (∃ n, loop turn n s = some t) ↔ Ends turn s t := by
  constructor
  · intro h
    obtain ⟨n, hn⟩ := h
    induction n generalizing s with
    | zero => exact (nomatch hn)
    | succ n ih =>
      rw [loop, Option.bind_eq_some_iff] at hn
      obtain ⟨r, hr, hfollowed⟩ := hn
      cases r with
      | stop t' =>
        have ht : t' = t := Option.some.inj hfollowed
        exact .stop (ht ▸ hr)
      | again s' => exact .again hr (ih hfollowed)
  · intro h
    induction h with
    | stop h => exact ⟨1, loop_stop h⟩
    | again h _ ih =>
      obtain ⟨n, hn⟩ := ih
      exact ⟨n + 1, by rw [loop_again h, hn]⟩

/-- A loop over the indices below `n` that may fail keeps what each of its turns keeps. -/
theorem foldlM_range_inv {f : σ → ℕ → Option σ} {P : ℕ → σ → Prop} (h₀ : P 0 s)
    (hstep : ∀ i s s', P i s → f s i = some s' → P (i + 1) s') :
    ∀ {n : ℕ} {s' : σ}, (List.range n).foldlM f s = some s' → P n s'
  | 0, s', h => Option.some.inj h ▸ h₀
  | n + 1, s', h => by
    rw [List.range_succ, List.foldlM_append, Option.bind_eq_bind, Option.bind_eq_some_iff] at h
    obtain ⟨s₁, hbefore, hlast⟩ := h
    have hturn : f s₁ n = some s' := by simpa using hlast
    exact hstep n s₁ s' (foldlM_range_inv h₀ hstep hbefore) hturn

end PoopWorms.Loops
