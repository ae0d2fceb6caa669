import Mathlib.Logic.Basic

/-!
# Programs with a state and exceptions

How a program of `ExceptT ε (StateM σ)` goes on after its first part: an exception keeps the state
that it was thrown in, and skips the rest.
-/

namespace PoopWorms.Raising

variable {ε σ α β : Type} {x : ExceptT ε (StateM σ) α} {f : α → ExceptT ε (StateM σ) β}
  {s s' : σ} {v : α} {e : ε}

theorem run_bind_ok (h : x.run s = (.ok v, s')) : (x >>= f).run s = (f v).run s' := by
  rw [ExceptT.run_bind]
  show (match x.run s with
    | (r, s') => (ExceptT.bindCont (fun v => f v) r).run s') = _
  rw [h]
  rfl

theorem run_bind_error (h : x.run s = (.error e, s')) : (x >>= f).run s = (.error e, s') := by
  rw [ExceptT.run_bind]
  show (match x.run s with
    | (r, s') => (ExceptT.bindCont (fun v => f v) r).run s') = _
  rw [h]
  rfl

end PoopWorms.Raising
