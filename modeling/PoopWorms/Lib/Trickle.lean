import Mathlib.Data.List.Basic
import Mathlib.Tactic.Common

/-!
# Streams in pieces

A stream hands over what is in it in pieces of any size. A reader that asks again for what is
still missing gets what it wants, or all there is.
-/

namespace PoopWorms

/-- What is still in the stream, and one less than the most that each piece may hold. -/
structure Trickle (α : Type*) where
  rest : List α
  bound : ℕ → ℕ

namespace Trickle

variable {α : Type*}

/-- The next piece, of at most `len` items. -/
def piece (s : Trickle α) (len : ℕ) : List α × Trickle α :=
  let n := min len (s.bound 0 + 1)
  (s.rest.take n, ⟨s.rest.drop n, fun i => s.bound (i + 1)⟩)

/-- Pieces until `len` items are there or the stream has come to its end. Every piece but the last
has an item, which bounds the turns. -/
def gather : ℕ → Trickle α → ℕ → List α × Trickle α
  | 0, s, _ => ([], s)
  | turns + 1, s, len =>
    if len = 0 then ([], s)
    else
      let (got, s) := s.piece len
      if got = [] then ([], s)
      else
        let (more, s) := gather turns s (len - got.length)
        (got ++ more, s)

/-- `len` items of the stream, or all there are. -/
def all (s : Trickle α) (len : ℕ) : List α × Trickle α := gather len s len

theorem gather_eq {turns len : ℕ} (s : Trickle α) (h : len ≤ turns) :
    (gather turns s len).1 = s.rest.take len ∧ (gather turns s len).2.rest = s.rest.drop len := by
  induction turns generalizing s len with
  | zero =>
    obtain rfl : len = 0 := by omega
    exact ⟨rfl, rfl⟩
  | succ turns ih =>
    rw [gather]
    by_cases hlen : len = 0
    · rw [if_pos hlen, hlen]
      exact ⟨rfl, rfl⟩
    · rw [if_neg hlen]
      set n := min len (s.bound 0 + 1) with hn
      have hpos : 0 < n := by omega
      have hle : n ≤ len := by omega
      have hpiece : s.piece len = (s.rest.take n, ⟨s.rest.drop n, fun i => s.bound (i + 1)⟩) := rfl
      rw [hpiece]
      dsimp only
      by_cases hend : s.rest.take n = []
      · -- a piece that asks for an item and gets none is at the end
        have hnil : s.rest = [] := by
          rcases List.take_eq_nil_iff.mp hend with hzero | hnil
          · omega
          · exact hnil
        rw [if_pos hend, hnil]
        exact ⟨List.take_nil.symm, (List.drop_nil).trans List.drop_nil.symm⟩
      · rw [if_neg hend]
        have hgot : 0 < (s.rest.take n).length := List.length_pos_iff.mpr hend
        obtain ⟨hmore, hrest⟩ := ih ⟨s.rest.drop n, fun i => s.bound (i + 1)⟩
          (show len - (s.rest.take n).length ≤ turns by omega)
        rw [hmore, hrest]
        by_cases hshort : n ≤ s.rest.length
        · have htake : (s.rest.take n).length = n := by
            rw [List.length_take]
            omega
          have hsum : len = n + (len - n) := by omega
          rw [htake]
          constructor
          · rw [← List.take_add, ← hsum]
          · rw [List.drop_drop, ← hsum]
        · have htake : s.rest.take n = s.rest := List.take_of_length_le (by omega)
          have hdrop : s.rest.drop n = [] := List.drop_eq_nil_of_le (by omega)
          dsimp only
          rw [hdrop, htake, List.take_nil, List.append_nil, List.drop_nil]
          exact ⟨(List.take_of_length_le (by omega)).symm, (List.drop_eq_nil_of_le (by omega)).symm⟩

@[simp] theorem all_fst (s : Trickle α) (len : ℕ) : (s.all len).1 = s.rest.take len :=
  (gather_eq s (Nat.le_refl len)).1

@[simp] theorem all_rest (s : Trickle α) (len : ℕ) : (s.all len).2.rest = s.rest.drop len :=
  (gather_eq s (Nat.le_refl len)).2

end Trickle

end PoopWorms
