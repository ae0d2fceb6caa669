import Mathlib.Data.List.Basic
import Mathlib.Data.Int.Basic
import Mathlib.Tactic.Common

/-!
# Flat memory

A memory without ends, in which an array is a range of places. A list of values is stored from
a place on, and read back; a store changes the places of its values only.
-/

namespace PoopWorms.FlatMemory

variable {α : Type*}

/-- Store `vs` from the place `a` on. -/
def storeAt (m : ℤ → α) (a : ℤ) (vs : List α) : ℤ → α :=
  fun w => if a ≤ w then vs[(w - a).toNat]?.getD (m w) else m w

/-- The `n` values from the place `a` on. -/
def readAt (m : ℤ → α) (a : ℤ) (n : ℕ) : List α := (List.range n).map fun i : ℕ => m (a + i)

variable {m m' : ℤ → α} {a b w : ℤ} {vs ws : List α} {n k : ℕ}

/-! ## Stores -/

@[simp] theorem storeAt_nil : storeAt m a [] = m := by
  funext w
  simp [storeAt]

theorem storeAt_of_lt (h : w < a) : storeAt m a vs w = m w := if_neg (by omega)

theorem storeAt_of_le (h : a + vs.length ≤ w) : storeAt m a vs w = m w := by
  unfold storeAt
  rw [if_pos (by omega), List.getElem?_eq_none (by omega), Option.getD_none]

theorem storeAt_of_out (h : w < a ∨ a + vs.length ≤ w) : storeAt m a vs w = m w := by
  rcases h with hlt | hle
  · exact storeAt_of_lt hlt
  · exact storeAt_of_le hle

/-- What a place in the range holds then. -/
theorem storeAt_of_in (h : a ≤ w) (h' : w < a + vs.length) :
    vs[(w - a).toNat]? = some (storeAt m a vs w) := by
  have hlt : (w - a).toNat < vs.length := by omega
  unfold storeAt
  rw [if_pos h, List.getElem?_eq_getElem hlt, Option.getD_some]

/-- Stores to ranges that are apart can change places. -/
theorem storeAt_comm (h : a + vs.length ≤ b ∨ b + ws.length ≤ a) :
    storeAt (storeAt m a vs) b ws = storeAt (storeAt m b ws) a vs := by
  funext w
  by_cases ha : a ≤ w ∧ w < a + vs.length
  · have hin := storeAt_of_in (m := m) ha.1 ha.2
    have hin' := storeAt_of_in (m := storeAt m b ws) ha.1 ha.2
    rw [storeAt_of_out (by omega)]
    exact Option.some.inj (hin.symm.trans hin')
  · rw [storeAt_of_out (m := storeAt m b ws) (by omega)]
    unfold storeAt
    rw [show (if a ≤ w then vs[(w - a).toNat]?.getD (m w) else m w) = m w from
      storeAt_of_out (a := a) (by omega)]

/-- Two stores, one behind the other, are one. -/
theorem storeAt_append : storeAt m a (vs ++ ws) = storeAt (storeAt m a vs) (a + vs.length) ws := by
  funext w
  by_cases ha : a ≤ w
  · by_cases hv : w < a + vs.length
    · have hlt : (w - a).toNat < vs.length := by omega
      rw [storeAt_of_lt hv]
      unfold storeAt
      rw [if_pos ha, if_pos ha, List.getElem?_append_left hlt]
    · have hle : vs.length ≤ (w - a).toNat := by omega
      have hsub : (w - a).toNat - vs.length = (w - (a + vs.length)).toNat := by omega
      unfold storeAt
      rw [if_pos ha, if_pos (by omega), List.getElem?_append_right hle, hsub, if_pos ha,
        List.getElem?_eq_none hle, Option.getD_none]
  · rw [storeAt_of_lt (by omega), storeAt_of_lt (by omega), storeAt_of_lt (by omega)]

/-- A later store covers an earlier one. -/
theorem storeAt_cover (h : a ≤ b) (h' : b + ws.length ≤ a + vs.length) :
    storeAt (storeAt m b ws) a vs = storeAt m a vs := by
  funext w
  by_cases ha : a ≤ w ∧ w < a + vs.length
  · have hin := storeAt_of_in (m := m) ha.1 ha.2
    have hin' := storeAt_of_in (m := storeAt m b ws) ha.1 ha.2
    exact Option.some.inj (hin'.symm.trans hin)
  · rw [storeAt_of_out (by omega), storeAt_of_out (by omega), storeAt_of_out (by omega)]

/-! ## Reads -/

@[simp] theorem length_readAt : (readAt m a n).length = n := by simp [readAt]

theorem readAt_congr (h : ∀ w, a ≤ w → w < a + n → m' w = m w) : readAt m' a n = readAt m a n := by
  apply List.map_congr_left
  intro i hi
  have hlt := List.mem_range.mp hi
  exact h _ (by omega) (by omega)

theorem getElem?_readAt {i : ℕ} (h : i < n) : (readAt m a n)[i]? = some (m (a + i)) := by
  simp [readAt, h]

theorem readAt_add : readAt m a (n + k) = readAt m a n ++ readAt m (a + n) k := by
  unfold readAt
  rw [List.range_add, List.map_append, List.map_map]
  congr 1
  apply List.map_congr_left
  intro i _
  show m (a + (n + i : ℕ)) = m (a + n + i)
  congr 1
  omega

/-- What was stored is read back. -/
theorem readAt_storeAt : readAt (storeAt m a vs) a vs.length = vs := by
  apply List.ext_getElem?
  intro i
  by_cases hi : i < vs.length
  · have hin := storeAt_of_in (m := m) (show a ≤ a + i by omega) (show a + i < a + vs.length by omega)
    rw [getElem?_readAt hi, ← hin]
    congr 1
    omega
  · rw [List.getElem?_eq_none (by rw [length_readAt]; omega), List.getElem?_eq_none (by omega)]

theorem readAt_storeAt_of_out (h : a + n ≤ b ∨ b + vs.length ≤ a) :
    readAt (storeAt m b vs) a n = readAt m a n :=
  readAt_congr fun _ _ _ => storeAt_of_out (by omega)

end PoopWorms.FlatMemory
