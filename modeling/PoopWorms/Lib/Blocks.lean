import Mathlib.Data.List.Pairwise
import Mathlib.Order.Basic
import Mathlib.Tactic.Common

/-!
# Work that falls into blocks

A list that is sorted by the block each element falls into is worked off block by block: what is
pending at a block is what is due in it, and then what is pending at the next one. A stream is read
in pieces that end in padding where it is short; pieces of pieces are pieces.
-/

namespace PoopWorms.Blocks

variable {α : Type*} (blockOf : α → ℕ)

/-! ## Sorted work -/

/-- What falls into the block. -/
def due (i : ℕ) (l : List α) : List α := l.filter (blockOf · = i)

/-- What falls into the block or a later one. -/
def pending (i : ℕ) (l : List α) : List α := l.filter (i ≤ blockOf ·)

variable {blockOf} {i n : ℕ} {l : List α}

theorem mem_due {a : α} : a ∈ due blockOf i l ↔ a ∈ l ∧ blockOf a = i := by
  simp [due]

theorem mem_pending {a : α} : a ∈ pending blockOf i l ↔ a ∈ l ∧ i ≤ blockOf a := by
  simp [pending]

@[simp] theorem pending_zero : pending blockOf 0 l = l := by
  simp [pending]

theorem due_append_pending (h : l.Pairwise (blockOf · ≤ blockOf ·)) :
    due blockOf i l ++ pending blockOf (i + 1) l = pending blockOf i l := by
  induction l with
  | nil => rfl
  | cons a l ih =>
    rw [List.pairwise_cons] at h
    have ih := ih h.2
    rw [due, pending, pending] at *
    rcases Nat.lt_trichotomy (blockOf a) i with hlt | heq | hgt
    · rw [List.filter_cons_of_neg (by simp; omega), List.filter_cons_of_neg (by simp; omega),
        List.filter_cons_of_neg (by simp; omega), ih]
    · rw [List.filter_cons_of_pos (by simp; omega), List.filter_cons_of_neg (by simp; omega),
        List.filter_cons_of_pos (by simp; omega), List.cons_append, ih]
    · -- nothing is due behind an element of a later block
      have hnone : l.filter (blockOf · = i) = [] := by
        rw [List.filter_eq_nil_iff]
        intro b hb
        have hle := h.1 b hb
        simp
        omega
      rw [hnone, List.nil_append] at ih
      rw [List.filter_cons_of_neg (by simp; omega), List.filter_cons_of_pos (by simp; omega),
        List.filter_cons_of_pos (by simp; omega), ih, hnone, List.nil_append]

/-- The blocks take up all of the list, in its order. -/
theorem flatMap_due (h : l.Pairwise (blockOf · ≤ blockOf ·)) :
    (List.range n).flatMap (due blockOf · l) ++ pending blockOf n l = l := by
  induction n with
  | zero => simp
  | succ n ih =>
    rw [List.range_succ, List.flatMap_append, List.append_assoc, List.flatMap_singleton,
      due_append_pending h, ih]

/-- Something is pending up to the block of the last element. -/
theorem pending_ne_nil (h : l.Pairwise (blockOf · ≤ blockOf ·)) (hne : l ≠ []) :
    pending blockOf i l ≠ [] ↔ i ≤ blockOf (l.getLast hne) := by
  constructor
  · intro hpending
    obtain ⟨a, ha⟩ := List.exists_mem_of_ne_nil _ hpending
    rw [mem_pending] at ha
    obtain ⟨k, hk, rfl⟩ := List.getElem_of_mem ha.1
    rw [List.getLast_eq_getElem]
    rcases Nat.lt_or_ge k (l.length - 1) with hlt | hge
    · exact Nat.le_trans ha.2 (List.pairwise_iff_getElem.mp h k (l.length - 1) hk (by omega) hlt)
    · have hlast : k = l.length - 1 := by omega
      subst hlast
      exact ha.2
  · intro hle
    exact List.ne_nil_of_mem (mem_pending.mpr ⟨List.getLast_mem hne, hle⟩)

/-! ## Pieces of a stream -/

/-- The first elements of the list, with padding behind a short one. -/
def piece (pad : α) (n : ℕ) (l : List α) : List α :=
  l.take n ++ List.replicate (n - l.length) pad

variable {pad : α} {m : ℕ}

theorem take_piece : (piece pad (m + n) l).take m = piece pad m l := by
  rw [piece, piece, List.take_append, List.take_take, List.take_replicate, List.length_take]
  congr 2 <;> omega

theorem drop_piece : (piece pad (m + n) l).drop m = piece pad n (l.drop m) := by
  rw [piece, piece, List.drop_append, List.drop_take, List.drop_replicate, List.length_take,
    List.length_drop]
  congr 2 <;> omega

end PoopWorms.Blocks
