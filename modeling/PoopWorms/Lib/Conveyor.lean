import Mathlib.Data.List.Basic
import Mathlib.Data.List.Zip

/-!
# Conveyors

A conveyor is a list in which a turn takes the front element away and puts a new one, made
from it, at the back. The turn can be done in place by a loop that goes backwards over the
indices and carries what it has just overwritten. As many turns as there are elements bring
each element back to its place, changed by the turn that took it.
-/

namespace PoopWorms.Conveyor

variable {α : Type*}

/-- One turn: everything moves up by one place, and the front goes to the back through `f`. -/
def turn (f : α → α) : List α → List α
  | [] => []
  | x :: xs => xs ++ [f x]

/-- One turn for each function, first to last. -/
def turns (fs : List (α → α)) (xs : List α) : List α := fs.foldl (fun xs f => turn f xs) xs

/-- The loop over the indices below the given one, downwards: each element is replaced by what
is carried, and is carried on. Fails at an index outside the list. -/
def shiftDown : ℕ → List α → α → Option (List α)
  | 0, xs, _ => some xs
  | i + 1, xs, carried => do
    let old ← xs[i]?
    shiftDown i (xs.set i carried) old

variable {f : α → α} {fs : List (α → α)} {x y : α} {xs : List α} {i : ℕ}

@[simp] theorem turn_cons : turn f (x :: xs) = xs ++ [f x] := rfl

@[simp] theorem turns_nil : turns [] xs = xs := rfl

@[simp] theorem turns_cons : turns (f :: fs) xs = turns fs (turn f xs) := rfl

theorem length_turn (f : α → α) (xs : List α) : (turn f xs).length = xs.length := by
  cases xs <;> simp [turn]

/-- What the loop leaves above its index is not touched, what it goes over moves up by one
place, and the first element it meets is overwritten by what it starts with. -/
theorem shiftDown_succ (hi : i < xs.length) (y : α) :
    shiftDown (i + 1) xs y = some ((xs.take (i + 1)).tail ++ y :: xs.drop (i + 1)) := by
  induction i generalizing xs y with
  | zero =>
    cases xs with
    | nil => simp at hi
    | cons x xs => simp [shiftDown]
  | succ i ih =>
    have hset : i < (xs.set (i + 1) y).length := by
      rw [List.length_set]
      omega
    have htake : (xs.take (i + 1 + 1)).tail = (xs.take (i + 1)).tail ++ [xs[i + 1]] := by
      rw [List.take_succ_eq_append_getElem hi]
      exact List.tail_append_of_ne_nil (List.ne_nil_of_length_pos (by simp; omega))
    have hdrop : (xs.set (i + 1) y).drop (i + 1) = y :: xs.drop (i + 1 + 1) := by
      rw [List.drop_eq_getElem_cons (by rw [List.length_set]; exact hi), List.getElem_set_self,
        List.drop_set_of_lt (Nat.lt_succ_self _)]
    have hcarry : shiftDown (i + 1 + 1) xs y = shiftDown (i + 1) (xs.set (i + 1) y) xs[i + 1] := by
      rw [shiftDown, List.getElem?_eq_getElem hi]
      rfl
    rw [hcarry, ih hset, hdrop, List.take_set_of_le (le_refl _), htake, List.append_assoc]
    rfl

/-- The loop over all indices is a turn. -/
theorem shiftDown_length (f : α → α) (x : α) (xs : List α) :
    shiftDown (x :: xs).length (x :: xs) (f x) = some (turn f (x :: xs)) := by
  rw [List.length_cons, shiftDown_succ (Nat.lt_succ_self _)]
  simp

theorem zipWith_append_right (ys : List α) (h : fs.length ≤ xs.length) :
    List.zipWith (fun f x => f x) fs (xs ++ ys) = List.zipWith (fun f x => f x) fs xs := by
  induction fs generalizing xs with
  | nil => simp
  | cons f fs ih =>
    cases xs with
    | nil => simp at h
    | cons x xs => simp [ih (Nat.le_of_succ_le_succ h)]

/-- After fewer turns than there are elements, or as many, the list begins with those that no
turn has taken, and those that were taken follow in their order. -/
theorem turns_eq (h : fs.length ≤ xs.length) :
    turns fs xs = xs.drop fs.length ++ List.zipWith (fun f x => f x) fs xs := by
  induction fs generalizing xs with
  | nil => simp
  | cons f fs ih =>
    cases xs with
    | nil => simp at h
    | cons x xs =>
      have hlen : fs.length ≤ xs.length := by simpa using h
      have hzip : List.zipWith (fun f x => f x) fs (xs ++ [f x])
          = List.zipWith (fun f x => f x) fs xs := zipWith_append_right [f x] hlen
      rw [turns_cons, turn_cons, ih (by simp; omega), hzip, List.drop_append_of_le_length hlen]
      simp

/-- As many turns as there are elements change each element in its place. -/
theorem turns_length (h : fs.length = xs.length) :
    turns fs xs = List.zipWith (fun f x => f x) fs xs := by
  rw [turns_eq (le_of_eq h), h, List.drop_length, List.nil_append]

end PoopWorms.Conveyor
