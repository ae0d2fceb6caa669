import Mathlib.Data.Set.Function

/-!
# Dense tables

A table whose first `n` slots hold its entries, with no order among them. `keysBelow` is the set
of their keys, and `Distinct` says that no two entries have the same one. An entry is added
behind the others, and the last entry is moved to the place of one that is removed.
-/

namespace PoopWorms.DenseTable

variable {α κ : Type*} (key : α → κ) (table : ℕ → α) (n : ℕ)

/-- The keys of the first `n` entries. -/
def keysBelow : Set κ := {k | ∃ i < n, key (table i) = k}

/-- No two of the first `n` entries have the same key. -/
def Distinct : Prop := ∀ i < n, ∀ j < n, key (table i) = key (table j) → i = j

/-- The table with an entry behind the others. -/
def push (x : α) : ℕ → α := Function.update table n x

/-- The table with the last of its entries in the place of the `i`-th. -/
def swapRemove (i : ℕ) : ℕ → α := Function.update table i (table (n - 1))

variable {key table n} {i j : ℕ} {k : κ} {x : α}

theorem mem_keysBelow : k ∈ keysBelow key table n ↔ ∃ i < n, key (table i) = k := Iff.rfl

@[simp] theorem keysBelow_zero : keysBelow key table 0 = ∅ := by
  ext k
  simp [mem_keysBelow]

theorem distinct_zero : Distinct key table 0 := by
  intro i hi
  omega

theorem push_of_lt (hi : i < n) : push table n x i = table i := by
  apply Function.update_of_ne
  omega

@[simp] theorem push_self : push table n x n = x := Function.update_self ..

theorem swapRemove_of_ne (h : j ≠ i) : swapRemove table n i j = table j :=
  Function.update_of_ne h ..

@[simp] theorem swapRemove_self : swapRemove table n i i = table (n - 1) :=
  Function.update_self ..

/-- Behind the others, an entry adds its key. -/
theorem keysBelow_push :
    keysBelow key (push table n x) (n + 1) = insert (key x) (keysBelow key table n) := by
  ext k
  rw [Set.mem_insert_iff, mem_keysBelow, mem_keysBelow]
  constructor
  · rintro ⟨i, hi, rfl⟩
    by_cases hin : i < n
    · right
      exact ⟨i, hin, by rw [push_of_lt hin]⟩
    · left
      have hi : i = n := by omega
      rw [hi, push_self]
  · rintro (rfl | ⟨i, hi, rfl⟩)
    · exact ⟨n, by omega, by rw [push_self]⟩
    · exact ⟨i, by omega, by rw [push_of_lt hi]⟩

/-- An entry with a new key may be added. -/
theorem Distinct.push (h : Distinct key table n) (hx : key x ∉ keysBelow key table n) :
    Distinct key (push table n x) (n + 1) := by
  -- The new entry is the last one, and none in front of it has its key.
  have hnew : ∀ i < n, key (table i) ≠ key x := fun i hi he => hx ⟨i, hi, he⟩
  intro i hi j hj he
  by_cases hin : i < n
  · rw [push_of_lt hin] at he
    by_cases hjn : j < n
    · rw [push_of_lt hjn] at he
      exact h i hin j hjn he
    · have hj : j = n := by omega
      rw [hj, push_self] at he
      exact absurd he (hnew i hin)
  · have hi : i = n := by omega
    rw [hi, push_self] at he
    by_cases hjn : j < n
    · rw [push_of_lt hjn] at he
      exact absurd he.symm (hnew j hjn)
    · omega

/-- A removed entry takes its key along, and only this. -/
theorem Distinct.keysBelow_swapRemove (h : Distinct key table n) (hi : i < n) :
    keysBelow key (swapRemove table n i) (n - 1) = keysBelow key table n \ {key (table i)} := by
  ext k
  rw [Set.mem_sdiff, Set.mem_singleton_iff, mem_keysBelow, mem_keysBelow]
  constructor
  · rintro ⟨j, hj, rfl⟩
    by_cases hji : j = i
    · -- The slot holds the last entry, which is another one than the `i`-th.
      rw [hji, swapRemove_self]
      refine ⟨⟨n - 1, by omega, rfl⟩, fun he => ?_⟩
      have : n - 1 = i := h _ (by omega) i hi he
      omega
    · rw [swapRemove_of_ne hji]
      exact ⟨⟨j, by omega, rfl⟩, fun he => hji (h j (by omega) i hi he)⟩
  · rintro ⟨⟨j, hj, rfl⟩, hne⟩
    have hji : j ≠ i := by
      rintro rfl
      exact hne rfl
    by_cases hlast : j = n - 1
    · exact ⟨i, by omega, by rw [swapRemove_self, hlast]⟩
    · exact ⟨j, by omega, by rw [swapRemove_of_ne hji]⟩

/-- Where an entry of the smaller table comes from. -/
theorem exists_swapRemove_eq (table : ℕ → α) (i : ℕ) (hj : j < n - 1) :
    ∃ m < n, swapRemove table n i j = table m ∧ (m = n - 1 ∧ j = i ∨ m = j ∧ j ≠ i) := by
  by_cases hji : j = i
  · exact ⟨n - 1, by omega, by rw [hji, swapRemove_self], .inl ⟨rfl, hji⟩⟩
  · exact ⟨j, by omega, swapRemove_of_ne hji, .inr ⟨rfl, hji⟩⟩

theorem Distinct.swapRemove (h : Distinct key table n) :
    Distinct key (swapRemove table n i) (n - 1) := by
  intro a ha b hb he
  obtain ⟨m, hm, hma, hmi⟩ := exists_swapRemove_eq table i ha
  obtain ⟨m', hm', hmb, hmi'⟩ := exists_swapRemove_eq table i hb
  rw [hma, hmb] at he
  have : m = m' := h m hm m' hm' he
  omega

end PoopWorms.DenseTable
