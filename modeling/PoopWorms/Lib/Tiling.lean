import Mathlib.Algebra.BigOperators.Group.List.Basic
import Mathlib.Algebra.GroupWithZero.Nat
import Mathlib.Tactic.Common

/-!
# Tiles that lie one behind the other

A list of tiles fills a range of addresses from some address on, each tile with as many
addresses as its size. `starts` gives the tiles with their addresses.
-/

namespace PoopWorms.Tiling

variable {β : Type*} (size : β → ℕ)

/-- How many addresses the tiles fill. -/
def total (bs : List β) : ℕ := (bs.map size).sum

@[simp] theorem total_nil : total size [] = 0 := rfl

@[simp] theorem total_cons (b : β) (bs : List β) :
    total size (b :: bs) = size b + total size bs := by
  simp [total]

@[simp] theorem total_append (bs cs : List β) :
    total size (bs ++ cs) = total size bs + total size cs := by
  simp [total]

/-- The tiles with their addresses, from `c` on. -/
def starts (c : ℕ) : List β → List (ℕ × β)
  | [] => []
  | b :: bs => (c, b) :: starts (c + size b) bs

@[simp] theorem starts_nil (c : ℕ) : starts size c [] = [] := rfl

@[simp] theorem starts_cons (c : ℕ) (b : β) (bs : List β) :
    starts size c (b :: bs) = (c, b) :: starts size (c + size b) bs := rfl

@[simp] theorem starts_append (c : ℕ) (bs cs : List β) :
    starts size c (bs ++ cs) = starts size c bs ++ starts size (c + total size bs) cs := by
  induction bs generalizing c with
  | nil => simp
  | cons b bs ih => simp [ih, Nat.add_assoc]

variable {size} {c y : ℕ} {b : β} {bs : List β}

theorem mem_of_mem_starts (h : (y, b) ∈ starts size c bs) : b ∈ bs := by
  induction bs generalizing c with
  | nil => exact absurd h List.not_mem_nil
  | cons b' bs ih =>
    rcases List.mem_cons.mp h with heq | htail
    · rw [(Prod.mk.inj heq).2]
      exact List.mem_cons_self
    · exact List.mem_cons_of_mem _ (ih htail)

/-- A tile lies in the range that all tiles fill. -/
theorem range_of_mem_starts (h : (y, b) ∈ starts size c bs) :
    c ≤ y ∧ y + size b ≤ c + total size bs := by
  induction bs generalizing c with
  | nil => exact absurd h List.not_mem_nil
  | cons b' bs ih =>
    rw [total_cons]
    rcases List.mem_cons.mp h with heq | htail
    · obtain ⟨rfl, rfl⟩ := Prod.mk.inj heq
      omega
    · have := ih htail
      omega

/-- A tile splits the list into the tiles in front of it and those behind it. -/
theorem exists_split (h : (y, b) ∈ starts size c bs) :
    ∃ pre post, bs = pre ++ b :: post ∧ y = c + total size pre := by
  induction bs generalizing c with
  | nil => exact absurd h List.not_mem_nil
  | cons b' bs ih =>
    rcases List.mem_cons.mp h with heq | htail
    · obtain ⟨rfl, rfl⟩ := Prod.mk.inj heq
      exact ⟨[], bs, rfl, rfl⟩
    · obtain ⟨pre, post, rfl, rfl⟩ := ih htail
      refine ⟨b' :: pre, post, rfl, ?_⟩
      rw [total_cons]
      omega

/-- Two tiles are one, or one of them lies in front of the other. -/
theorem apart_of_mem_starts {y' : ℕ} {b' : β} (h : (y, b) ∈ starts size c bs)
    (h' : (y', b') ∈ starts size c bs) :
    (y, b) = (y', b') ∨ y + size b ≤ y' ∨ y' + size b' ≤ y := by
  obtain ⟨pre, post, rfl, rfl⟩ := exists_split h
  rw [starts_append, starts_cons, List.mem_append, List.mem_cons] at h'
  rcases h' with hpre | heq | hpost
  · have := range_of_mem_starts hpre
    omega
  · exact .inl heq.symm
  · have := range_of_mem_starts hpost
    omega

/-- The last of some tiles ends where all of them do. -/
theorem exists_last (size : β → ℕ) (c : ℕ) (h : bs ≠ []) :
    ∃ y b, (y, b) ∈ starts size c bs ∧ y + size b = c + total size bs := by
  induction bs generalizing c with
  | nil => exact absurd rfl h
  | cons b bs ih =>
    cases bs with
    | nil => exact ⟨c, b, by simp, by simp⟩
    | cons b' bs =>
      obtain ⟨y, b'', hmem, hend⟩ := ih (c + size b) (by simp)
      refine ⟨y, b'', List.mem_cons_of_mem _ hmem, ?_⟩
      rw [hend, total_cons size b]
      omega

end PoopWorms.Tiling
