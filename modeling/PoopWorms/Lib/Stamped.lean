import Mathlib.Logic.Function.Basic
import Mathlib.Tactic.SplitIfs

/-!
# Stamped cells

An array that is cleared by moving a clock. Every cell has the stamp of the time at which it
was last written, and counts as empty unless that is the present time.
-/

namespace PoopWorms

structure Stamped (κ σ α : Type*) where
  cell : κ → α
  stamp : κ → σ
  now : σ

namespace Stamped

variable {κ σ α : Type*} [DecidableEq κ] [DecidableEq σ]

/-- The content of a cell that was written at the present time. -/
def look (s : Stamped κ σ α) (k : κ) : Option α :=
  if s.stamp k = s.now then some (s.cell k) else none

/-- Write a cell, with what is made of its present content. -/
def alter (s : Stamped κ σ α) (k : κ) (f : Option α → α) : Stamped κ σ α where
  cell := Function.update s.cell k (f (s.look k))
  stamp := Function.update s.stamp k s.now
  now := s.now

def alterAll (s : Stamped κ σ α) (changes : List (κ × (Option α → α))) : Stamped κ σ α :=
  changes.foldl (fun s change => s.alter change.1 change.2) s

/-- What the changes of the cell `k` make of the content `content`, first to last. -/
def folded (changes : List (κ × (Option α → α))) (k : κ) (content : Option α) : Option α :=
  changes.foldl (fun content change =>
    if change.1 = k then some (change.2 content) else content) content

variable (s : Stamped κ σ α) (k k' : κ) (f : Option α → α)
  (changes changes' : List (κ × (Option α → α))) (content : Option α)

omit [DecidableEq κ] in
theorem look_of_stale {k : κ} (h : s.stamp k ≠ s.now) : s.look k = none := if_neg h

omit [DecidableEq κ] in
theorem getD_look : (s.look k).getD (s.cell k) = s.cell k := by
  unfold look
  split_ifs <;> rfl

@[simp] theorem now_alter : (s.alter k f).now = s.now := rfl

@[simp] theorem cell_alter_self : (s.alter k f).cell k = f (s.look k) := Function.update_self ..

@[simp] theorem look_alter_self : (s.alter k f).look k = some (f (s.look k)) := by
  simp [look, alter]

theorem cell_alter_of_ne {k k' : κ} (h : k ≠ k') : (s.alter k f).cell k' = s.cell k' :=
  Function.update_of_ne h.symm ..

theorem look_alter_of_ne {k k' : κ} (h : k ≠ k') : (s.alter k f).look k' = s.look k' := by
  simp [look, alter, Function.update_of_ne h.symm]

@[simp] theorem folded_nil : folded [] k content = content := rfl

@[simp] theorem folded_cons (change : κ × (Option α → α)) :
    folded (change :: changes) k content =
      folded changes k (if change.1 = k then some (change.2 content) else content) := rfl

theorem folded_append : folded (changes ++ changes') k content =
    folded changes' k (folded changes k content) := List.foldl_append

theorem folded_some (a : α) : ∃ b, folded changes k (some a) = some b := by
  induction changes generalizing a with
  | nil => exact ⟨a, rfl⟩
  | cons change changes ih =>
    rw [folded_cons]
    split_ifs
    · exact ih _
    · exact ih a

/-- What a cell holds after the changes, when only what is written now counts. -/
theorem look_alterAll : (s.alterAll changes).look k = folded changes k (s.look k) := by
  induction changes generalizing s with
  | nil => rfl
  | cons change changes ih =>
    show ((s.alter change.1 change.2).alterAll changes).look k = _
    rw [ih, folded_cons]
    split_ifs with h
    · rw [h, look_alter_self]
    · rw [look_alter_of_ne s change.2 h]

/-- A cell that is not changed keeps its content, stale or not. -/
theorem cell_alterAll :
    (s.alterAll changes).cell k = (folded changes k (s.look k)).getD (s.cell k) := by
  induction changes generalizing s with
  | nil => exact (s.getD_look k).symm
  | cons change changes ih =>
    show ((s.alter change.1 change.2).alterAll changes).cell k = _
    rw [ih, folded_cons]
    split_ifs with h
    · subst h
      obtain ⟨b, hb⟩ := folded_some change.1 changes (change.2 (s.look change.1))
      rw [look_alter_self, hb]
      rfl
    · rw [look_alter_of_ne s change.2 h, cell_alter_of_ne s change.2 h]

/-- A cell that is not among the changes is left alone, with its stamp. -/
theorem alterAll_of_forall_ne (h : ∀ change ∈ changes, change.1 ≠ k) :
    (s.alterAll changes).cell k = s.cell k ∧ (s.alterAll changes).stamp k = s.stamp k := by
  induction changes generalizing s with
  | nil => exact ⟨rfl, rfl⟩
  | cons change changes ih =>
    have hne : k ≠ change.1 := (h change List.mem_cons_self).symm
    obtain ⟨hcell, hstamp⟩ := ih (s.alter change.1 change.2)
      fun c hc => h c (List.mem_cons_of_mem _ hc)
    exact ⟨hcell.trans (Function.update_of_ne hne _ _),
      hstamp.trans (Function.update_of_ne hne _ _)⟩

theorem alterAll_append :
    s.alterAll (changes ++ changes') = (s.alterAll changes).alterAll changes' := List.foldl_append

end Stamped

end PoopWorms
