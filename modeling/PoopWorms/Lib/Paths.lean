import Mathlib.Data.List.Basic
import Mathlib.Tactic.Common

/-!
# Paths

A path is a string that a separator divides into components. The empty ones between two
separators do not count, and a path that begins with a separator is rooted.
-/

namespace PoopWorms.Paths

variable {α : Type*} [DecidableEq α] {sep : α} {s t u : List α}

/-! ## Splitting -/

theorem notMem_of_mem_splitOn (h : t ∈ s.splitOn sep) : sep ∉ t := by
  induction s generalizing t with
  | nil =>
    rw [List.splitOn_nil, List.mem_singleton] at h
    rw [h]
    exact List.not_mem_nil
  | cons a s ih =>
    rw [List.splitOn_cons_eq_if_modifyHead] at h
    obtain ⟨u, us, hsplit⟩ := List.exists_cons_of_ne_nil (List.splitOn_ne_nil sep s)
    rw [hsplit] at h ih
    split_ifs at h with ha
    · rcases List.mem_cons.mp h with rfl | hmem
      · exact List.not_mem_nil
      · exact ih hmem
    · rcases List.mem_cons.mp h with rfl | hmem
      · rw [beq_iff_eq] at ha
        exact List.not_mem_cons_of_ne_of_not_mem (Ne.symm ha) (ih List.mem_cons_self)
      · exact ih (List.mem_cons_of_mem _ hmem)

theorem subset_of_mem_splitOn (h : t ∈ s.splitOn sep) : t ⊆ s := by
  induction s generalizing t with
  | nil =>
    rw [List.splitOn_nil, List.mem_singleton] at h
    rw [h]
    exact List.Subset.refl _
  | cons a s ih =>
    rw [List.splitOn_cons_eq_if_modifyHead] at h
    obtain ⟨u, us, hsplit⟩ := List.exists_cons_of_ne_nil (List.splitOn_ne_nil sep s)
    rw [hsplit] at h ih
    split_ifs at h with ha
    · rcases List.mem_cons.mp h with rfl | hmem
      · exact List.nil_subset _
      · exact List.subset_cons_of_subset a (ih hmem)
    · rcases List.mem_cons.mp h with rfl | hmem
      · exact List.cons_subset_cons a (ih List.mem_cons_self)
      · exact List.subset_cons_of_subset a (ih (List.mem_cons_of_mem _ hmem))

theorem length_splitOn_le (sep : α) (s : List α) : (s.splitOn sep).length ≤ s.length + 1 := by
  induction s with
  | nil => exact Nat.le_refl _
  | cons a s ih =>
    rw [List.splitOn_cons_eq_if_modifyHead]
    split_ifs
    · rw [List.length_cons, List.length_cons]
      omega
    · rw [List.length_modifyHead, List.length_cons]
      omega

/-- A path is what lies in front of its last part, with all separators, and that part. -/
theorem exists_last (sep : α) (s : List α) : ∃ init last, s.splitOn sep = init ++ [last] ∧
    s = init.flatMap (fun t => t ++ [sep]) ++ last := by
  induction s with
  | nil => exact ⟨[], [], rfl, rfl⟩
  | cons a s ih =>
    obtain ⟨init, last, hsplit, hs⟩ := ih
    rw [List.splitOn_cons_eq_if_modifyHead, hsplit]
    split_ifs with ha
    · rw [beq_iff_eq] at ha
      refine ⟨[] :: init, last, rfl, ?_⟩
      rw [ha, List.flatMap_cons, List.nil_append, List.append_assoc, ← hs]
      rfl
    · cases init with
      | nil => exact ⟨[], a :: last, rfl, by rw [hs]; rfl⟩
      | cons t init => exact ⟨(a :: t) :: init, last, rfl, by rw [hs]; rfl⟩

theorem splitOn_flatMap (ts : List (List α)) (hts : ∀ t ∈ ts, sep ∉ t) (s : List α) :
    (ts.flatMap (fun t => t ++ [sep]) ++ s).splitOn sep = ts ++ s.splitOn sep := by
  induction ts with
  | nil => rfl
  | cons t ts ih =>
    have hrest := ih fun u hu => hts u (List.mem_cons_of_mem _ hu)
    rw [List.flatMap_cons, List.append_assoc, List.append_assoc, List.singleton_append,
      List.splitOn_append_cons_self_of_not_mem (hts t List.mem_cons_self), hrest]
    rfl

/-- What runs on from a part without separators joins the first part behind it. -/
theorem splitOn_append_of_notMem (h : sep ∉ t) (s : List α) :
    ∃ u us, s.splitOn sep = u :: us ∧ (t ++ s).splitOn sep = (t ++ u) :: us := by
  obtain ⟨u, us, hsplit⟩ := List.exists_cons_of_ne_nil (List.splitOn_ne_nil sep s)
  refine ⟨u, us, hsplit, ?_⟩
  induction t with
  | nil => exact hsplit
  | cons a t ih =>
    rw [List.mem_cons, not_or] at h
    have hne : (a == sep) = false := beq_eq_false_iff_ne.mpr (Ne.symm h.1)
    rw [List.cons_append, List.splitOn_cons_eq_if_modifyHead, ih h.2, hne]
    rfl

/-! ## Components -/

def components (sep : α) (path : List α) : List (List α) :=
  (path.splitOn sep).filter fun t => t ≠ []

theorem components_append_sep (s t : List α) :
    components sep (s ++ sep :: t) = components sep s ++ components sep t := by
  unfold components
  rw [List.splitOn_append_cons_self, List.filter_append]

theorem components_of_notMem (h : sep ∉ t) : components sep t = [t].filter fun t => t ≠ [] := by
  unfold components
  rw [List.splitOn_eq_singleton h]

@[simp] theorem components_nil : components sep [] = [] := components_of_notMem List.not_mem_nil

theorem components_concat (s : List α) : components sep (s ++ [sep]) = components sep s := by
  rw [components_append_sep, components_nil, List.append_nil]

theorem components_cons_sep (s : List α) : components sep (sep :: s) = components sep s :=
  components_append_sep [] s

/-- The path is rooted just as the base is, and its components are those of the base followed by
components none of which is `up`. -/
def Below (sep : α) (up base path : List α) : Prop :=
  (path.head? = some sep ↔ base.head? = some sep) ∧
    ∃ below, components sep path = components sep base ++ below ∧ up ∉ below

end PoopWorms.Paths
