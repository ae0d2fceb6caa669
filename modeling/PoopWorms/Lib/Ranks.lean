import PoopWorms.Lib.Forest

/-!
# Forests in which no node is below itself

`Ranked` says this of the lists of children by ranks that fall from each node to its children.
Below every node of such lists there is a finite tree, and they stay such when nodes leave, or
when a node joins another one that is not below it.
-/

namespace PoopWorms.Forest

variable {ι : Type*} {kids kids' : ι → List ι} {g s x : ι} {l : List ι}

/-- Every node has a lower rank than its parent. -/
def Ranked (kids : ι → List ι) : Prop := ∃ rank : ι → ℕ, ∀ p, ∀ x ∈ kids p, rank x < rank p

namespace Ranked

theorem exists_below (h : Ranked kids) (x : ι) : ∃ b, Spans kids (kids x) b := by
  obtain ⟨rank, hrank⟩ := h
  induction hx : rank x using Nat.strong_induction_on generalizing x with
  | _ m ih =>
    apply Spans.exists_of_roots
    intro y hy
    exact ih (rank y) (hx ▸ hrank x y hy) y rfl

theorem mono (h : Ranked kids) (hkids : ∀ p, ∀ x ∈ kids' p, x ∈ kids p) : Ranked kids' := by
  obtain ⟨rank, hrank⟩ := h
  exact ⟨rank, fun p x hx => hrank p x (hkids p x hx)⟩

theorem without [DecidableEq ι] (h : Ranked kids) (F : List ι) :
    Ranked (Forest.without kids F) := by
  apply h.mono
  intro p x hx
  exact (mem_without.mp hx).2.1

open Classical in
/-- A node joins another one, which is not below it. All that is above that one gets a higher
rank. -/
theorem insert (h : Ranked kids) (hkids : ∀ p, ∀ x ∈ kids' p, x ∈ kids p ∨ p = g ∧ x = s)
    (hup : ¬ Relation.ReflTransGen (fun x y => x ∈ kids y) g s) : Ranked kids' := by
  obtain ⟨rank, hrank⟩ := h
  refine ⟨fun n => if Relation.ReflTransGen (fun x y => x ∈ kids y) g n then rank n + rank s + 1
    else rank n, ?_⟩
  intro p x hx
  dsimp only
  rcases hkids p x hx with hx | ⟨rfl, rfl⟩
  · have hless := hrank p x hx
    by_cases hgx : Relation.ReflTransGen (fun x y => x ∈ kids y) g x
    · rw [if_pos hgx, if_pos (hgx.tail hx)]
      omega
    · rw [if_neg hgx]
      split_ifs <;> omega
  · rw [if_neg hup, if_pos .refl]
    omega

end Ranked

end PoopWorms.Forest
