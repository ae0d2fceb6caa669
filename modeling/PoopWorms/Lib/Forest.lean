import Mathlib.Data.Finset.Card
import Mathlib.Data.List.Nodup
import Mathlib.Logic.Function.Basic
import Mathlib.Logic.Relation
import Mathlib.Tactic.Common

/-!
# Forests

`kids` gives the list of children of every node. `Spans kids l a` says that what hangs below
the roots `l` is a finite forest, and that `a` lists it in preorder. A forest stays one when
the children of one of its nodes are replaced.
-/

namespace PoopWorms.Forest

variable {ι : Type*}

/-- The nodes below the roots `l`, in preorder. -/
inductive Spans (kids : ι → List ι) : List ι → List ι → Prop
  | nil : Spans kids [] []
  | cons {x : ι} {xs below rest : List ι} (hbelow : Spans kids (kids x) below)
      (hrest : Spans kids xs rest) : Spans kids (x :: xs) (x :: (below ++ rest))

variable {kids kids' : ι → List ι} {l l₁ l₂ a a' b : List ι} {g x y s : ι}

namespace Spans

theorem append (h : Spans kids l₁ a) (h' : Spans kids l₂ b) :
    Spans kids (l₁ ++ l₂) (a ++ b) := by
  induction h with
  | nil => exact h'
  | @cons x xs below rest hbelow hrest _ ih =>
    rw [List.cons_append, List.cons_append, List.append_assoc]
    exact .cons hbelow ih

theorem of_append (h : Spans kids (l₁ ++ l₂) a) :
    ∃ a₁ a₂, a = a₁ ++ a₂ ∧ Spans kids l₁ a₁ ∧ Spans kids l₂ a₂ := by
  induction l₁ generalizing a with
  | nil => exact ⟨[], a, rfl, .nil, h⟩
  | cons x xs ih =>
    cases h with
    | @cons _ _ below rest hbelow hrest =>
      obtain ⟨a₁, a₂, rfl, h₁, h₂⟩ := ih hrest
      refine ⟨x :: (below ++ a₁), a₂, ?_, .cons hbelow h₁, h₂⟩
      rw [List.cons_append, List.append_assoc]

theorem eq_of_singleton (h : Spans kids [x] a) : ∃ b, a = x :: b ∧ Spans kids (kids x) b := by
  cases h with
  | cons hbelow hrest =>
    cases hrest
    rw [List.append_nil]
    exact ⟨_, rfl, hbelow⟩

theorem singleton (h : Spans kids (kids x) b) : Spans kids [x] (x :: b) := by
  have hspans := Spans.cons h (show Spans kids [] [] from .nil)
  rwa [List.append_nil] at hspans

/-- The preorder is determined by the roots. -/
theorem unique (h : Spans kids l a) (h' : Spans kids l a') : a = a' := by
  induction h generalizing a' with
  | nil =>
    cases h'
    rfl
  | cons _ _ ihbelow ihrest =>
    cases h' with
    | cons hbelow hrest => rw [ihbelow hbelow, ihrest hrest]

theorem mem_of_root (h : Spans kids l a) (hx : x ∈ l) : x ∈ a := by
  induction h with
  | nil => exact hx
  | cons _ _ _ ih =>
    rw [List.mem_cons] at hx ⊢
    rcases hx with rfl | hx
    · exact .inl rfl
    · exact .inr (List.mem_append_right _ (ih hx))

/-- With a node the forest holds everything below it, as a part of the preorder. -/
theorem exists_below (h : Spans kids l a) (hx : x ∈ a) :
    ∃ A b B, a = A ++ x :: b ++ B ∧ Spans kids (kids x) b := by
  induction h with
  | nil => cases hx
  | @cons y ys below rest hbelow _ ihbelow ihrest =>
    rw [List.mem_cons, List.mem_append] at hx
    rcases hx with rfl | hx | hx
    · exact ⟨[], below, rest, rfl, hbelow⟩
    · obtain ⟨A, b, B, rfl, hb⟩ := ihbelow hx
      exact ⟨y :: A, b, B ++ rest, by simp, hb⟩
    · obtain ⟨A, b, B, rfl, hb⟩ := ihrest hx
      exact ⟨y :: (below ++ A), b, B, by simp, hb⟩

theorem mem_of_kid (h : Spans kids l a) (hx : x ∈ a) (hy : y ∈ kids x) : y ∈ a := by
  obtain ⟨A, b, B, rfl, hb⟩ := h.exists_below hx
  have hmem := hb.mem_of_root hy
  simp [hmem]

/-- Every node of the forest is a root or the child of a node of the forest. -/
theorem root_or_kid (h : Spans kids l a) (hx : x ∈ a) : x ∈ l ∨ ∃ y ∈ a, x ∈ kids y := by
  induction h with
  | nil => cases hx
  | @cons y ys below rest _ _ ihbelow ihrest =>
    rw [List.mem_cons, List.mem_append] at hx
    rcases hx with rfl | hx | hx
    · exact .inl List.mem_cons_self
    · rcases ihbelow hx with hroot | ⟨z, hz, hkid⟩
      · exact .inr ⟨y, List.mem_cons_self, hroot⟩
      · exact .inr ⟨z, by simp [hz], hkid⟩
    · rcases ihrest hx with hroot | ⟨z, hz, hkid⟩
      · exact .inl (List.mem_cons_of_mem _ hroot)
      · exact .inr ⟨z, by simp [hz], hkid⟩

/-- Everything below a node is a child of it or of something below it. -/
theorem exists_parent (h : Spans kids (kids g) b) (hx : x ∈ b) :
    ∃ y, (y = g ∨ y ∈ b) ∧ x ∈ kids y := by
  rcases h.root_or_kid hx with hroot | ⟨y, hy, hkid⟩
  · exact ⟨g, .inl rfl, hroot⟩
  · exact ⟨y, .inr hy, hkid⟩

/-- From every node of the forest a path of parents leads to a root. -/
theorem exists_path {r : ι → ι → Prop} (hr : ∀ x y, y ∈ kids x → r y x) (h : Spans kids l a)
    (hx : x ∈ a) : ∃ root ∈ l, Relation.ReflTransGen r x root := by
  induction h with
  | nil => cases hx
  | @cons y ys below rest _ _ ihbelow ihrest =>
    rw [List.mem_cons, List.mem_append] at hx
    rcases hx with rfl | hx | hx
    · exact ⟨x, List.mem_cons_self, .refl⟩
    · obtain ⟨z, hz, hpath⟩ := ihbelow hx
      exact ⟨y, List.mem_cons_self, hpath.tail (hr y z hz)⟩
    · obtain ⟨z, hz, hpath⟩ := ihrest hx
      exact ⟨z, List.mem_cons_of_mem _ hz, hpath⟩

/-- Children outside of the forest do not matter. -/
theorem congr (h : Spans kids l a) (hkids : ∀ x ∈ a, kids' x = kids x) : Spans kids' l a := by
  induction h with
  | nil => exact .nil
  | @cons x xs below rest _ _ ihbelow ihrest =>
    refine .cons ?_ (ihrest fun y hy => hkids y (by simp [hy]))
    rw [hkids x List.mem_cons_self]
    exact ihbelow fun y hy => hkids y (by simp [hy])

/-- Only nodes that are kept stay in a forest where the others have no children. -/
theorem filter {p : ι → Bool} (h : Spans kids l a) (hleaf : ∀ x ∈ a, p x = false → kids x = [])
    (hkids : ∀ x ∈ a, kids' x = (kids x).filter p) :
    Spans kids' (l.filter p) (a.filter p) := by
  induction h with
  | nil => exact .nil
  | @cons x xs below rest hbelow _ ihbelow ihrest =>
    have hx := hkids x List.mem_cons_self
    have hbelow' := ihbelow (fun y hy => hleaf y (by simp [hy])) (fun y hy => hkids y (by simp [hy]))
    have hrest' := ihrest (fun y hy => hleaf y (by simp [hy])) (fun y hy => hkids y (by simp [hy]))
    cases hp : p x with
    | true =>
      rw [List.filter_cons_of_pos hp, List.filter_cons_of_pos hp, List.filter_append]
      exact .cons (hx ▸ hbelow') hrest'
    | false =>
      rw [List.filter_cons_of_neg (by simp [hp]), List.filter_cons_of_neg (by simp [hp])]
      -- a node that goes is a leaf
      have hnil := hleaf x List.mem_cons_self hp
      rw [hnil] at hbelow
      cases hbelow
      exact hrest'

variable [DecidableEq ι]

theorem congr_update (h : Spans kids l a) (hg : g ∉ a) (m : List ι) :
    Spans (Function.update kids g m) l a := by
  apply h.congr
  intro x hx
  apply Function.update_of_ne
  rintro rfl
  exact hg hx

/-- The children of one node are replaced by other roots: what hung below the node gives its
place to what hangs below them. -/
theorem update {m c : List ι} (h : Spans kids l a) (hnd : a.Nodup) (hg : g ∈ a)
    (hb : Spans kids (kids g) b) (hc : Spans kids m c) (hgc : g ∉ c) :
    ∃ A B, a = A ++ b ++ B ∧ g ∈ A ∧ Spans (Function.update kids g m) l (A ++ c ++ B) := by
  induction h with
  | nil => cases hg
  | @cons x xs below rest hbelow hrest ihbelow ihrest =>
    rw [List.nodup_cons, List.nodup_append] at hnd
    obtain ⟨hx, hndBelow, hndRest, hdisjoint⟩ := hnd
    rw [List.mem_append, not_or] at hx
    rw [List.mem_cons, List.mem_append] at hg
    rcases hg with rfl | hg | hg
    · obtain rfl := hbelow.unique hb
      refine ⟨[g], rest, rfl, List.mem_cons_self, ?_⟩
      refine .cons ?_ (hrest.congr_update hx.2 m)
      rw [Function.update_self]
      exact hc.congr_update hgc m
    · obtain ⟨A, B, rfl, hA, hspans⟩ := ihbelow hndBelow hg
      have hxg : x ≠ g := by
        rintro rfl
        exact hx.1 hg
      have hrest' : g ∉ rest := fun hmem => hdisjoint g hg g hmem rfl
      refine ⟨x :: A, B ++ rest, by simp, List.mem_cons_of_mem _ hA, ?_⟩
      rw [← Function.update_of_ne hxg m kids] at hspans
      have hcons := Spans.cons hspans (hrest.congr_update hrest' m)
      simpa using hcons
    · obtain ⟨A, B, rfl, hA, hspans⟩ := ihrest hndRest hg
      have hxg : x ≠ g := by
        rintro rfl
        exact hx.2 hg
      have hbelow' : g ∉ below := fun hmem => hdisjoint g hmem g hg rfl
      refine ⟨x :: (below ++ A), B, by simp, by simp [hA], ?_⟩
      have hsame := hbelow.congr_update hbelow' m
      rw [← Function.update_of_ne hxg m kids] at hsame
      have hcons := Spans.cons hsame hspans
      simpa using hcons

/-- A child and all below it are taken out. -/
theorem erase (h : Spans kids l a) (hnd : a.Nodup) (hg : g ∈ a) (hkids : kids g = l₁ ++ s :: l₂) :
    ∃ A b B, a = A ++ s :: b ++ B ∧ g ∈ A ∧ Spans kids (kids s) b ∧
      Spans (Function.update kids g (l₁ ++ l₂)) l (A ++ B) := by
  obtain ⟨A₀, below, B₀, hcut, hbelow⟩ := h.exists_below hg
  have hparts := hbelow
  rw [hkids] at hparts
  obtain ⟨a₁, a₂, hbelowEq, h₁, h₂⟩ := hparts.of_append
  rw [← List.singleton_append] at h₂
  obtain ⟨as, a₃, rfl, hs, h₃⟩ := h₂.of_append
  obtain ⟨b, rfl, hb⟩ := hs.eq_of_singleton
  have hgbelow : g ∉ below := by
    rw [hcut, List.append_assoc, List.nodup_append, List.cons_append, List.nodup_cons] at hnd
    intro hmem
    exact hnd.2.1.1 (List.mem_append_left _ hmem)
  have hgrest : g ∉ a₁ ++ a₃ := by
    intro hmem
    apply hgbelow
    rw [hbelowEq]
    rcases List.mem_append.mp hmem with hmem | hmem <;> simp [hmem]
  obtain ⟨A, B, rfl, hA, hspans⟩ := h.update hnd hg hbelow (h₁.append h₃) hgrest
  refine ⟨A ++ a₁, b, a₃ ++ B, ?_, List.mem_append_left _ hA, hb, ?_⟩
  · rw [hbelowEq]
    simp
  · simpa using hspans

/-- A root with all below it becomes a child. -/
theorem insert (h : Spans kids l a) (hnd : a.Nodup) (hg : g ∈ a) (hkids : kids g = l₁ ++ l₂)
    (hs : Spans kids (kids s) b) (hgs : g ∉ s :: b) :
    ∃ A B, a = A ++ B ∧ Spans (Function.update kids g (l₁ ++ s :: l₂)) l (A ++ s :: b ++ B) := by
  obtain ⟨A₀, below, B₀, hcut, hbelow⟩ := h.exists_below hg
  have hparts := hbelow
  rw [hkids] at hparts
  obtain ⟨a₁, a₂, hbelowEq, h₁, h₂⟩ := hparts.of_append
  have hgbelow : g ∉ below := by
    rw [hcut, List.append_assoc, List.nodup_append, List.cons_append, List.nodup_cons] at hnd
    intro hmem
    exact hnd.2.1.1 (List.mem_append_left _ hmem)
  have hc : Spans kids (l₁ ++ s :: l₂) (a₁ ++ (s :: b ++ a₂)) := h₁.append (.cons hs h₂)
  have hgc : g ∉ a₁ ++ (s :: b ++ a₂) := by
    rw [hbelowEq, List.mem_append, not_or] at hgbelow
    rw [List.mem_append, List.mem_append]
    tauto
  obtain ⟨A, B, rfl, -, hspans⟩ := h.update hnd hg hbelow hc hgc
  refine ⟨A ++ a₁, a₂ ++ B, ?_, ?_⟩
  · rw [hbelowEq]
    simp
  · simpa using hspans

end Spans

/-! ## Taking nodes out -/

section Without

variable [DecidableEq ι] {F F' : List ι}

/-- The lists of children without the nodes of `F`. -/
def without (kids : ι → List ι) (F : List ι) (x : ι) : List ι :=
  if F.contains x then [] else (kids x).filter fun y => !F.contains y

/-- All below a node of `F` is in `F`. -/
def Closed (kids : ι → List ι) (F : List ι) : Prop := ∀ x ∈ F, ∀ y ∈ kids x, y ∈ F

theorem without_of_mem (hx : x ∈ F) : without kids F x = [] := by
  apply if_pos
  rwa [List.contains_iff_mem]

theorem without_of_notMem (hx : x ∉ F) :
    without kids F x = (kids x).filter fun y => !F.contains y := by
  apply if_neg
  rwa [List.contains_iff_mem]

@[simp] theorem mem_without : y ∈ without kids F x ↔ x ∉ F ∧ y ∈ kids x ∧ y ∉ F := by
  by_cases hx : x ∈ F
  · simp [without_of_mem hx, hx]
  · simp [without_of_notMem hx, hx]

theorem filter_eq_self_of_notMem (hl : ∀ y ∈ l, y ∉ F) : l.filter (fun y => !F.contains y) = l := by
  apply List.filter_eq_self.mpr
  intro y hy
  simpa using hl y hy

/-- A list of children without any node of `F` stays. -/
theorem without_eq_self (hx : x ∉ F) (hkids : ∀ y ∈ kids x, y ∉ F) :
    without kids F x = kids x := by
  rw [without_of_notMem hx, filter_eq_self_of_notMem hkids]

theorem without_nil (kids : ι → List ι) : without kids [] = kids :=
  funext fun _ => without_eq_self List.not_mem_nil fun _ _ => List.not_mem_nil

theorem without_congr (kids : ι → List ι) (hF : ∀ x, x ∈ F ↔ x ∈ F') :
    without kids F = without kids F' := by
  funext x
  have hcontains : ∀ y, F.contains y = F'.contains y := by
    intro y
    rw [Bool.eq_iff_iff, List.contains_iff_mem, List.contains_iff_mem]
    exact hF y
  simp only [without, hcontains]

theorem without_without (kids : ι → List ι) (F F' : List ι) :
    without (without kids F) F' = without kids (F ++ F') := by
  funext x
  by_cases hx' : x ∈ F'
  · rw [without_of_mem hx', without_of_mem (List.mem_append_right _ hx')]
  · rw [without_of_notMem hx']
    by_cases hx : x ∈ F
    · rw [without_of_mem hx, without_of_mem (List.mem_append_left _ hx), List.filter_nil]
    · rw [without_of_notMem hx, without_of_notMem (by simp [hx, hx']), List.filter_filter]
      congr 1
      funext y
      by_cases hy : y ∈ F <;> by_cases hy' : y ∈ F' <;> simp [hy, hy']

namespace Spans

omit [DecidableEq ι] in
/-- A set that contains the roots and all below its nodes contains the forest. -/
theorem mem_of_closed (h : Spans kids l a) (hF : Closed kids F) (hl : ∀ y ∈ l, y ∈ F)
    (hx : x ∈ a) : x ∈ F := by
  induction h with
  | nil => cases hx
  | @cons z zs below rest _ _ ihbelow ihrest =>
    have hz : z ∈ F := hl z List.mem_cons_self
    rw [List.mem_cons, List.mem_append] at hx
    rcases hx with rfl | hx | hx
    · exact hz
    · exact ihbelow (hF z hz) hx
    · exact ihrest (fun y hy => hl y (List.mem_cons_of_mem _ hy)) hx

/-- What is left of a forest when nodes are taken out with all that is below them. -/
theorem without (h : Spans kids l a) (hF : Closed kids F) :
    Spans (without kids F) (l.filter fun y => !F.contains y) (a.filter fun y => !F.contains y) := by
  induction h with
  | nil => exact .nil
  | @cons z zs below rest hbelow _ ihbelow ihrest =>
    by_cases hz : z ∈ F
    · have hgone : below.filter (fun y => !F.contains y) = [] := by
        rw [List.filter_eq_nil_iff]
        intro y hy
        simpa using hbelow.mem_of_closed hF (hF z hz) hy
      rw [List.filter_cons_of_neg (by simpa using hz), List.filter_cons_of_neg (by simpa using hz),
        List.filter_append, hgone, List.nil_append]
      exact ihrest
    · rw [List.filter_cons_of_pos (by simpa using hz), List.filter_cons_of_pos (by simpa using hz),
        List.filter_append]
      rw [← without_of_notMem hz] at ihbelow
      exact .cons ihbelow ihrest

end Spans

end Without

/-! ## Unique parents -/

section Parents

variable {q z : ι}

namespace Spans

/-- Nothing is below itself in a finite forest. -/
theorem notMem_below (h : Spans kids (kids x) b) : x ∉ b := by
  intro hx
  obtain ⟨A, b', B, hb, h'⟩ := h.exists_below hx
  have hlength := congrArg List.length hb
  rw [h.unique h'] at hlength
  simp only [List.length_append, List.length_cons] at hlength
  omega

/-- What leads up to a node is below it. -/
theorem mem_of_path (h : Spans kids (kids x) b)
    (hpath : Relation.ReflTransGen (fun x y => x ∈ kids y) z x) : z ∈ x :: b := by
  induction hpath using Relation.ReflTransGen.head_induction_on with
  | refl => exact List.mem_cons_self
  | head hkid _ ih =>
    rcases List.mem_cons.mp ih with rfl | hmem
    · exact List.mem_cons_of_mem _ (h.mem_of_root hkid)
    · exact List.mem_cons_of_mem _ (h.mem_of_kid hmem hkid)

/-- No path leads from the parent of a node up to the node. -/
theorem not_path_of_parent (h : Spans kids (kids x) b) (hx : x ∈ kids q) :
    ¬ Relation.ReflTransGen (fun x y => x ∈ kids y) q x := by
  intro hpath
  rcases List.mem_cons.mp (h.mem_of_path hpath) with rfl | hq
  · exact h.notMem_below (h.mem_of_root hx)
  · exact h.notMem_below (h.mem_of_kid hq hx)

/-- Two siblings do not lead up to each other. -/
theorem not_path_of_sibling (h : Spans kids (kids y) b) (hxy : x ≠ y)
    (hsiblings : ∀ q, x ∈ kids q → y ∈ kids q) :
    ¬ Relation.ReflTransGen (fun x y => x ∈ kids y) x y := by
  intro hpath
  rcases hpath.cases_head with heq | ⟨q, hq, hup⟩
  · exact hxy heq
  · exact h.not_path_of_parent (hsiblings q hq) hup

/-- When no node has two parents, and the roots have the same one or none, no node is listed
twice. -/
theorem nodup (h : Spans kids l a) (hunique : ∀ p q x, x ∈ kids p → x ∈ kids q → p = q)
    (hkids : ∀ p, (kids p).Nodup) (hl : l.Nodup)
    (hsiblings : ∀ x ∈ l, ∀ q, x ∈ kids q → ∀ y ∈ l, y ∈ kids q) : a.Nodup := by
  induction h with
  | nil => exact List.nodup_nil
  | @cons x xs below rest hbelow hrest ihbelow ihrest =>
    have hndBelow := ihbelow (hkids x) fun y hy q hq z hz => hunique x q y hy hq ▸ hz
    have hndRest := ihrest (List.nodup_cons.mp hl).2 fun y hy q hq z hz =>
      hsiblings y (List.mem_cons_of_mem _ hy) q hq z (List.mem_cons_of_mem _ hz)
    -- from what is below the later roots no path leads to the first one
    have hapart : ∀ y ∈ xs, ∀ z, Relation.ReflTransGen (fun x y => x ∈ kids y) z x →
        ¬ Relation.ReflTransGen (fun x y => x ∈ kids y) z y := by
      intro y hy z hzx hzy
      have hne : x ≠ y := fun heq => (List.nodup_cons.mp hl).1 (heq ▸ hy)
      have hright : Relator.RightUnique fun x y => x ∈ kids y := fun z p q hp hq =>
        hunique p q z hp hq
      obtain ⟨A, b, B, -, hb⟩ := hrest.exists_below (hrest.mem_of_root hy)
      rcases Relation.ReflTransGen.total_of_right_unique hright hzx hzy with hpath | hpath
      · exact hb.not_path_of_sibling hne
          (fun q hq => hsiblings x List.mem_cons_self q hq y (List.mem_cons_of_mem _ hy)) hpath
      · exact hbelow.not_path_of_sibling hne.symm
          (fun q hq => hsiblings y (List.mem_cons_of_mem _ hy) q hq x List.mem_cons_self) hpath
    have hfar : ∀ z ∈ rest, ¬ Relation.ReflTransGen (fun x y => x ∈ kids y) z x := by
      intro z hz hzx
      obtain ⟨y, hy, hzy⟩ := hrest.exists_path (fun _ _ hkid => hkid) hz
      exact hapart y hy z hzx hzy
    rw [List.nodup_cons, List.nodup_append, List.mem_append, not_or]
    refine ⟨⟨hbelow.notMem_below, fun hx => hfar x hx .refl⟩, hndBelow, hndRest, ?_⟩
    rintro z hz z' hz' rfl
    obtain ⟨y, hy, hzy⟩ := hbelow.exists_path (fun _ _ hkid => hkid) hz
    exact hfar z hz' (hzy.tail hy)

theorem exists_of_roots (h : ∀ x ∈ l, ∃ b, Spans kids (kids x) b) : ∃ a, Spans kids l a := by
  induction l with
  | nil => exact ⟨[], .nil⟩
  | cons x xs ih =>
    obtain ⟨b, hb⟩ := h x List.mem_cons_self
    obtain ⟨a, ha⟩ := ih fun y hy => h y (List.mem_cons_of_mem _ hy)
    exact ⟨_, .cons hb ha⟩

/-- Below a node without a parent the children are a finite tree, when there are finitely many
nodes and none has two parents. -/
theorem exists_of_root [DecidableEq ι] (hunique : ∀ p q x, x ∈ kids p → x ∈ kids q → p = q)
    (nodes : Finset ι) (hnodes : ∀ p, ∀ x ∈ kids p, x ∈ nodes) (hroot : ∀ p, x ∉ kids p) :
    ∃ b, Spans kids (kids x) b := by
  -- `above` has a node with all that is above it
  have hbelow : ∀ (k : ℕ) (above : Finset ι) (x : ι), (nodes \ above).card < k → x ∈ above →
      (∀ y ∈ kids x, y ∉ above) → (∀ y ∈ above, ∀ q, y ∈ kids q → q ∈ above) →
      ∃ b, Spans kids (kids x) b := by
    intro k
    induction k with
    | zero => exact fun above x hcard => absurd hcard (Nat.not_lt_zero _)
    | succ k ih =>
      intro above x hcard hx hkids hup
      apply exists_of_roots
      intro y hy
      apply ih (Insert.insert y above) y
      · have hmem : y ∈ nodes \ above := Finset.mem_sdiff.mpr ⟨hnodes x y hy, hkids y hy⟩
        have hless : (nodes \ Insert.insert y above).card < (nodes \ above).card := by
          rw [Finset.sdiff_insert]
          exact Finset.card_erase_lt_of_mem hmem
        omega
      · exact Finset.mem_insert_self _ _
      · intro z hz hzabove
        rcases Finset.mem_insert.mp hzabove with rfl | hzabove
        · exact hkids z hy (hunique x z z hy hz ▸ hx)
        · exact hkids y hy (hup z hzabove y hz)
      · intro z hz q hq
        rcases Finset.mem_insert.mp hz with rfl | hz
        · exact Finset.mem_insert_of_mem (hunique x q z hy hq ▸ hx)
        · exact Finset.mem_insert_of_mem (hup z hz q hq)
  apply hbelow _ {x} x (Nat.lt_succ_self _) (Finset.mem_singleton_self x)
  · intro y hy hyx
    rw [Finset.mem_singleton] at hyx
    subst hyx
    exact hroot y hy
  · intro y hy q hq
    rw [Finset.mem_singleton] at hy
    subst hy
    exact absurd hq (hroot q)

end Spans

end Parents

end PoopWorms.Forest
