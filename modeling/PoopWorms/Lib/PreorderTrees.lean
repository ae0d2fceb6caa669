import PoopWorms.Lib.Forest

/-!
# Trees in preorder

A row of trees is written as the list of its nodes in preorder, each with the number of its
children, and read back from that list. The forest that a function `kids` spans is such a row.
-/

namespace PoopWorms.PreorderTrees

open Forest

variable {α β ι : Type*}

/-- A row of trees: the first one, with those below it, and those behind it. -/
inductive Trees (α : Type*)
  | nil
  | node (a : α) (below behind : Trees α)

namespace Trees

def map (f : α → β) : Trees α → Trees β
  | nil => nil
  | node a below behind => node (f a) (below.map f) (behind.map f)

/-- The number of trees in the row. -/
def roots : Trees α → ℕ
  | nil => 0
  | node _ _ behind => behind.roots + 1

/-- The nodes in preorder. -/
def nodes : Trees α → List α
  | nil => []
  | node a below behind => a :: (below.nodes ++ behind.nodes)

/-- The nodes in preorder, each with the number of its children. -/
def spell : Trees α → List (α × ℕ)
  | nil => []
  | node a below behind => (a, below.roots) :: (below.spell ++ behind.spell)

/-- The first `n` trees that a list spells, and what is left of it. -/
def read : ℕ → ℕ → List (α × ℕ) → Option (Trees α × List (α × ℕ))
  | _, 0, l => some (nil, l)
  | 0, _ + 1, _ => none
  | _ + 1, _ + 1, [] => none
  | fuel + 1, n + 1, (a, k) :: l => do
    let (below, l) ← read fuel k l
    let (behind, l) ← read fuel n l
    return (node a below behind, l)

/-- The one tree that a list spells. -/
def parse (l : List (α × ℕ)) : Option (Trees α) :=
  match read l.length 1 l with
  | some (t, []) => some t
  | _ => none

theorem read_spell (t : Trees α) (fuel : ℕ) (hfuel : t.spell.length ≤ fuel) (l : List (α × ℕ)) :
    read fuel t.roots (t.spell ++ l) = some (t, l) := by
  induction t generalizing fuel l with
  | nil =>
    show read fuel 0 l = some (nil, l)
    rw [read]
  | node a below behind ihbelow ihbehind =>
    cases fuel with
    | zero => simp [spell] at hfuel
    | succ fuel =>
      have hlen : below.spell.length + behind.spell.length ≤ fuel := by
        simpa [spell] using hfuel
      simp only [spell, roots, List.cons_append, List.append_assoc, read,
        ihbelow fuel (by omega), ihbehind fuel (by omega), Option.bind_eq_bind, Option.bind_some]
      rfl

theorem parse_spell (t : Trees α) (h : t.roots = 1) : parse t.spell = some t := by
  have hread := read_spell t t.spell.length (Nat.le_refl _) []
  rw [List.append_nil, h] at hread
  unfold parse
  rw [hread]

@[simp] theorem roots_map (f : α → β) (t : Trees α) : (t.map f).roots = t.roots := by
  induction t with
  | nil => rfl
  | node a below behind _ ih => rw [map, roots, roots, ih]

theorem spell_map (f : α → β) (t : Trees α) :
    (t.map f).spell = t.spell.map fun x => (f x.1, x.2) := by
  induction t with
  | nil => rfl
  | node a below behind ihbelow ihbehind =>
    rw [map, spell, spell, List.map_cons, List.map_append, ihbelow, ihbehind, roots_map]

/-- Two maps of a row agree exactly if they do at its nodes. -/
theorem map_eq_map_iff {f g : α → β} {t : Trees α} :
    t.map f = t.map g ↔ ∀ a ∈ t.nodes, f a = g a := by
  induction t with
  | nil => simp [map, nodes]
  | node a below behind ihbelow ihbehind =>
    simp only [map, nodes, node.injEq, ihbelow, ihbehind, List.forall_mem_cons,
      List.forall_mem_append]

/-- The row of trees below the roots `l`. -/
inductive Of (kids : ι → List ι) : List ι → Trees ι → Prop
  | nil : Of kids [] nil
  | node {x : ι} {l : List ι} {below behind : Trees ι} (hbelow : Of kids (kids x) below)
      (hbehind : Of kids l behind) : Of kids (x :: l) (node x below behind)

namespace Of

variable {kids : ι → List ι} {l b : List ι} {t t' : Trees ι}

theorem roots_eq (h : Of kids l t) : t.roots = l.length := by
  induction h with
  | nil => rfl
  | node _ _ _ ih => rw [roots, ih, List.length_cons]

theorem spell_eq (h : Of kids l t) : t.spell = t.nodes.map fun x => (x, (kids x).length) := by
  induction h with
  | nil => rfl
  | node hbelow _ ihbelow ihbehind =>
    rw [spell, nodes, List.map_cons, List.map_append, ihbelow, ihbehind, hbelow.roots_eq]

theorem spans (h : Of kids l t) : Spans kids l t.nodes := by
  induction h with
  | nil => exact .nil
  | node _ _ ihbelow ihbehind => exact .cons ihbelow ihbehind

/-- The row is determined by its roots. -/
theorem unique (h : Of kids l t) (h' : Of kids l t') : t = t' := by
  induction h generalizing t' with
  | nil =>
    cases h'
    rfl
  | node _ _ ihbelow ihbehind =>
    cases h' with
    | node hbelow hbehind => rw [ihbelow hbelow, ihbehind hbehind]

theorem length_le (h : Of kids l t) : l.length ≤ t.nodes.length := by
  induction h with
  | nil => exact Nat.le_refl _
  | node _ _ _ ihbehind =>
    rw [nodes, List.length_cons, List.length_cons, List.length_append]
    omega

theorem length_kids_le (h : Of kids l t) {x : ι} (hx : x ∈ t.nodes) :
    (kids x).length ≤ t.nodes.length := by
  induction h with
  | nil => simp [nodes] at hx
  | node hbelow _ ihbelow ihbehind =>
    have hroots := hbelow.length_le
    rw [nodes, List.length_cons, List.length_append]
    rw [nodes, List.mem_cons, List.mem_append] at hx
    rcases hx with rfl | hx | hx
    · omega
    · have := ihbelow hx
      omega
    · have := ihbehind hx
      omega

end Of

theorem exists_of_spans {kids : ι → List ι} {l b : List ι} (h : Spans kids l b) :
    ∃ t, Of kids l t := by
  induction h with
  | nil => exact ⟨nil, .nil⟩
  | cons _ _ ihbelow ihrest =>
    obtain ⟨below, hbelow⟩ := ihbelow
    obtain ⟨behind, hbehind⟩ := ihrest
    exact ⟨_, .node hbelow hbehind⟩

end Trees

end PoopWorms.PreorderTrees
