import Mathlib.Algebra.Order.Group.Multiset
import Mathlib.Data.Multiset.Range
import Mathlib.Logic.Function.Basic
import Mathlib.Tactic.Common

/-!
# Binary heaps with a hole

The first `n` places of an array are a binary tree, in which the parent of place `i` is
place `(i - 1) / 2`. An element is put into a heap by moving a hole: `UpReady` and
`DownReady` say what holds while the hole `h` goes up, or down, and `e` waits to be put
into it. The order `r` is any relation; only going up and the root need it to be transitive.
-/

namespace PoopWorms.BinaryHeap

variable {α : Type*} {r : α → α → Prop} {a : ℕ → α} {n h c i : ℕ} {e : α}

def parent (i : ℕ) : ℕ := (i - 1) / 2

theorem parent_lt (hi : 0 < i) : parent i < i := by
  unfold parent
  omega

/-- The children of a place. -/
theorem parent_eq_iff (hi : 0 < i) : parent i = h ↔ i = 2 * h + 1 ∨ i = 2 * h + 2 := by
  unfold parent
  omega

/-- No element is before its parent. -/
def Ordered (r : α → α → Prop) (a : ℕ → α) (n : ℕ) : Prop :=
  ∀ i, 0 < i → i < n → r (a (parent i)) (a i)

/-- The element at the root is before all others. -/
theorem Ordered.root (ho : Ordered r a n) (htrans : ∀ x y z, r x y → r y z → r x z) (i : ℕ)
    (hpos : 0 < i) (hi : i < n) : r (a 0) (a i) := by
  induction i using Nat.strong_induction_on with
  | _ i ih =>
    have hlt := parent_lt hpos
    have hedge := ho i hpos hi
    rcases Nat.eq_zero_or_pos (parent i) with hzero | hparent
    · rwa [hzero] at hedge
    · exact htrans _ _ _ (ih _ hlt hparent (by omega)) hedge

/-- The order holds between all places but the hole. -/
structure Except (r : α → α → Prop) (a : ℕ → α) (n h : ℕ) : Prop where
  apart : ∀ i, 0 < i → i < n → i ≠ h → parent i ≠ h → r (a (parent i)) (a i)
  across : 0 < h → ∀ i, 0 < i → i < n → parent i = h → r (a (parent h)) (a i)

/-- The hole goes up, until `e` fits into it. -/
structure UpReady (r : α → α → Prop) (a : ℕ → α) (n h : ℕ) (e : α) : Prop
    extends Except r a n h where
  below : ∀ i, 0 < i → i < n → parent i = h → r e (a i)

/-- The hole goes down, until `e` fits into it. -/
structure DownReady (r : α → α → Prop) (a : ℕ → α) (n h : ℕ) (e : α) : Prop
    extends Except r a n h where
  above : 0 < h → r (a (parent h)) e

/-- `e` is put into the hole. -/
theorem Except.fill (hexcept : Except r a n h) (hup : 0 < h → r (a (parent h)) e)
    (hdown : ∀ i, 0 < i → i < n → parent i = h → r e (a i)) :
    Ordered r (Function.update a h e) n := by
  intro i hpos hi
  have hlt := parent_lt hpos
  by_cases hih : i = h
  · subst hih
    rw [Function.update_self, Function.update_of_ne (by omega)]
    exact hup hpos
  · rw [Function.update_of_ne hih]
    by_cases hph : parent i = h
    · rw [hph, Function.update_self]
      exact hdown i hpos hi hph
    · rw [Function.update_of_ne hph]
      exact hexcept.apart i hpos hi hih hph

theorem UpReady.fill (hready : UpReady r a n h e) (hup : 0 < h → r (a (parent h)) e) :
    Ordered r (Function.update a h e) n :=
  hready.toExcept.fill hup hready.below

theorem DownReady.fill (hready : DownReady r a n h e)
    (hdown : ∀ i, 0 < i → i < n → parent i = h → r e (a i)) :
    Ordered r (Function.update a h e) n :=
  hready.toExcept.fill hready.above hdown

/-- The parent of the hole comes down. -/
theorem UpReady.move (hready : UpReady r a n h e) (htrans : ∀ x y z, r x y → r y z → r x z)
    (hh : 0 < h) (hn : h < n) (he : r e (a (parent h))) :
    UpReady r (Function.update a h (a (parent h))) n (parent h) e := by
  have hlt := parent_lt hh
  constructor
  · constructor
    · intro i hpos hi hip hpp
      have hih : i ≠ h := by
        rintro rfl
        exact hpp rfl
      rw [Function.update_of_ne hih]
      by_cases hph : parent i = h
      · rw [hph, Function.update_self]
        exact hready.across hh i hpos hi hph
      · rw [Function.update_of_ne hph]
        exact hready.apart i hpos hi hih hph
    · intro hp i hpos hi hpi
      have hup := parent_lt hp
      have habove : r (a (parent (parent h))) (a (parent h)) :=
        hready.apart _ hp (by omega) (by omega) (by omega)
      rw [Function.update_of_ne (show parent (parent h) ≠ h by omega)]
      by_cases hih : i = h
      · rw [hih, Function.update_self]
        exact habove
      · rw [Function.update_of_ne hih]
        have hsibling := hready.apart i hpos hi hih (by omega)
        rw [hpi] at hsibling
        exact htrans _ _ _ habove hsibling
  · intro i hpos hi hpi
    by_cases hih : i = h
    · rw [hih, Function.update_self]
      exact he
    · rw [Function.update_of_ne hih]
      have hsibling := hready.apart i hpos hi hih (by omega)
      rw [hpi] at hsibling
      exact htrans _ _ _ he hsibling

/-- The child `c` of the hole, which is before its sibling and before `e`, goes up. -/
theorem DownReady.move (hready : DownReady r a n h e) (hc : 0 < c) (hn : c < n)
    (hparent : parent c = h) (hsibling : ∀ i, 0 < i → i < n → parent i = h → i ≠ c → r (a c) (a i))
    (he : r (a c) e) : DownReady r (Function.update a h (a c)) n c e := by
  have hlt := parent_lt hc
  constructor
  · constructor
    · intro i hpos hi hic hpc
      by_cases hih : i = h
      · subst hih
        have hup := parent_lt hpos
        rw [Function.update_self, Function.update_of_ne (by omega)]
        exact hready.across hpos c hc hn hparent
      · rw [Function.update_of_ne hih]
        by_cases hph : parent i = h
        · rw [hph, Function.update_self]
          exact hsibling i hpos hi hph hic
        · rw [Function.update_of_ne hph]
          exact hready.apart i hpos hi hih hph
    · intro _ i hpos hi hpi
      have hup := parent_lt hpos
      rw [hparent, Function.update_self, Function.update_of_ne (by omega)]
      have hbelow := hready.apart i hpos hi (by omega) (by omega)
      rwa [hpi] at hbelow
  · intro _
    rw [hparent, Function.update_self]
    exact he

/-- The last place is a hole in a heap that has just grown. -/
theorem Ordered.upReady (ho : Ordered r a n) : UpReady r a (n + 1) n e := by
  have hleaf : ∀ i, 0 < i → i < n + 1 → parent i ≠ n := by
    intro i hpos hi
    have hlt := parent_lt hpos
    omega
  constructor
  · constructor
    · intro i hpos hi hin _
      exact ho i hpos (by omega)
    · intro _ i hpos hi hp
      exact absurd hp (hleaf i hpos hi)
  · intro i hpos hi hp
    exact absurd hp (hleaf i hpos hi)

/-- The root is a hole in a heap that has just lost its last place. -/
theorem Ordered.downReady (ho : Ordered r a (n + 1)) : DownReady r a n 0 e := by
  constructor
  · constructor
    · intro i hpos hi _ _
      exact ho i hpos (by omega)
    · intro h0
      exact absurd h0 (lt_irrefl 0)
  · intro h0
    exact absurd h0 (lt_irrefl 0)

/-! ## What is stored -/

/-- What the first `n` places hold. -/
def contents (a : ℕ → α) (n : ℕ) : Multiset α := (Multiset.range n).map a

@[simp] theorem contents_zero : contents a 0 = 0 := rfl

theorem contents_succ : contents a (n + 1) = a n ::ₘ contents a n := by
  unfold contents
  rw [Multiset.range_succ, Multiset.map_cons]

@[simp] theorem card_contents : (contents a n).card = n := by
  unfold contents
  rw [Multiset.card_map, Multiset.card_range]

theorem mem_contents {x : α} : x ∈ contents a n ↔ ∃ i < n, a i = x := by
  unfold contents
  simp

theorem contents_update_of_le (hi : n ≤ i) (x : α) :
    contents (Function.update a i x) n = contents a n := by
  unfold contents
  apply Multiset.map_congr rfl
  intro j hj
  have hlt := Multiset.mem_range.mp hj
  exact Function.update_of_ne (by omega) ..

theorem contents_tail : contents a (n + 1) = a 0 ::ₘ contents (fun i => a (i + 1)) n := by
  induction n with
  | zero => rfl
  | succ n ih => rw [contents_succ, ih, contents_succ (a := fun i => a (i + 1)), Multiset.cons_swap]

/-- The element at the root is before what else the heap holds. -/
theorem Ordered.root_contents {m : Multiset α} (ho : Ordered r a (n + 1))
    (htrans : ∀ x y z, r x y → r y z → r x z) (hm : contents a (n + 1) = a 0 ::ₘ m) :
    ∀ y ∈ m, r (a 0) y := by
  intro y hy
  rw [contents_tail] at hm
  rw [← (Multiset.cons_inj_right _).mp hm, mem_contents] at hy
  obtain ⟨i, hi, rfl⟩ := hy
  exact ho.root htrans (i + 1) (Nat.succ_pos i) (by omega)

/-- One place gets another element. -/
theorem contents_update (hi : i < n) (x : α) :
    a i ::ₘ contents (Function.update a i x) n = x ::ₘ contents a n := by
  induction n with
  | zero => omega
  | succ n ih =>
    rw [contents_succ, contents_succ]
    rcases Nat.lt_or_eq_of_le (Nat.le_of_lt_succ hi) with hlt | rfl
    · rw [Function.update_of_ne (by omega), Multiset.cons_swap, ih hlt, Multiset.cons_swap]
    · rw [Function.update_self, contents_update_of_le (Nat.le_refl i), Multiset.cons_swap]

/-- The hole moves to the place `c`, whose element goes into it. -/
theorem contents_move (hh : h < n) (hc : c < n) (e : α) :
    contents (Function.update (Function.update a h (a c)) c e) n =
      contents (Function.update a h e) n := by
  by_cases hch : c = h
  · rw [hch, Function.update_idem]
  · have hmove := contents_update (a := Function.update a h (a c)) hc e
    have hfill := contents_update (a := a) hh (a c)
    have hend := contents_update (a := a) hh e
    rw [Function.update_of_ne hch] at hmove
    have hall : a h ::ₘ a c ::ₘ contents (Function.update (Function.update a h (a c)) c e) n =
        a h ::ₘ a c ::ₘ contents (Function.update a h e) n := by
      rw [hmove, Multiset.cons_swap, hfill, Multiset.cons_swap (a h), hend, Multiset.cons_swap]
    exact (Multiset.cons_inj_right _).mp ((Multiset.cons_inj_right _).mp hall)

theorem contents_append (e : α) : contents (Function.update a n e) (n + 1) = e ::ₘ contents a n := by
  rw [contents_succ, Function.update_self, contents_update_of_le (Nat.le_refl n)]

/-- The last element goes to the root. -/
theorem contents_root (hn : 0 < n) :
    a 0 ::ₘ contents (Function.update a 0 (a n)) n = contents a (n + 1) := by
  rw [contents_update hn, contents_succ]

end PoopWorms.BinaryHeap
