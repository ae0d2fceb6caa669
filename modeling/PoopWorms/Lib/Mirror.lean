import Mathlib.Data.Finset.Option
import Mathlib.Data.List.Basic
import Mathlib.Data.List.Nodup
import Mathlib.Logic.Function.Basic
import Mathlib.Tactic.Common

/-!
# Mirrored cells

Cells are kept twice. A change is made in the back copy at once and is delivered to the
front copy through a queue; the block that a cell owned before the change is freed after
the delivery, through a second queue. If every change gives a cell the block it has, a
fresh one or none, then the front copy owns live blocks only, and no two cells share one.
-/

namespace PoopWorms.Mirror

/-- A change on its way to the front copy, with the block that it leaves behind. -/
structure Update (ι V B : Type*) where
  index : ι
  value : V
  freed : Option B

structure State (ι V B : Type*) where
  front : ι → V
  back : ι → V
  pending : List (Update ι V B)
  reclaim : List B
  live : Finset B

variable {ι V B : Type*} [DecidableEq ι] [DecidableEq B]

/-- The block that is left behind when `new` takes the place of `old`. -/
def left (old new : Option B) : Option B := if new = old then none else old

/-- Cell `i` is changed in the back copy; `own` is the block of a value. -/
def change (own : V → Option B) (s : State ι V B) (i : ι) (v : V) : State ι V B where
  front := s.front
  back := Function.update s.back i v
  pending := s.pending ++ [⟨i, v, left (own (s.back i)) (own v)⟩]
  reclaim := s.reclaim
  live := s.live ∪ (own v).toFinset

/-- The oldest change reaches the front copy. -/
def deliver (s : State ι V B) : State ι V B :=
  match s.pending with
  | [] => s
  | u :: pending => { s with
    front := Function.update s.front u.index u.value
    pending := pending
    reclaim := s.reclaim ++ u.freed.toList }

/-- The oldest block that was left behind is freed. -/
def free (s : State ι V B) : State ι V B :=
  match s.reclaim with
  | [] => s
  | b :: reclaim => { s with reclaim := reclaim, live := s.live.erase b }

/-- The front copy after all changes of a queue. -/
def settle (front : ι → V) : List (Update ι V B) → ι → V
  | [] => front
  | u :: us => settle (Function.update front u.index u.value) us

/-- Every change of a queue leaves behind the block of the value that it overwrites. -/
def Linked (own : V → Option B) : (ι → V) → List (Update ι V B) → Prop
  | _, [] => True
  | front, u :: us =>
    u.freed = left (own (front u.index)) (own u.value) ∧
      Linked own (Function.update front u.index u.value) us

/-- The blocks that wait for a delivery or to be freed. -/
def leaving (s : State ι V B) : List B := s.pending.filterMap Update.freed ++ s.reclaim

structure Inv (own : V → Option B) (s : State ι V B) : Prop where
  settles : settle s.front s.pending = s.back
  linked : Linked own s.front s.pending
  inj : ∀ i j b, own (s.back i) = some b → own (s.back j) = some b → i = j
  nodup : (leaving s).Nodup
  disjoint : ∀ b ∈ leaving s, ∀ i, own (s.back i) ≠ some b
  back_live : ∀ i b, own (s.back i) = some b → b ∈ s.live
  leaving_live : ∀ b ∈ leaving s, b ∈ s.live

variable {own : V → Option B} {s : State ι V B} {front : ι → V} {us us' : List (Update ι V B)}
  {i j : ι} {v : V} {b : B}

theorem left_eq_some {old new : Option B} : left old new = some b ↔ old = some b ∧ new ≠ old := by
  unfold left
  split_ifs with h
  · simp [h]
  · simp [h]

omit [DecidableEq B] in
theorem settle_append (front : ι → V) (us us' : List (Update ι V B)) :
    settle front (us ++ us') = settle (settle front us) us' := by
  induction us generalizing front with
  | nil => rfl
  | cons u us ih => exact ih _

theorem linked_append :
    Linked own front (us ++ us') ↔ Linked own front us ∧ Linked own (settle front us) us' := by
  induction us generalizing front with
  | nil => simp [Linked, settle]
  | cons u us ih =>
    rw [List.cons_append, Linked, Linked, settle, ih, and_assoc]

/-- What the front copy owns, the back copy still owns or a change is about to leave. -/
theorem own_front (h : Linked own front us) (hb : own (front i) = some b) :
    own (settle front us i) = some b ∨ ∃ u ∈ us, u.index = i ∧ u.freed = some b := by
  induction us generalizing front with
  | nil => exact .inl hb
  | cons u us ih =>
    obtain ⟨hfreed, hlinked⟩ := h
    by_cases hi : u.index = i
    · subst hi
      by_cases hsame : own u.value = own (front u.index)
      · have hnext : own (Function.update front u.index u.value u.index) = some b := by
          rw [Function.update_self, hsame, hb]
        rcases ih hlinked hnext with hback | ⟨u', hmem, hu'⟩
        · exact .inl hback
        · exact .inr ⟨u', List.mem_cons_of_mem _ hmem, hu'⟩
      · refine .inr ⟨u, List.mem_cons_self, rfl, ?_⟩
        rw [hfreed, left_eq_some]
        exact ⟨hb, hsame⟩
    · have hnext : own (Function.update front u.index u.value i) = some b := by
        rw [Function.update_of_ne (Ne.symm hi), hb]
      rcases ih hlinked hnext with hback | ⟨u', hmem, hu'⟩
      · exact .inl hback
      · exact .inr ⟨u', List.mem_cons_of_mem _ hmem, hu'⟩

omit [DecidableEq ι] [DecidableEq B] in
/-- Two changes of a queue that leave the same block are one. -/
theorem eq_of_freed (h : (us.filterMap Update.freed).Nodup) {u u' : Update ι V B} (hu : u ∈ us)
    (hu' : u' ∈ us) (hb : u.freed = some b) (hb' : u'.freed = some b) : u.index = u'.index := by
  induction us with
  | nil => cases hu
  | cons x us ih =>
    rw [List.filterMap_cons] at h
    rw [List.mem_cons] at hu hu'
    rcases hu with rfl | hu <;> rcases hu' with rfl | hu'
    · rfl
    · rw [hb] at h
      exact absurd (List.mem_filterMap.mpr ⟨u', hu', hb'⟩) (List.nodup_cons.mp h).1
    · rw [hb'] at h
      exact absurd (List.mem_filterMap.mpr ⟨u, hu, hb⟩) (List.nodup_cons.mp h).1
    · cases hx : x.freed with
      | none =>
        rw [hx] at h
        exact ih h hu hu'
      | some c =>
        rw [hx] at h
        exact ih (List.nodup_cons.mp h).2 hu hu'

omit [DecidableEq ι] [DecidableEq B] in
theorem mem_leaving_of_pending {u : Update ι V B} (hu : u ∈ s.pending) (hb : u.freed = some b) :
    b ∈ leaving s :=
  List.mem_append_left _ (List.mem_filterMap.mpr ⟨u, hu, hb⟩)

namespace Inv

/-- Without changes on their way the two copies are equal. -/
theorem front_eq_back (h : Inv own s) (hpending : s.pending = []) : s.front = s.back := by
  have hsettles := h.settles
  rwa [hpending] at hsettles

/-- A block of the front copy has not been freed. -/
theorem front_live (h : Inv own s) (hb : own (s.front i) = some b) : b ∈ s.live := by
  rcases own_front h.linked hb with hback | ⟨u, hu, -, hfreed⟩
  · rw [h.settles] at hback
    exact h.back_live i b hback
  · exact h.leaving_live b (mem_leaving_of_pending hu hfreed)

/-- No two cells share a block of the front copy. -/
theorem front_inj (h : Inv own s) (hb : own (s.front i) = some b)
    (hb' : own (s.front j) = some b ∨ own (s.back j) = some b) : i = j := by
  have hcases : own (s.back j) = some b ∨ ∃ u ∈ s.pending, u.index = j ∧ u.freed = some b := by
    rcases hb' with hb' | hb'
    · rw [← h.settles]
      exact own_front h.linked hb'
    · exact .inl hb'
  have hown := own_front h.linked hb
  rw [h.settles] at hown
  rcases hown with hback | ⟨u, hu, rfl, hfreed⟩
  · rcases hcases with hback' | ⟨u', hu', rfl, hfreed'⟩
    · exact h.inj i j b hback hback'
    · exact absurd hback (h.disjoint b (mem_leaving_of_pending hu' hfreed') i)
  · rcases hcases with hback' | ⟨u', hu', rfl, hfreed'⟩
    · exact absurd hback' (h.disjoint b (mem_leaving_of_pending hu hfreed) j)
    · exact eq_of_freed (List.nodup_append.mp h.nodup).1 hu hu' hfreed hfreed'

/-- A change gives the cell its old block, a fresh one or none. -/
theorem change (h : Inv own s)
    (hfresh : ∀ b, own v = some b → own (s.back i) ≠ some b → b ∉ s.live) :
    Inv own (change own s i v) := by
  have hback : ∀ k, own (Function.update s.back i v k) =
      if k = i then own v else own (s.back k) := by
    intro k
    by_cases hk : k = i
    · rw [hk, Function.update_self, if_pos rfl]
    · rw [Function.update_of_ne hk, if_neg hk]
  -- a block of the new value is no block of another cell, and is not about to leave
  have hother : ∀ b k, own v = some b → k ≠ i → own (s.back k) ≠ some b := by
    intro b k hb hk hk'
    by_cases hold : own (s.back i) = some b
    · exact hk (h.inj k i b hk' hold)
    · exact hfresh b hb hold (h.back_live k b hk')
  have hstays : ∀ b ∈ leaving s, own v ≠ some b := by
    intro b hmem hb
    by_cases hold : own (s.back i) = some b
    · exact h.disjoint b hmem i hold
    · exact hfresh b hb hold (h.leaving_live b hmem)
  have hmem : ∀ b, b ∈ leaving (Mirror.change own s i v) ↔
      b ∈ leaving s ∨ own (s.back i) = some b ∧ own v ≠ own (s.back i) := by
    intro b
    unfold leaving Mirror.change
    simp only [List.filterMap_append, List.mem_append, List.mem_filterMap, List.mem_singleton,
      exists_eq_left, left_eq_some]
    exact or_right_comm
  refine ⟨?_, ?_, ?_, ?_, ?_, ?_, ?_⟩
  · show settle s.front (s.pending ++ [_]) = Function.update s.back i v
    rw [settle_append, h.settles]
    rfl
  · show Linked own s.front (s.pending ++ [_])
    rw [linked_append, h.settles]
    exact ⟨h.linked, rfl, trivial⟩
  · intro j k b hj hk
    change own (Function.update s.back i v j) = some b at hj
    change own (Function.update s.back i v k) = some b at hk
    rw [hback] at hj hk
    split_ifs at hj hk with hji hki hki
    · rw [hji, hki]
    · exact absurd hk (hother b k hj hki)
    · exact absurd hj (hother b j hk hji)
    · exact h.inj j k b hj hk
  · show ((s.pending ++ [_]).filterMap Update.freed ++ s.reclaim).Nodup
    rw [List.filterMap_append, List.append_assoc]
    have hperm : (s.pending.filterMap Update.freed ++
        ([⟨i, v, left (own (s.back i)) (own v)⟩].filterMap Update.freed ++ s.reclaim)).Perm
        ((left (own (s.back i)) (own v)).toList ++ leaving s) := by
      unfold leaving
      rw [← List.append_assoc, ← List.append_assoc]
      apply List.Perm.append_right
      apply (List.perm_append_comm).trans
      apply List.Perm.append_right
      cases hleft : left (own (s.back i)) (own v) <;> simp
    rw [hperm.nodup_iff]
    cases hleft : left (own (s.back i)) (own v) with
    | none => exact h.nodup
    | some c =>
      refine List.nodup_cons.mpr ⟨?_, h.nodup⟩
      intro hc
      exact h.disjoint c hc i (left_eq_some.mp hleft).1
  · intro b hb k
    show own (Function.update s.back i v k) ≠ some b
    rw [hback]
    rcases (hmem b).mp hb with hb | ⟨hold, hne⟩
    · split_ifs
      · exact hstays b hb
      · exact h.disjoint b hb k
    · split_ifs with hk
      · rwa [hold] at hne
      · intro hk'
        exact hk (h.inj k i b hk' hold)
  · intro k b hb
    change own (Function.update s.back i v k) = some b at hb
    show b ∈ s.live ∪ (own v).toFinset
    rw [hback] at hb
    rw [Finset.mem_union]
    split_ifs at hb
    · exact .inr (Option.mem_toFinset.mpr hb)
    · exact .inl (h.back_live k b hb)
  · intro b hb
    show b ∈ s.live ∪ (own v).toFinset
    rw [Finset.mem_union]
    rcases (hmem b).mp hb with hb | ⟨hold, -⟩
    · exact .inl (h.leaving_live b hb)
    · exact .inl (h.back_live i b hold)

theorem deliver (h : Inv own s) : Inv own (deliver s) := by
  cases hpending : s.pending with
  | nil =>
    have hsame : Mirror.deliver s = s := by
      unfold Mirror.deliver
      rw [hpending]
    rwa [hsame]
  | cons u us =>
    have hdeliver : Mirror.deliver s = { s with
        front := Function.update s.front u.index u.value
        pending := us
        reclaim := s.reclaim ++ u.freed.toList } := by
      unfold Mirror.deliver
      rw [hpending]
    have hsettles := h.settles
    have hlinked := h.linked
    rw [hpending] at hsettles hlinked
    -- the block moves from one queue to the other
    have hperm : (leaving (Mirror.deliver s)).Perm (leaving s) := by
      unfold leaving
      rw [hdeliver, hpending]
      show (us.filterMap Update.freed ++ (s.reclaim ++ u.freed.toList)).Perm _
      have hcons : (u :: us).filterMap Update.freed =
          u.freed.toList ++ us.filterMap Update.freed := by
        rw [List.filterMap_cons]
        cases u.freed <;> rfl
      rw [hcons, ← List.append_assoc, List.append_assoc u.freed.toList]
      exact List.perm_append_comm
    have hnodup := hperm.nodup_iff.mpr h.nodup
    have hdisjoint : ∀ b ∈ leaving (Mirror.deliver s), ∀ i, own (s.back i) ≠ some b := by
      intro b hb
      exact h.disjoint b (hperm.mem_iff.mp hb)
    have hlive : ∀ b ∈ leaving (Mirror.deliver s), b ∈ s.live := by
      intro b hb
      exact h.leaving_live b (hperm.mem_iff.mp hb)
    rw [hdeliver] at hnodup hdisjoint hlive ⊢
    exact ⟨hsettles, hlinked.2, h.inj, hnodup, hdisjoint, h.back_live, hlive⟩

theorem free (h : Inv own s) : Inv own (free s) := by
  cases hreclaim : s.reclaim with
  | nil =>
    have hsame : Mirror.free s = s := by
      unfold Mirror.free
      rw [hreclaim]
    rwa [hsame]
  | cons b bs =>
    have hfree : Mirror.free s = { s with reclaim := bs, live := s.live.erase b } := by
      unfold Mirror.free
      rw [hreclaim]
    have hnodup := h.nodup
    unfold leaving at hnodup
    rw [hreclaim, List.nodup_middle, List.nodup_cons] at hnodup
    have hb : b ∈ leaving s := by
      unfold leaving
      rw [hreclaim]
      simp
    have hsub : ∀ c ∈ s.pending.filterMap Update.freed ++ bs, c ∈ leaving s := by
      intro c hc
      unfold leaving
      rw [hreclaim]
      rw [List.mem_append] at hc ⊢
      rcases hc with hc | hc
      · exact .inl hc
      · exact .inr (List.mem_cons_of_mem _ hc)
    rw [hfree]
    refine ⟨h.settles, h.linked, h.inj, hnodup.2, fun c hc => h.disjoint c (hsub c hc), ?_, ?_⟩
    · intro i c hc
      refine Finset.mem_erase.mpr ⟨?_, h.back_live i c hc⟩
      rintro rfl
      exact h.disjoint c hb i hc
    · intro c hc
      refine Finset.mem_erase.mpr ⟨?_, h.leaving_live c (hsub c hc)⟩
      rintro rfl
      exact hnodup.1 hc

/-- Cells that own nothing, in both copies. -/
theorem new (front : ι → V) (hown : ∀ i, own (front i) = none) :
    Inv own (⟨front, front, [], [], ∅⟩ : State ι V B) where
  settles := rfl
  linked := trivial
  inj i j b h := by
    change own (front i) = some b at h
    rw [hown] at h
    cases h
  nodup := List.nodup_nil
  disjoint := nofun
  back_live i b h := by
    change own (front i) = some b at h
    rw [hown] at h
    cases h
  leaving_live := nofun

end Inv

/-! ## What holds of all values -/

/-- All values of both copies, and those on their way, have a property. -/
structure All (P : V → Prop) (s : State ι V B) : Prop where
  front : ∀ i, P (s.front i)
  back : ∀ i, P (s.back i)
  pending : ∀ u ∈ s.pending, P u.value

namespace All

variable {P : V → Prop}

theorem change (h : All P s) (hv : P v) : All P (change own s i v) where
  front := h.front
  back j := by
    show P (Function.update s.back i v j)
    by_cases hj : j = i
    · rw [hj, Function.update_self]
      exact hv
    · rw [Function.update_of_ne hj]
      exact h.back j
  pending u hu := by
    rcases List.mem_append.mp hu with hu | hu
    · exact h.pending u hu
    · rw [List.mem_singleton.mp hu]
      exact hv

omit [DecidableEq B] in
theorem deliver (h : All P s) : All P (deliver s) := by
  unfold Mirror.deliver
  cases hpending : s.pending with
  | nil => exact h
  | cons u us =>
    have hall := h.pending
    rw [hpending] at hall
    refine ⟨?_, h.back, fun u' hu' => hall u' (List.mem_cons_of_mem _ hu')⟩
    intro j
    show P (Function.update s.front u.index u.value j)
    by_cases hj : j = u.index
    · rw [hj, Function.update_self]
      exact hall u List.mem_cons_self
    · rw [Function.update_of_ne hj]
      exact h.front j

omit [DecidableEq ι] in
theorem free (h : All P s) : All P (free s) := by
  unfold Mirror.free
  cases s.reclaim with
  | nil => exact h
  | cons b bs => exact ⟨h.front, h.back, h.pending⟩

end All

end PoopWorms.Mirror
