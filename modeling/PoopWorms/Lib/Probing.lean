import Mathlib.Data.ZMod.Basic
import Mathlib.Logic.Equiv.Basic

/-!
# Linear probing

A table whose slots form a ring of `n` places. An item is looked for from the home of its
key onwards, until it or an empty slot is met. `Placed hole` says that every item is met
before an empty slot when the slots of `hole` count as filled; with no hole this is the
invariant of the table, with one hole it is the invariant of the loop that closes the gap
behind a removed item.
-/

namespace PoopWorms.Probing

variable {n : ℕ} {α κ : Type*}

/-- Slot `i` comes after slot `h` and only slots of `occ` lie between. -/
def Reaches (occ : ZMod n → Prop) (h i : ZMod n) : Prop :=
  ∃ d : ℕ, i = h + d ∧ ∀ e < d, occ (h + e)

/-- The first slot from `h` on where `P` holds is `i`. -/
def Lands (P : ZMod n → Prop) (h i : ZMod n) : Prop :=
  ∃ d < n, i = h + d ∧ P i ∧ ∀ e < d, ¬ P (h + e)

/-- The slots at which the search for `k` ends: empty, or with an item of that key. -/
def Halts (slots : ZMod n → Option α) (key : α → κ) (k : κ) (i : ZMod n) : Prop :=
  ∀ x, slots i = some x → key x = k

/-- Keys are unique, and every item is reached from its home over filled slots and `hole`. -/
structure Placed (hole : ZMod n → Prop) (slots : ZMod n → Option α) (key : α → κ)
    (home : κ → ZMod n) : Prop where
  unique : ∀ {i j x y}, slots i = some x → slots j = some y → key x = key y → i = j
  reach : ∀ {i x}, slots i = some x →
    Reaches (fun j => (∃ y, slots j = some y) ∨ hole j) (home (key x)) i

/-- The hole is at `o` and the `c` slots after it hold items that are reached without it. -/
structure Gap (o : ZMod n) (c : ℕ) (slots : ZMod n → Option α) (key : α → κ)
    (home : κ → ZMod n) : Prop extends Placed (· = o) slots key home where
  empty : slots o = none
  settled : ∀ j : ℕ, 0 < j → j ≤ c →
    ∃ x, slots (o + j) = some x ∧
      Reaches (fun i => ∃ y, slots i = some y) (home (key x)) (o + j)

variable {slots : ZMod n → Option α} {key : α → κ} {home : κ → ZMod n}
  {hole hole' : ZMod n → Prop} {o : ZMod n} {c : ℕ}

theorem Reaches.mono {occ occ' : ZMod n → Prop} {h i : ZMod n} (hr : Reaches occ h i)
    (hle : ∀ j, occ j → occ' j) : Reaches occ' h i := by
  obtain ⟨d, hd, hpath⟩ := hr
  exact ⟨d, hd, fun e he => hle _ (hpath e he)⟩

theorem Lands.holds {P : ZMod n → Prop} {h i : ZMod n} (hl : Lands P h i) : P i := by
  obtain ⟨d, -, -, hP, -⟩ := hl
  exact hP

/-- A search lands somewhere as soon as there is a place to land. -/
theorem exists_lands [NeZero n] {P : ZMod n → Prop} (hP : ∃ i, P i) (h : ZMod n) :
    ∃ i, Lands P h i := by
  classical
  obtain ⟨i, hi⟩ := hP
  have hex : ∃ d : ℕ, P (h + d) := by
    use (i - h).val
    rw [ZMod.natCast_zmod_val, add_sub_cancel]
    exact hi
  have hle : Nat.find hex ≤ (i - h).val := by
    apply Nat.find_min'
    rw [ZMod.natCast_zmod_val, add_sub_cancel]
    exact hi
  have hlt : (i - h).val < n := ZMod.val_lt _
  exact ⟨h + (Nat.find hex : ℕ), Nat.find hex, by omega, rfl, Nat.find_spec hex,
    fun e he => Nat.find_min hex he⟩

theorem halts_of_empty {k : κ} {i : ZMod n} (hi : slots i = none) : Halts slots key k i := by
  intro x hx
  rw [hi] at hx
  cases hx

theorem halts_iff {k : κ} {i : ZMod n} {x : α} (hi : slots i = some x) :
    Halts slots key k i ↔ key x = k := by
  constructor
  · intro h
    exact h x hi
  · rintro rfl y hy
    rw [hi] at hy
    cases hy
    rfl

/-- Before a search lands it passes filled slots only. -/
theorem Lands.reaches {k : κ} {h i : ZMod n} (hl : Lands (Halts slots key k) h i) :
    Reaches (fun j => ∃ y, slots j = some y) h i := by
  obtain ⟨d, -, rfl, -, hpass⟩ := hl
  refine ⟨d, rfl, fun e he => ?_⟩
  by_contra hne
  push Not at hne
  exact hpass e he (halts_of_empty (Option.eq_none_iff_forall_ne_some.mpr hne))

/-- The search for a stored item ends at the item or in the hole. -/
theorem Placed.lands (hp : Placed hole slots key home) {i j : ZMod n} {x : α}
    (hi : slots i = some x) (hl : Lands (Halts slots key (key x)) (home (key x)) j) :
    j = i ∨ hole j ∧ slots j = none := by
  obtain ⟨d, -, hj, hhalt, hpass⟩ := hl
  obtain ⟨d', hd', hpath⟩ := hp.reach hi
  cases hslot : slots j with
  | some y => exact .inl (hp.unique hslot hi (hhalt y hslot))
  | none =>
    rcases lt_trichotomy d d' with hlt | heq | hgt
    · rcases hpath d hlt with ⟨y, hy⟩ | hhole
      · rw [← hj, hslot] at hy
        cases hy
      · rw [← hj] at hhole
        exact .inr ⟨hhole, rfl⟩
    · subst heq
      exact .inl (hj.trans hd'.symm)
    · -- the item itself would have stopped the search
      have hstop : Halts slots key (key x) (home (key x) + d') := by
        rw [← hd']
        exact (halts_iff hi).mpr rfl
      exact absurd hstop (hpass d' hgt)

/-- The search for a key that is not stored ends at an empty slot. -/
theorem empty_of_lands {k : κ} {h j : ZMod n} (hk : ∀ i x, slots i = some x → key x ≠ k)
    (hl : Lands (Halts slots key k) h j) : slots j = none := by
  cases hslot : slots j with
  | none => rfl
  | some y => exact absurd (hl.holds y hslot) (hk j y hslot)

/-- An item is put where the search for its key ended. -/
theorem Placed.insert (hp : Placed hole slots key home) {x : α} {i : ZMod n}
    (hk : ∀ j y, slots j = some y → key y ≠ key x)
    (hl : Lands (Halts slots key (key x)) (home (key x)) i) :
    Placed hole (Function.update slots i (some x)) key home := by
  have hempty : slots i = none := empty_of_lands hk hl
  have hgrow : ∀ j, (∃ y, slots j = some y) →
      ∃ y, Function.update slots i (some x) j = some y := by
    rintro j ⟨y, hy⟩
    have hji : j ≠ i := by
      rintro rfl
      rw [hempty] at hy
      cases hy
    exact ⟨y, by rw [Function.update_of_ne hji]; exact hy⟩
  constructor
  · intro a b y z ha hb hkey
    by_cases hai : a = i <;> by_cases hbi : b = i
    · rw [hai, hbi]
    · subst hai
      rw [Function.update_self] at ha
      rw [Function.update_of_ne hbi] at hb
      cases ha
      exact absurd hkey.symm (hk b z hb)
    · subst hbi
      rw [Function.update_self] at hb
      rw [Function.update_of_ne hai] at ha
      cases hb
      exact absurd hkey (hk a y ha)
    · rw [Function.update_of_ne hai] at ha
      rw [Function.update_of_ne hbi] at hb
      exact hp.unique ha hb hkey
  · intro a y ha
    by_cases hai : a = i
    · subst hai
      rw [Function.update_self] at ha
      cases ha
      exact hl.reaches.mono fun j hj => .inl (hgrow j hj)
    · rw [Function.update_of_ne hai] at ha
      apply (hp.reach ha).mono
      rintro j (hj | hj)
      · exact .inl (hgrow j hj)
      · exact .inr hj

/-- Taking an item out leaves a gap in its place. -/
theorem Placed.erase (hp : Placed (fun _ => False) slots key home) (o : ZMod n) :
    Gap o 0 (Function.update slots o none) key home := by
  have hkept : ∀ {i x}, Function.update slots o none i = some x → slots i = some x := by
    intro i x hi
    by_cases hio : i = o
    · subst hio
      rw [Function.update_self] at hi
      cases hi
    · rwa [Function.update_of_ne hio] at hi
  refine ⟨⟨fun hi hj hkey => hp.unique (hkept hi) (hkept hj) hkey, fun hi => ?_⟩,
    Function.update_self .., fun j hj hjc => by omega⟩
  apply (hp.reach (hkept hi)).mono
  rintro j (⟨y, hy⟩ | hj)
  · by_cases hjo : j = o
    · exact .inr hjo
    · exact .inl ⟨y, by rw [Function.update_of_ne hjo]; exact hy⟩
  · exact hj.elim

/-- A slot that the search for its own item finds joins the settled ones. -/
theorem Gap.keep (hg : Gap o c slots key home) {x : α}
    (hx : slots (o + (c + 1 : ℕ)) = some x)
    (hl : Lands (Halts slots key (key x)) (home (key x)) (o + (c + 1 : ℕ))) :
    Gap o (c + 1) slots key home := by
  refine ⟨hg.toPlaced, hg.empty, fun j hj hjc => ?_⟩
  rcases Nat.lt_or_eq_of_le hjc with hlt | rfl
  · exact hg.settled j hj (by omega)
  · exact ⟨x, hx, hl.reaches⟩

/-- The two writes that move an item into an empty slot exchange the two slots. -/
theorem update_update_eq_swap {i o : ZMod n} {x : α} (ho : slots o = none)
    (hi : slots i = some x) :
    Function.update (Function.update slots i none) o (some x) = slots ∘ Equiv.swap o i := by
  funext j
  rw [Function.comp_apply]
  by_cases hjo : j = o
  · subst hjo
    rw [Function.update_self, Equiv.swap_apply_left, hi]
  · rw [Function.update_of_ne hjo]
    by_cases hji : j = i
    · subst hji
      rw [Function.update_self, Equiv.swap_apply_right, ho]
    · rw [Function.update_of_ne hji, Equiv.swap_apply_of_ne_of_ne hjo hji]

/-- An item whose search ends in the hole moves there and leaves the hole behind it. -/
theorem Gap.move (hg : Gap o c slots key home) {i : ZMod n} {x : α} (hx : slots i = some x)
    (hl : Lands (Halts slots key (key x)) (home (key x)) o) :
    Gap i 0 (Function.update (Function.update slots i none) o (some x)) key home := by
  have hio : i ≠ o := by
    rintro rfl
    rw [hg.empty] at hx
    cases hx
  have hocc : ∀ j, (∃ y, slots j = some y) ∨ j = o →
      (∃ y, Function.update (Function.update slots i none) o (some x) j = some y) ∨
        j = i := by
    intro j hj
    by_cases hjo : j = o
    · subst hjo
      exact .inl ⟨x, Function.update_self ..⟩
    · by_cases hji : j = i
      · exact .inr hji
      · rw [Function.update_of_ne hjo, Function.update_of_ne hji]
        exact .inl (hj.resolve_right hjo)
  refine ⟨⟨?_, ?_⟩, ?_, fun j hj hjc => by omega⟩
  · intro a b y z ha hb hkey
    rw [update_update_eq_swap hg.empty hx] at ha hb
    exact (Equiv.swap o i).injective (hg.unique ha hb hkey)
  · intro a y ha
    by_cases hao : a = o
    · subst hao
      rw [Function.update_self] at ha
      cases ha
      exact hl.reaches.mono fun j hj => hocc j (.inl hj)
    · rw [Function.update_of_ne hao] at ha
      by_cases hai : a = i
      · subst hai
        rw [Function.update_self] at ha
        cases ha
      · rw [Function.update_of_ne hai] at ha
        exact (hg.reach ha).mono hocc
  · rw [Function.update_of_ne hio, Function.update_self]

/-- Once the settled slots end at an empty one, no item needs the hole. -/
theorem Gap.close (hg : Gap o c slots key home) (hend : slots (o + (c + 1 : ℕ)) = none) :
    Placed (fun _ => False) slots key home := by
  -- an item `m + 1` slots behind the hole, over filled slots and the hole, is settled
  have hbehind : ∀ (m : ℕ) (x : α), slots (o + (m + 1 : ℕ)) = some x →
      (∀ e ≤ m, (∃ y, slots (o + e) = some y) ∨ o + e = o) →
      Reaches (fun j => ∃ y, slots j = some y) (home (key x)) (o + (m + 1 : ℕ)) := by
    intro m
    induction m using Nat.strong_induction_on with
    | _ m ih =>
      intro x hx hpath
      by_cases hmc : m + 1 ≤ c
      · obtain ⟨y, hy, hreach⟩ := hg.settled (m + 1) (by omega) hmc
        rw [hx] at hy
        cases hy
        exact hreach
      · have hne : m ≠ c := by
          rintro rfl
          rw [hend] at hx
          cases hx
        rcases hpath (c + 1) (by omega) with ⟨y, hy⟩ | hwrap
        · rw [hend] at hy
          cases hy
        · -- the way went once round the ring: begin again at the hole
          have hshift : ∀ e : ℕ, o + ((c + 1 + e : ℕ) : ZMod n) = o + (e : ℕ) := by
            intro e
            rw [Nat.cast_add, ← add_assoc, hwrap]
          have hm : m + 1 = c + 1 + (m - c - 1 + 1) := by omega
          rw [hm, hshift] at hx ⊢
          apply ih (m - c - 1) (by omega) x hx
          intro e he
          rw [← hshift e]
          exact hpath (c + 1 + e) (by omega)
  refine ⟨hg.unique, fun {i x} hi => ?_⟩
  obtain ⟨d, rfl, hpath⟩ := hg.reach hi
  by_cases hcross : ∃ e < d, home (key x) + (e : ℕ) = o
  · obtain ⟨e, hed, he⟩ := hcross
    have hshift : ∀ j : ℕ, home (key x) + ((e + j : ℕ) : ZMod n) = o + (j : ℕ) := by
      intro j
      rw [Nat.cast_add, ← add_assoc, he]
    have hd : d = e + (d - e - 1 + 1) := by omega
    rw [hd, hshift] at hi ⊢
    apply (hbehind (d - e - 1) x hi _).mono
    · exact fun j hj => .inl hj
    · intro j hj
      rw [← hshift j]
      exact hpath (e + j) (by omega)
  · push Not at hcross
    exact ⟨d, rfl, fun e he => .inl ((hpath e he).resolve_right (hcross e he))⟩

/-- A table with more slots than items has an empty slot outside `s`. -/
theorem exists_empty [NeZero n] {items : List α} (s : Finset (ZMod n))
    (hinj : ∀ {i j x}, slots i = some x → slots j = some x → i = j)
    (hmem : ∀ {i x}, slots i = some x → x ∈ items)
    (hlt : items.length + s.card < n) : ∃ i ∉ s, slots i = none := by
  classical
  by_contra hfull
  push Not at hfull
  have hfill : ∀ i : ZMod n, i ∉ s → ∃ x, slots i = some x :=
    fun i hi => Option.ne_none_iff_exists'.mp (hfull i hi)
  have hsub : (Finset.univ \ s).card ≤ (items.toFinset.image some).card := by
    apply Finset.card_le_card_of_injOn slots
    · intro i hi
      obtain ⟨x, hx⟩ := hfill i (Finset.mem_sdiff.mp hi).2
      rw [hx]
      exact Finset.mem_coe.mpr
        (Finset.mem_image_of_mem some (List.mem_toFinset.mpr (hmem hx)))
    · intro i hi j _ hij
      obtain ⟨x, hx⟩ := hfill i (Finset.mem_sdiff.mp hi).2
      exact hinj hx (hij ▸ hx)
  have hitems : (items.toFinset.image some).card ≤ items.length :=
    Finset.card_image_le.trans (List.toFinset_card_le items)
  have hring : (Finset.univ : Finset (ZMod n)).card = n := by
    rw [Finset.card_univ, ZMod.card]
  have hle : (Finset.univ : Finset (ZMod n)).card - s.card ≤ (Finset.univ \ s).card :=
    Finset.le_card_sdiff _ _
  omega

end PoopWorms.Probing
