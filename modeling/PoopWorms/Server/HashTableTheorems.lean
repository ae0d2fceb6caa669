import PoopWorms.Lib.Probing
import PoopWorms.Server.HashTable
import Mathlib.Data.List.Nodup
import Mathlib.Tactic.Ring

/-!
# The server's hash tables are finite maps

A table of `2 ^ k` items keeps `Probing.Placed` over its `2 ^ (k + 1)` slots, so that a
search ends at the item it is for or at an empty slot, and each operation does what the
same operation does on the list of the stored items.
-/

namespace PoopWorms.Server

open Octets Probing

/-! ## Keys of words -/

theorem str4eq_self : ∀ {as : List Word}, IsStr4 as → str4eq as as = true
  | [a], h => by simp [str4eq, show a &&& kLASTCHAR = 0 from h]
  | a :: b :: as, h => by
    rw [str4eq, if_neg (by simp), if_neg h.1]
    exact str4eq_self h.2

/-- Two padded strings that `str4eq` does not tell apart have the same words. -/
theorem eq_of_str4eq : ∀ {as bs : List Word}, IsStr4 as → IsStr4 bs →
    str4eq as bs = true → as = bs
  | a :: as, b :: bs, ha, hb, h => by
    rw [str4eq] at h
    split at h
    · cases h
    · rename_i hab
      rw [not_not] at hab
      subst hab
      split at h
      · -- both strings end with this word
        rename_i hlast
        have hend : ∀ {cs : List Word}, IsStr4 (a :: cs) → cs = [] := by
          intro cs hcs
          cases cs with
          | nil => rfl
          | cons c cs => exact absurd hlast hcs.1
        rw [hend ha, hend hb]
      · rename_i hmore
        have htail : ∀ {cs : List Word}, IsStr4 (a :: cs) → IsStr4 cs := by
          intro cs hcs
          cases cs with
          | nil => exact absurd hcs hmore
          | cons c cs => exact hcs.2
        rw [eq_of_str4eq (htail ha) (htail hb) h]

/-- `str4eq` compares padded strings for equality. -/
instance : LawfulBEq Str4 where
  rfl {a} := str4eq_self a.ended
  eq_of_beq {a b} h := by
    obtain ⟨as, ha⟩ := a
    obtain ⟨bs, hb⟩ := b
    have hwords : as = bs := eq_of_str4eq ha hb h
    subst hwords
    rfl

/-! ## Searching -/

namespace HashTable

variable {T K : Type} {GetKey : T → K} {Hash : K → Word} {k fuel : ℕ}
  {t : HashTable T} {items : List T}

/-- The slots of a table of `2 ^ (k + 1)` slots as a ring. -/
def slots (t : HashTable T) (k : ℕ) (i : ZMod (2 ^ (k + 1))) : Option T := t.mItems i.val

/-- The slot at which the search for a key begins. -/
def home (Hash : K → Word) (k : ℕ) (inKey : K) : ZMod (2 ^ (k + 1)) := (Hash inKey).toNat

/-- A table made for `2 ^ k` items. -/
structure Sized (t : HashTable T) (k : ℕ) : Prop where
  max : t.mMaxItems = 2 ^ k
  size : t.mTableSize = 2 ^ (k + 1)
  mask : t.mHashMask = 2 ^ (k + 1) - 1

theorem sized_new (k : ℕ) : (new (2 ^ k) : HashTable T).Sized k where
  max := rfl
  size := by
    show 2 ^ k <<< 1 = 2 ^ (k + 1)
    rw [Nat.shiftLeft_eq, pow_one, pow_succ]
  mask := by
    show 2 ^ k <<< 1 - 1 = 2 ^ (k + 1) - 1
    rw [Nat.shiftLeft_eq, pow_one, pow_succ]

theorem Sized.and_mask (hs : t.Sized k) (i : ℕ) : i &&& t.mHashMask = i % 2 ^ (k + 1) := by
  rw [hs.mask, Nat.and_two_pow_sub_one_eq_mod]

theorem Sized.cast_and (hs : t.Sized k) (i : ℕ) :
    ((i &&& t.mHashMask : ℕ) : ZMod (2 ^ (k + 1))) = i := by
  rw [hs.and_mask, ZMod.natCast_mod]

theorem Sized.and_lt (hs : t.Sized k) (i : ℕ) : i &&& t.mHashMask < 2 ^ (k + 1) := by
  rw [hs.and_mask]
  exact Nat.mod_lt _ (Nat.two_pow_pos _)

theorem slots_cast {i : ℕ} (hi : i < 2 ^ (k + 1)) : t.slots k i = t.mItems i := by
  show t.mItems (i : ZMod (2 ^ (k + 1))).val = t.mItems i
  rw [ZMod.val_cast_of_lt hi]

theorem slots_setItem {i : ℕ} (hi : i < 2 ^ (k + 1)) (item : Option T) :
    (t.setItem i item).slots k = Function.update (t.slots k) i item := by
  funext j
  show Function.update t.mItems i item j.val = _
  by_cases hj : j = i
  · subst hj
    rw [ZMod.val_cast_of_lt hi, Function.update_self, Function.update_self]
  · have hval : j.val ≠ i := by
      rintro rfl
      exact hj (ZMod.natCast_zmod_val j).symm
    rw [Function.update_of_ne hval, Function.update_of_ne hj]
    rfl

section Search

variable [BEq K] [LawfulBEq K]

/-- The loop of `IndexFor` ends where the search lands. -/
theorem indexFrom_eq (hs : t.Sized k) {inKey : K} {index : ℕ} (hindex : index < 2 ^ (k + 1))
    {d : ℕ} (hd : d < fuel)
    (hhalt : Halts (t.slots k) GetKey inKey ((index : ZMod (2 ^ (k + 1))) + d))
    (hpass : ∀ e < d, ¬ Halts (t.slots k) GetKey inKey ((index : ZMod (2 ^ (k + 1))) + e)) :
    ∃ j : ℕ, j < 2 ^ (k + 1) ∧ (j : ZMod (2 ^ (k + 1))) = index + d ∧
      t.indexFrom GetKey Hash (Hash inKey) inKey fuel index = some j := by
  induction d generalizing fuel index with
  | zero =>
    obtain ⟨fuel, rfl⟩ : ∃ f, fuel = f + 1 := ⟨fuel - 1, by omega⟩
    refine ⟨index, hindex, by simp, ?_⟩
    rw [Nat.cast_zero, add_zero] at hhalt
    rw [indexFrom]
    cases hitem : t.mItems index with
    | none => rfl
    | some item =>
      have hkey : GetKey item = inKey := hhalt item (by rw [slots_cast hindex, hitem])
      subst hkey
      simp
  | succ d ih =>
    obtain ⟨fuel, rfl⟩ : ∃ f, fuel = f + 1 := ⟨fuel - 1, by omega⟩
    have hfirst := hpass 0 (by omega)
    rw [Nat.cast_zero, add_zero] at hfirst
    -- the slot is filled with an item of another key
    obtain ⟨item, hitem, hkey⟩ : ∃ item, t.mItems index = some item ∧ GetKey item ≠ inKey := by
      unfold Halts at hfirst
      push Not at hfirst
      obtain ⟨item, hitem, hkey⟩ := hfirst
      rw [slots_cast hindex] at hitem
      exact ⟨item, hitem, hkey⟩
    have hshift : ∀ e : ℕ, ((index + 1 &&& t.mHashMask : ℕ) : ZMod (2 ^ (k + 1))) + e =
        index + ((e + 1 : ℕ) : ZMod (2 ^ (k + 1))) := by
      intro e
      rw [hs.cast_and, Nat.cast_add, Nat.cast_add, Nat.cast_one]
      ring
    obtain ⟨j, hj, hjd, heq⟩ := ih (hs.and_lt (index + 1)) (show d < fuel by omega)
      (by rw [hshift]; exact hhalt)
      (fun e he => by rw [hshift]; exact hpass (e + 1) (by omega))
    refine ⟨j, hj, by rw [hjd, hshift], ?_⟩
    rw [indexFrom, hitem]
    have hne : ¬ (Hash (GetKey item) = Hash inKey ∧ (inKey == GetKey item) = true) := by
      rintro ⟨-, h⟩
      exact hkey (eq_of_beq h).symm
    show (if _ then _ else _) = _
    rw [if_neg hne]
    exact heq

/-- `IndexFor` ends where the search for the key lands. -/
theorem indexFor_eq (hs : t.Sized k) (hfuel : 2 ^ (k + 1) ≤ fuel) {inKey : K}
    {i : ZMod (2 ^ (k + 1))} (hl : Lands (Halts (t.slots k) GetKey inKey) (home Hash k inKey) i) :
    t.indexFor GetKey Hash fuel (Hash inKey) inKey = some i.val := by
  obtain ⟨d, hd, rfl, hhalt, hpass⟩ := hl
  have hhome : home Hash k inKey = ((Hash inKey).toNat &&& t.mHashMask : ℕ) :=
    (hs.cast_and _).symm
  rw [hhome] at hhalt hpass ⊢
  obtain ⟨j, hj, hjd, heq⟩ := (indexFrom_eq hs (hs.and_lt _)
    (show d < fuel by omega) hhalt hpass :
      ∃ j, _ ∧ _ ∧ t.indexFrom GetKey Hash _ _ _ _ = _)
  rw [indexFor, heq, ← hjd, ZMod.val_cast_of_lt hj]

end Search

/-! ## The invariant -/

/-- The table stores `items`. -/
structure Stores (t : HashTable T) (GetKey : T → K) (Hash : K → Word) (k : ℕ)
    (items : List T) : Prop where
  sized : t.Sized k
  placed : Placed (fun _ => False) (t.slots k) GetKey (home Hash k)
  mem_iff : ∀ item, item ∈ items ↔ ∃ i, t.slots k i = some item
  nodup : items.Nodup
  count : t.mNumItems = items.length
  bound : items.length ≤ 2 ^ k

theorem stores_new : (new (2 ^ k) : HashTable T).Stores GetKey Hash k [] where
  sized := sized_new k
  placed := by
    constructor
    · intro i j x y hi
      cases hi
    · intro i x hi
      cases hi
  mem_iff item := by
    constructor
    · intro h
      cases h
    · rintro ⟨i, hi⟩
      cases hi
  nodup := List.nodup_nil
  count := rfl
  bound := Nat.zero_le _

namespace Stores

variable (h : t.Stores GetKey Hash k items)

include h

/-- Keys are unique among the stored items. -/
theorem key_unique {x y : T} (hx : x ∈ items) (hy : y ∈ items) (hkey : GetKey x = GetKey y) :
    x = y := by
  obtain ⟨i, hi⟩ := (h.mem_iff x).mp hx
  obtain ⟨j, hj⟩ := (h.mem_iff y).mp hy
  have hij := h.placed.unique hi hj hkey
  subst hij
  exact Option.some_injective _ (hi.symm.trans hj)

theorem exists_empty : ∃ i, t.slots k i = none := by
  have hpow : 2 ^ (k + 1) = 2 * 2 ^ k := pow_succ' 2 k
  have hpos : 0 < 2 ^ k := Nat.two_pow_pos k
  have hbound := h.bound
  have hmem : ∀ {i x}, t.slots k i = some x → x ∈ items := fun hi => (h.mem_iff _).mpr ⟨_, hi⟩
  obtain ⟨i, -, hi⟩ := Probing.exists_empty ∅ (fun hi hj => h.placed.unique hi hj rfl) hmem
    (by rw [Finset.card_empty]; omega)
  exact ⟨i, hi⟩

variable [BEq K] [LawfulBEq K]

/-- The search for a stored key ends at the item of that key. -/
theorem indexFor_mem (hfuel : 2 ^ (k + 1) ≤ fuel) {x : T} (hx : x ∈ items) :
    ∃ i : ZMod (2 ^ (k + 1)), t.slots k i = some x ∧
      t.indexFor GetKey Hash fuel (Hash (GetKey x)) (GetKey x) = some i.val := by
  obtain ⟨i, hi⟩ := (h.mem_iff x).mp hx
  obtain ⟨j, hl⟩ := exists_lands ⟨i, (halts_iff hi).mpr rfl⟩ (home Hash k (GetKey x))
  have hji : j = i := (h.placed.lands hi hl).resolve_right fun hne => hne.1
  subst hji
  exact ⟨j, hi, indexFor_eq h.sized hfuel hl⟩

/-- The search for a key that is not stored ends at an empty slot. -/
theorem indexFor_not_mem (hfuel : 2 ^ (k + 1) ≤ fuel) {inKey : K}
    (hkey : ∀ x ∈ items, GetKey x ≠ inKey) :
    ∃ i, Lands (Halts (t.slots k) GetKey inKey) (home Hash k inKey) i ∧
      t.slots k i = none ∧ t.indexFor GetKey Hash fuel (Hash inKey) inKey = some i.val := by
  obtain ⟨e, he⟩ := h.exists_empty
  obtain ⟨i, hl⟩ := exists_lands ⟨e, halts_of_empty he⟩ (home Hash k inKey)
  refine ⟨i, hl, ?_, indexFor_eq h.sized hfuel hl⟩
  apply empty_of_lands _ hl
  intro j x hj
  exact hkey x ((h.mem_iff x).mpr ⟨j, hj⟩)

/-! ## The operations -/

/-- `Get` finds the stored item of a key. -/
theorem get_mem (hfuel : 2 ^ (k + 1) ≤ fuel) {x : T} (hx : x ∈ items) :
    t.get GetKey Hash fuel (GetKey x) = some (some x) := by
  obtain ⟨i, hi, hindex⟩ := h.indexFor_mem hfuel hx
  rw [get, hindex]
  show some (t.slots k i) = _
  rw [hi]

/-- `Get` finds nothing under a key that is not stored. -/
theorem get_not_mem (hfuel : 2 ^ (k + 1) ≤ fuel) {inKey : K}
    (hkey : ∀ x ∈ items, GetKey x ≠ inKey) : t.get GetKey Hash fuel inKey = some none := by
  obtain ⟨i, -, hi, hindex⟩ := h.indexFor_not_mem hfuel hkey
  rw [get, hindex]
  show some (t.slots k i) = _
  rw [hi]

section Update

variable [DecidableEq T]

omit [LawfulBEq K] in
theorem add_full (x : T) (hfull : 2 ^ k ≤ items.length) :
    t.add GetKey Hash fuel x = some (t, false) := by
  rw [add, if_pos (by rw [h.sized.max, h.count]; exact hfull)]

/-- Adding next to an item of the same key changes nothing. -/
theorem add_mem (hfuel : 2 ^ (k + 1) ≤ fuel) {x y : T} (hroom : items.length < 2 ^ k)
    (hy : y ∈ items) (hkey : GetKey y = GetKey x) :
    t.add GetKey Hash fuel x = some (t, decide (y = x)) := by
  obtain ⟨i, hi, hindex⟩ := h.indexFor_mem hfuel hy
  have hslot : t.mItems i.val = some y := hi
  rw [hkey] at hindex
  rw [add, if_neg (by rw [h.sized.max, h.count]; omega), hindex]
  simp only [Option.bind_eq_bind, Option.bind_some]
  rw [hslot]
  rfl

/-- A new key is put where its search ended. -/
theorem add_new (hfuel : 2 ^ (k + 1) ≤ fuel) {x : T} (hroom : items.length < 2 ^ k)
    (hkey : ∀ y ∈ items, GetKey y ≠ GetKey x) :
    ∃ t', t.add GetKey Hash fuel x = some (t', true) ∧
      t'.Stores GetKey Hash k (x :: items) := by
  obtain ⟨i, hl, hi, hindex⟩ := h.indexFor_not_mem hfuel hkey
  have hslot : t.mItems i.val = none := hi
  have hlt : i.val < 2 ^ (k + 1) := ZMod.val_lt i
  have hslots : (t.setItem i.val (some x)).slots k =
      Function.update (t.slots k) i (some x) := by
    rw [slots_setItem hlt, ZMod.natCast_zmod_val]
  have hnew : x ∉ items := fun hx => hkey x hx rfl
  refine ⟨{ t.setItem i.val (some x) with mNumItems := t.mNumItems + 1 }, ?_, ?_⟩
  · rw [add, if_neg (by rw [h.sized.max, h.count]; omega), hindex]
    simp only [Option.bind_eq_bind, Option.bind_some]
    rw [hslot]
    rfl
  · refine ⟨⟨h.sized.max, h.sized.size, h.sized.mask⟩, ?_, ?_, ?_, ?_, ?_⟩
    · show Placed _ ((t.setItem i.val (some x)).slots k) GetKey (home Hash k)
      rw [hslots]
      apply h.placed.insert _ hl
      intro j y hj
      exact hkey y ((h.mem_iff y).mpr ⟨j, hj⟩)
    · intro y
      show _ ↔ ∃ j, (t.setItem i.val (some x)).slots k j = some y
      rw [hslots, List.mem_cons, h.mem_iff y]
      constructor
      · rintro (rfl | ⟨j, hj⟩)
        · exact ⟨i, Function.update_self ..⟩
        · have hji : j ≠ i := by
            rintro rfl
            rw [hi] at hj
            cases hj
          exact ⟨j, by rw [Function.update_of_ne hji]; exact hj⟩
      · rintro ⟨j, hj⟩
        by_cases hji : j = i
        · subst hji
          rw [Function.update_self] at hj
          cases hj
          exact .inl rfl
        · rw [Function.update_of_ne hji] at hj
          exact .inr ⟨j, hj⟩
    · exact List.nodup_cons.mpr ⟨hnew, h.nodup⟩
    · show t.mNumItems + 1 = items.length + 1
      rw [h.count]
    · show items.length + 1 ≤ 2 ^ k
      omega

end Update

end Stores

/-! ## Closing the gap behind a removed item -/

section Fix

variable [BEq K] [LawfulBEq K]

/-- `FixCollisionsFrom` ends at the next empty slot `z`, with every item in reach again. -/
theorem fixCollisionsFrom_eq (hfuel : 2 ^ (k + 1) ≤ fuel) {o z : ZMod (2 ^ (k + 1))}
    {c m index rounds : ℕ} (hs : t.Sized k) (hg : Gap o c (t.slots k) GetKey (home Hash k))
    (hindex : (index : ZMod (2 ^ (k + 1))) = o + c) (hz : t.slots k z = none) (hzo : z ≠ o)
    (hm : z = o + (c + 1 + m : ℕ)) (hrounds : m < rounds) :
    ∃ t', fixCollisionsFrom GetKey Hash fuel rounds t index = some t' ∧ t'.Sized k ∧
      Placed (fun _ => False) (t'.slots k) GetKey (home Hash k) ∧
      (∀ x, (∃ i, t'.slots k i = some x) ↔ ∃ i, t.slots k i = some x) ∧
      t'.mNumItems = t.mNumItems := by
  induction rounds generalizing t o c m index with
  | zero => omega
  | succ rounds ih =>
    have hold : ((index + 1 &&& t.mHashMask : ℕ) : ZMod (2 ^ (k + 1))) = o + (c + 1 : ℕ) := by
      rw [hs.cast_and, Nat.cast_add, hindex, Nat.cast_add, Nat.cast_one, add_assoc]
    have hlt : index + 1 &&& t.mHashMask < 2 ^ (k + 1) := hs.and_lt _
    rw [fixCollisionsFrom]
    generalize index + 1 &&& t.mHashMask = oldIndex at hold hlt ⊢
    have hslot : t.mItems oldIndex = t.slots k (o + (c + 1 : ℕ)) := by
      rw [← slots_cast hlt, hold]
    cases hitem : t.mItems oldIndex with
    | none =>
      exact ⟨t, rfl, hs, hg.close (hslot.symm.trans hitem), fun x => Iff.rfl, rfl⟩
    | some x =>
      have hx : t.slots k (o + (c + 1 : ℕ)) = some x := hslot.symm.trans hitem
      -- the empty slot that ends the loop is further on
      obtain ⟨m, rfl⟩ : ∃ m', m = m' + 1 := by
        rcases m with _ | m
        · rw [add_zero] at hm
          rw [hm, hx] at hz
          cases hz
        · exact ⟨m, rfl⟩
      obtain ⟨j, hl⟩ := exists_lands ⟨o, halts_of_empty hg.empty⟩ (home Hash k (GetKey x))
      show ∃ t', (t.indexFor GetKey Hash fuel (Hash (GetKey x)) (GetKey x) >>= fun newIndex =>
        if oldIndex ≠ newIndex then _ else _) = some t' ∧ _
      rw [indexFor_eq hs hfuel hl]
      rcases hg.lands hx hl with hj | ⟨hj, -⟩
      · -- the item stays where it is
        have hsame : oldIndex = j.val := by
          rw [hj, ← hold, ZMod.val_cast_of_lt hlt]
        rw [hj] at hl
        show ∃ t', (if oldIndex ≠ j.val then _ else _) = some t' ∧ _
        rw [if_neg (not_not.mpr hsame)]
        exact ih hs (hg.keep hx hl) hold hz hzo
          (by rw [hm, show c + 1 + 1 + m = c + 1 + (m + 1) by omega]) (by omega)
      · -- the item moves into the hole
        have hne : oldIndex ≠ o.val := by
          rintro rfl
          rw [ZMod.natCast_zmod_val] at hold
          rw [← hold, hg.empty] at hx
          cases hx
        rw [hj] at hl ⊢
        show ∃ t', (if oldIndex ≠ o.val then _ else _) = some t' ∧ _
        rw [if_pos hne, show t.mItems o.val = none from hg.empty]
        have hslots : ((t.setItem oldIndex none).setItem o.val (some x)).slots k =
            Function.update (Function.update (t.slots k) (o + (c + 1 : ℕ)) none) o (some x) := by
          rw [slots_setItem (ZMod.val_lt o), slots_setItem hlt, hold, ZMod.natCast_zmod_val]
        have hswap := update_update_eq_swap hg.empty hx
        have hzx : z ≠ o + (c + 1 : ℕ) := by
          rintro rfl
          rw [hx] at hz
          cases hz
        obtain ⟨t', heq, hs', hp', hmem', hnum'⟩ := ih
          (t := (t.setItem oldIndex none).setItem o.val (some x)) (m := m)
          ⟨hs.max, hs.size, hs.mask⟩ (by rw [hslots]; exact hg.move hx hl)
          (by rw [hold, Nat.cast_zero, add_zero])
          (by rw [hslots, Function.update_of_ne hzo, Function.update_of_ne hzx]; exact hz) hzx
          (by rw [hm]; push_cast; ring) (by omega)
        refine ⟨t', heq, hs', hp', fun y => ?_, hnum'⟩
        rw [hmem' y, hslots, hswap]
        constructor
        · rintro ⟨i, hi⟩
          exact ⟨_, hi⟩
        · rintro ⟨i, hi⟩
          refine ⟨Equiv.swap o (o + (c + 1 : ℕ)) i, ?_⟩
          rw [Function.comp_apply, Equiv.swap_apply_self]
          exact hi

end Fix

namespace Stores

variable [BEq K] [LawfulBEq K] [DecidableEq T] (h : t.Stores GetKey Hash k items)

include h

/-- Removing a stored item takes it out of the map and leaves the others in reach. -/
theorem remove_mem (hfuel : 2 ^ (k + 1) ≤ fuel) {x : T} (hx : x ∈ items) :
    ∃ t', t.remove GetKey Hash fuel x = some (t', true) ∧
      t'.Stores GetKey Hash k (items.erase x) := by
  obtain ⟨o, ho, hindex⟩ := h.indexFor_mem hfuel hx
  have hslots : (t.setItem o.val none).slots k = Function.update (t.slots k) o none := by
    rw [slots_setItem (ZMod.val_lt o), ZMod.natCast_zmod_val]
  have hg : Gap o 0 ((t.setItem o.val none).slots k) GetKey (home Hash k) := by
    rw [hslots]
    exact h.placed.erase o
  have hlen : (items.erase x).length = items.length - 1 := List.length_erase_of_mem hx
  have hpos : 0 < items.length := List.length_pos_of_mem hx
  -- what is left in the slots is what is left in the list
  have hleft : ∀ y, y ∈ items.erase x ↔ ∃ i, (t.setItem o.val none).slots k i = some y := by
    intro y
    rw [h.nodup.mem_erase_iff, h.mem_iff y, hslots]
    constructor
    · rintro ⟨hne, i, hi⟩
      have hio : i ≠ o := by
        rintro rfl
        rw [ho] at hi
        cases hi
        exact hne rfl
      exact ⟨i, by rw [Function.update_of_ne hio]; exact hi⟩
    · rintro ⟨i, hi⟩
      by_cases hio : i = o
      · subst hio
        rw [Function.update_self] at hi
        cases hi
      · rw [Function.update_of_ne hio] at hi
        refine ⟨?_, i, hi⟩
        rintro rfl
        exact hio (h.placed.unique hi ho rfl)
  obtain ⟨z, hzo, hz⟩ : ∃ z ∉ ({o} : Finset _), (t.setItem o.val none).slots k z = none := by
    have hpow : 2 ^ (k + 1) = 2 * 2 ^ k := pow_succ' 2 k
    have hbound := h.bound
    have hmem : ∀ {i y}, (t.setItem o.val none).slots k i = some y → y ∈ items.erase x :=
      fun hi => (hleft _).mpr ⟨_, hi⟩
    apply Probing.exists_empty {o} (fun hi hj => hg.unique hi hj rfl) hmem
    rw [Finset.card_singleton]
    omega
  rw [Finset.mem_singleton] at hzo
  have hdist : 0 < (z - o).val :=
    Nat.pos_of_ne_zero ((ZMod.val_eq_zero (z - o)).not.mpr (sub_ne_zero.mpr hzo))
  have hlt : (z - o).val < 2 ^ (k + 1) := ZMod.val_lt _
  have hz' : z = o + (0 + 1 + ((z - o).val - 1) : ℕ) := by
    rw [show 0 + 1 + ((z - o).val - 1) = (z - o).val by omega, ZMod.natCast_zmod_val]
    ring
  obtain ⟨t', heq, hs', hp', hmem', hnum'⟩ := fixCollisionsFrom_eq (t := t.setItem o.val none)
    hfuel ⟨h.sized.max, h.sized.size, h.sized.mask⟩ hg
    (show (o.val : ZMod (2 ^ (k + 1))) = o + (0 : ℕ) by
      rw [ZMod.natCast_zmod_val, Nat.cast_zero, add_zero]) hz hzo hz'
    (show (z - o).val - 1 < fuel by omega)
  refine ⟨{ t' with mNumItems := t'.mNumItems - 1 }, ?_, ?_⟩
  · rw [remove, hindex]
    show (if t.mItems o.val ≠ some x then _ else _) = _
    rw [if_neg (show ¬ t.mItems o.val ≠ some x from not_not.mpr ho)]
    show (fixCollisionsFrom GetKey Hash fuel fuel (t.setItem o.val none) o.val >>= _) = _
    rw [heq]
    rfl
  · refine ⟨⟨hs'.max, hs'.size, hs'.mask⟩, hp', ?_, h.nodup.erase x, ?_, ?_⟩
    · intro y
      rw [hleft y]
      exact (hmem' y).symm
    · show t'.mNumItems - 1 = (items.erase x).length
      rw [hnum', hlen]
      show t.mNumItems - 1 = _
      rw [h.count]
    · have hbound := h.bound
      omega

/-- An item that is not stored is not removed, nor is another item of its key. -/
theorem remove_not_mem (hfuel : 2 ^ (k + 1) ≤ fuel) {x : T} (hx : x ∉ items) :
    t.remove GetKey Hash fuel x = some (t, false) := by
  by_cases hkey : ∃ y ∈ items, GetKey y = GetKey x
  · obtain ⟨y, hy, hkey⟩ := hkey
    obtain ⟨i, hi, hindex⟩ := h.indexFor_mem hfuel hy
    have hne : t.mItems i.val ≠ some x := by
      intro heq
      exact hx ((h.mem_iff x).mpr ⟨i, heq⟩)
    rw [hkey] at hindex
    rw [remove, hindex]
    show (if t.mItems i.val ≠ some x then _ else _) = _
    rw [if_pos hne]
    rfl
  · push Not at hkey
    obtain ⟨i, -, hi, hindex⟩ := h.indexFor_not_mem hfuel hkey
    have hne : t.mItems i.val ≠ some x := by
      rw [show t.mItems i.val = none from hi]
      exact nofun
    rw [remove, hindex]
    show (if t.mItems i.val ≠ some x then _ else _) = _
    rw [if_pos hne]
    rfl

theorem removeKey_mem (hfuel : 2 ^ (k + 1) ≤ fuel) {x : T} (hx : x ∈ items) :
    t.removeKey GetKey Hash fuel (GetKey x) = t.remove GetKey Hash fuel x := by
  rw [removeKey, h.get_mem hfuel hx]
  rfl

theorem removeKey_not_mem (hfuel : 2 ^ (k + 1) ≤ fuel) {inKey : K}
    (hkey : ∀ x ∈ items, GetKey x ≠ inKey) :
    t.removeKey GetKey Hash fuel inKey = some (t, false) := by
  rw [removeKey, h.get_not_mem hfuel hkey]
  rfl

/-! ## Refinement -/

variable [DecidableEq K]

omit [BEq K] [LawfulBEq K] in
/-- Taking a key out of the list takes out the one item of that key. -/
theorem erase_eq_filter {x : T} (hx : x ∈ items) :
    items.erase x = items.filter fun item => GetKey item ≠ GetKey x := by
  rw [h.nodup.erase_eq_filter]
  apply List.filter_congr
  intro y hy
  by_cases hyx : y = x
  · subst hyx
    simp
  · have hkey : GetKey y ≠ GetKey x := fun hkey => hyx (h.key_unique hy hx hkey)
    simp [hyx, hkey]

omit [BEq K] [LawfulBEq K] [DecidableEq T] in
theorem find?_mem {x : T} (hx : x ∈ items) :
    items.find? (fun item => GetKey item = GetKey x) = some x := by
  cases hfind : items.find? (fun item => GetKey item = GetKey x) with
  | none => simpa using List.find?_eq_none.mp hfind x hx
  | some y =>
    have hkey : GetKey y = GetKey x := by simpa using List.find?_some hfind
    rw [h.key_unique (List.mem_of_find?_eq_some hfind) hx hkey]

theorem call_add (hfuel : 2 ^ (k + 1) ≤ fuel) (x : T) :
    ∃ t', t.call GetKey Hash fuel (.add x) =
        some (t', (mapCall GetKey (2 ^ k) items (.add x)).2) ∧
      t'.Stores GetKey Hash k (mapCall GetKey (2 ^ k) items (.add x)).1 := by
  rw [HashTable.call, mapCall]
  by_cases hfull : 2 ^ k ≤ items.length
  · rw [if_pos (.inl hfull), h.add_full x hfull]
    exact ⟨t, rfl, h⟩
  · by_cases hother : ∃ y ∈ items, y ≠ x ∧ GetKey y = GetKey x
    · rw [if_pos (.inr hother)]
      obtain ⟨y, hy, hne, hkey⟩ := hother
      rw [h.add_mem hfuel (by omega) hy hkey, decide_eq_false hne]
      exact ⟨t, rfl, h⟩
    · rw [if_neg (show ¬ Refused GetKey (2 ^ k) items x from not_or.mpr ⟨hfull, hother⟩)]
      by_cases hx : x ∈ items
      · rw [h.add_mem hfuel (by omega) hx rfl, decide_eq_true rfl, List.insert_of_mem hx]
        exact ⟨t, rfl, h⟩
      · have hkey : ∀ y ∈ items, GetKey y ≠ GetKey x := by
          intro y hy hkey
          have hne : y ≠ x := ne_of_mem_of_not_mem hy hx
          exact hother ⟨y, hy, hne, hkey⟩
        obtain ⟨t', heq, ht'⟩ := h.add_new hfuel (by omega) hkey
        rw [heq, List.insert_of_not_mem hx]
        exact ⟨t', rfl, ht'⟩

theorem call_remove (hfuel : 2 ^ (k + 1) ≤ fuel) (x : T) :
    ∃ t', t.call GetKey Hash fuel (.remove x) =
        some (t', (mapCall GetKey (2 ^ k) items (.remove x)).2) ∧
      t'.Stores GetKey Hash k (mapCall GetKey (2 ^ k) items (.remove x)).1 := by
  rw [HashTable.call, mapCall]
  by_cases hx : x ∈ items
  · obtain ⟨t', heq, ht'⟩ := h.remove_mem hfuel hx
    rw [heq, decide_eq_true hx]
    exact ⟨t', rfl, ht'⟩
  · rw [h.remove_not_mem hfuel hx, decide_eq_false hx, List.erase_of_not_mem hx]
    exact ⟨t, rfl, h⟩

theorem call_removeKey (hfuel : 2 ^ (k + 1) ≤ fuel) (inKey : K) :
    ∃ t', t.call GetKey Hash fuel (.removeKey inKey) =
        some (t', (mapCall GetKey (2 ^ k) items (.removeKey inKey)).2) ∧
      t'.Stores GetKey Hash k (mapCall GetKey (2 ^ k) items (.removeKey inKey)).1 := by
  rw [HashTable.call, mapCall]
  by_cases hkey : ∃ x ∈ items, GetKey x = inKey
  · obtain ⟨x, hx, rfl⟩ := hkey
    obtain ⟨t', heq, ht'⟩ := h.remove_mem hfuel hx
    have hany : (items.any fun item => GetKey item = GetKey x) = true :=
      List.any_eq_true.mpr ⟨x, hx, by simp⟩
    rw [h.removeKey_mem hfuel hx, heq, hany, ← h.erase_eq_filter hx]
    exact ⟨t', rfl, ht'⟩
  · push Not at hkey
    have hany : (items.any fun item => GetKey item = inKey) = false := by
      simpa using hkey
    have hfilter : (items.filter fun item => GetKey item ≠ inKey) = items :=
      List.filter_eq_self.mpr fun x hx => by simpa using hkey x hx
    rw [h.removeKey_not_mem hfuel hkey, hany, hfilter]
    exact ⟨t, rfl, h⟩

theorem call_get (hfuel : 2 ^ (k + 1) ≤ fuel) (inKey : K) :
    ∃ t', t.call GetKey Hash fuel (.get inKey) =
        some (t', (mapCall GetKey (2 ^ k) items (.get inKey)).2) ∧
      t'.Stores GetKey Hash k (mapCall GetKey (2 ^ k) items (.get inKey)).1 := by
  rw [HashTable.call, mapCall]
  by_cases hkey : ∃ x ∈ items, GetKey x = inKey
  · obtain ⟨x, hx, rfl⟩ := hkey
    rw [h.get_mem hfuel hx, h.find?_mem hx]
    exact ⟨t, rfl, h⟩
  · push Not at hkey
    have hfind : (items.find? fun item => GetKey item = inKey) = none :=
      List.find?_eq_none.mpr fun x hx => by simpa using hkey x hx
    rw [h.get_not_mem hfuel hkey, hfind]
    exact ⟨t, rfl, h⟩

/-- One call on the table does what the same call does on the finite map. -/
theorem call (hfuel : 2 ^ (k + 1) ≤ fuel) (c : TableCall T K) :
    ∃ t', t.call GetKey Hash fuel c = some (t', (mapCall GetKey (2 ^ k) items c).2) ∧
      t'.Stores GetKey Hash k (mapCall GetKey (2 ^ k) items c).1 := by
  cases c with
  | add x => exact h.call_add hfuel x
  | remove x => exact h.call_remove hfuel x
  | removeKey inKey => exact h.call_removeKey hfuel inKey
  | get inKey => exact h.call_get hfuel inKey

/-- Calls on the table do what the same calls do on the finite map. -/
theorem calls (hfuel : 2 ^ (k + 1) ≤ fuel) (cs : List (TableCall T K)) :
    ∃ t', t.calls GetKey Hash fuel cs = some (t', (mapCalls GetKey (2 ^ k) items cs).2) ∧
      t'.Stores GetKey Hash k (mapCalls GetKey (2 ^ k) items cs).1 := by
  induction cs generalizing t items with
  | nil => exact ⟨t, rfl, h⟩
  | cons c cs ih =>
    obtain ⟨t₁, heq₁, h₁⟩ := h.call hfuel c
    obtain ⟨t₂, heq₂, h₂⟩ := ih h₁
    refine ⟨t₂, ?_, h₂⟩
    rw [HashTable.calls, heq₁]
    show (t₁.calls GetKey Hash fuel cs >>= _) = _
    rw [heq₂]
    rfl

end Stores

/-! ## The tables of the server -/

/-- An item is in one slot, which is reached from its home slot over filled slots. -/
def InOneSlot (t : HashTable T) (GetKey : T → K) (Hash : K → Word) (item : T) : Prop :=
  ∃ d : ℕ,
    (∀ i < t.mTableSize, t.mItems i = some item ↔
      i = ((Hash (GetKey item)).toNat + d) &&& t.mHashMask) ∧
    ∀ e < d, t.mItems (((Hash (GetKey item)).toNat + e) &&& t.mHashMask) ≠ none

/-- The slots hold the items of a list of distinct keys, each in one reachable slot, and
nothing else. -/
structure Holds (t : HashTable T) (GetKey : T → K) (Hash : K → Word) (items : List T) :
    Prop where
  keys : (items.map GetKey).Nodup
  count : t.mNumItems = items.length
  slot : ∀ item ∈ items, t.InOneSlot GetKey Hash item
  only : ∀ i < t.mTableSize, ∀ item, t.mItems i = some item → item ∈ items

theorem Stores.holds (h : t.Stores GetKey Hash k items) : t.Holds GetKey Hash items where
  keys := h.nodup.map_on fun x hx y hy => h.key_unique hx hy
  count := h.count
  slot x hx := by
    obtain ⟨i, hi⟩ := (h.mem_iff x).mp hx
    obtain ⟨d, hd, hpath⟩ := h.placed.reach hi
    have hmask : ∀ e : ℕ, (((Hash (GetKey x)).toNat + e) &&& t.mHashMask : ℕ) =
        (home Hash k (GetKey x) + e).val := by
      intro e
      rw [← ZMod.val_cast_of_lt (h.sized.and_lt ((Hash (GetKey x)).toNat + e)),
        h.sized.cast_and, Nat.cast_add]
      rfl
    refine ⟨d, fun j hj => ?_, fun e he => ?_⟩
    · rw [h.sized.size] at hj
      rw [hmask, ← hd, ← slots_cast hj]
      constructor
      · intro hxj
        rw [← h.placed.unique hxj hi rfl, ZMod.val_cast_of_lt hj]
      · rintro rfl
        rw [ZMod.natCast_zmod_val]
        exact hi
    · rcases hpath e he with ⟨y, hy⟩ | hnone
      · rw [hmask, show t.mItems (home Hash k (GetKey x) + e).val = some y from hy]
        exact nofun
      · exact hnone.elim
  only i hi x hx := by
    rw [h.sized.size] at hi
    exact (h.mem_iff x).mpr ⟨i, by rw [slots_cast hi]; exact hx⟩

end HashTable

/-- The tables of the node and definition library are finite maps: however the keys are
hashed, every sequence of calls on a new table gets the replies of the finite map, no probe
loop needs more rounds than the table has slots, and the stored items can all be reached. -/
theorem hashTables_are_finite_maps {T : Type} [DecidableEq T] (k : ℕ) :
    (∀ (GetKey : T → Word) (Hash : Word → Word) (cs : List (TableCall T Word)),
      ∀ fuel ≥ 2 ^ (k + 1), ∃ t : HashTable T,
        (HashTable.new (2 ^ k)).calls GetKey Hash fuel cs =
          some (t, (mapCalls GetKey (2 ^ k) [] cs).2) ∧
        t.Holds GetKey Hash (mapCalls GetKey (2 ^ k) [] cs).1) ∧
    (∀ (GetKey : T → Str4) (Hash : Str4 → Word) (cs : List (TableCall T Str4)),
      ∀ fuel ≥ 2 ^ (k + 1), ∃ t : HashTable T,
        (HashTable.new (2 ^ k)).calls GetKey Hash fuel cs =
          some (t, (mapCalls GetKey (2 ^ k) [] cs).2) ∧
        t.Holds GetKey Hash (mapCalls GetKey (2 ^ k) [] cs).1) := by
  constructor
  · intro GetKey Hash cs fuel hfuel
    obtain ⟨t, heq, ht⟩ := HashTable.stores_new.calls hfuel cs
    exact ⟨t, heq, ht.holds⟩
  · intro GetKey Hash cs fuel hfuel
    obtain ⟨t, heq, ht⟩ := HashTable.stores_new.calls hfuel cs
    exact ⟨t, heq, ht.holds⟩

/-- Two items of one home slot, of which the first is removed. -/
theorem hashTables_are_finite_maps_collision : ∃ t : HashTable Word,
    (HashTable.new (2 ^ 1)).calls id (fun _ => 3#32) 4
        [.add 1#32, .add 2#32, .add 5#32, .remove 1#32, .get 2#32, .get 1#32] =
      some (t, [.done true, .done true, .done false, .done true, .item (some 2#32),
        .item none]) ∧
    t.Holds id (fun _ => 3#32) [2#32] :=
  (hashTables_are_finite_maps 1).1 id (fun _ => 3#32)
    [.add 1#32, .add 2#32, .add 5#32, .remove 1#32, .get 2#32, .get 1#32] 4 (by decide)

end PoopWorms.Server
