import PoopWorms.Server.GrowingTable
import PoopWorms.Server.HashTableTheorems
import Mathlib.Tactic.IntervalCases

/-!
# Growth of the hash tables

A `HashTable` keeps its invariant when it resizes. In an `IntHashTable` the first old item
that is added again finds the table full and resizes it once more; it is counted a second
time, and so are all that follow.
-/

namespace PoopWorms.Server

open Octets Probing

/-- The same items in another order. -/
theorem HashTable.Stores.perm {T K : Type} {GetKey : T → K} {Hash : K → Word} {k : ℕ}
    {t : HashTable T} {items items' : List T} (h : t.Stores GetKey Hash k items)
    (hp : items.Perm items') : t.Stores GetKey Hash k items' where
  sized := h.sized
  placed := h.placed
  mem_iff item := by rw [← hp.mem_iff, h.mem_iff]
  nodup := hp.nodup h.nodup
  count := by rw [h.count, hp.length_eq]
  bound := hp.length_eq ▸ h.bound

namespace GrowingTable

variable {T K : Type} {GetKey : T → K} {Hash : K → Word} {Resize : Resizing T} {k k' fuel rounds depth i : ℕ}
  {t t' old : GrowingTable T} {items : List T} {x : T} {b : Bool}
  {Add : GrowingTable T → T → Option (GrowingTable T × Bool)} {bound : GrowingTable T → ℕ}

/-- The table stores `items`, in as many slots as were allocated. -/
structure Stores (t : GrowingTable T) (GetKey : T → K) (Hash : K → Word) (k : ℕ)
    (items : List T) : Prop extends t.toHashTable.Stores GetKey Hash k items where
  allocated : t.allocated = 2 ^ (k + 1)

/-! ## A turn of the loop -/

theorem reAdd_stop (hi : ¬ i < bound t) : reAdd Add old bound (rounds + 1) i t = some t :=
  if_neg hi

theorem reAdd_none (hi : i < bound t) (halloc : i < old.allocated) (hitem : old.mItems i = none) :
    reAdd Add old bound (rounds + 1) i t = reAdd Add old bound rounds (i + 1) t := by
  rw [reAdd, if_pos hi, if_neg (by omega), hitem]

theorem reAdd_some (hi : i < bound t) (halloc : i < old.allocated)
    (hitem : old.mItems i = some x) :
    reAdd Add old bound (rounds + 1) i t =
      (Add t x).bind fun r => reAdd Add old bound rounds (i + 1) r.1 := by
  rw [reAdd, if_pos hi, if_neg (by omega), hitem]
  rfl

/-- A turn that leads anywhere passes an empty slot, or adds an item. -/
theorem reAdd_cases (h : reAdd Add old bound (rounds + 1) i t = some t') :
    (¬ i < bound t ∧ t' = t) ∨
    (i < bound t ∧ old.mItems i = none ∧ reAdd Add old bound rounds (i + 1) t = some t') ∨
    ∃ x t₁ b, i < old.allocated ∧ old.mItems i = some x ∧ Add t x = some (t₁, b) ∧
      reAdd Add old bound rounds (i + 1) t₁ = some t' := by
  by_cases hi : i < bound t
  · by_cases halloc : i < old.allocated
    · cases hitem : old.mItems i with
      | none =>
        rw [reAdd_none hi halloc hitem] at h
        exact .inr (.inl ⟨hi, rfl, h⟩)
      | some x =>
        rw [reAdd_some hi halloc hitem, Option.bind_eq_some_iff] at h
        obtain ⟨⟨t₁, b⟩, hadd, hrest⟩ := h
        exact .inr (.inr ⟨x, t₁, b, halloc, rfl, hadd, hrest⟩)
    · rw [reAdd, if_pos hi, if_pos (by omega)] at h
      cases h
  · rw [reAdd_stop hi] at h
    exact .inl ⟨hi, (Option.some.inj h).symm⟩

/-! ## `HashTable` -/

theorem newSize_eq (hs : t.Sized k) (hk : k < 29) : t.newSize = 2 ^ (max (k + 1) 4 + 1) := by
  rw [newSize, hs.size]
  interval_cases k <;> decide

variable [BEq K] [DecidableEq T]

theorem add_succ : t.add Resize GetKey Hash fuel (depth + 1) x =
    (if t.mNumItems ≥ t.mMaxItems then Resize fuel (add Resize GetKey Hash fuel depth) t
      else some t).bind fun t => t.put GetKey Hash fuel x := by
  rw [add]
  split_ifs <;> rfl

/-- Where there is room, `Add` is the one of a table that cannot resize. -/
theorem add_room (hroom : t.mNumItems < t.mMaxItems) :
    t.add Resize GetKey Hash fuel (depth + 1) x =
      (t.toHashTable.add GetKey Hash fuel x).map fun r => ({ t with toHashTable := r.1 }, r.2) := by
  rw [add_succ, if_neg (by omega), HashTable.add, if_neg (by omega), Option.bind_some, put]
  cases t.indexFor GetKey Hash fuel (Hash (GetKey x)) (GetKey x) with
  | none => rfl
  | some index =>
    simp only [Option.bind_eq_bind, Option.bind_some]
    cases t.mItems index with
    | none => rfl
    | some item => rfl

section Survival

variable [LawfulBEq K]

/-- From slot `i` on, where the table holds the items of the slots in front. -/
theorem reAdd_stores (hold : old.Stores GetKey Hash k items) (hk : 2 ^ k ≤ 2 ^ k')
    (hfuel : 2 ^ (k' + 1) ≤ fuel) (hi : i ≤ 2 ^ (k + 1)) (hrounds : 2 ^ (k + 1) - i < rounds)
    (before : List T) (hbefore : ∀ x, x ∈ before ↔ ∃ j < i, old.mItems j = some x)
    (ht : t.Stores GetKey Hash k' before) :
    ∃ t', reAdd (add Resize GetKey Hash fuel (depth + 1)) old (fun _ => 2 ^ (k + 1)) rounds i t =
      some t' ∧ t'.Stores GetKey Hash k' items := by
  induction rounds generalizing i t before with
  | zero => omega
  | succ rounds ih =>
    by_cases hend : i < 2 ^ (k + 1)
    · have halloc : i < old.allocated := by rw [hold.allocated]; exact hend
      cases hitem : old.mItems i with
      | none =>
        rw [reAdd_none hend halloc hitem]
        apply ih (by omega) (by omega) before _ ht
        intro x
        rw [hbefore x]
        constructor
        · exact fun ⟨j, hj, hx⟩ => ⟨j, by omega, hx⟩
        · intro hx
          obtain ⟨j, hj, hx⟩ := hx
          have hne : j ≠ i := fun heq => by rw [heq, hitem] at hx; cases hx
          exact ⟨j, by omega, hx⟩
      | some x =>
        have hslot : ∀ {j y}, j < 2 ^ (k + 1) → old.mItems j = some y →
            old.slots k j = some y := by
          intro j y hj hy
          rw [HashTable.slots_cast hj, hy]
        have hmem : ∀ {j y}, j < 2 ^ (k + 1) → old.mItems j = some y → y ∈ items :=
          fun hj hy => (hold.mem_iff _).mpr ⟨_, hslot hj hy⟩
        have hsub : before ⊆ items := by
          intro y hy
          obtain ⟨j, hj, hy⟩ := (hbefore y).mp hy
          exact hmem (by omega) hy
        -- an item is in one slot only
        have hnew : x ∉ before := by
          intro hx
          obtain ⟨j, hj, hx⟩ := (hbefore x).mp hx
          have heq := hold.placed.unique (hslot (by omega) hx) (hslot hend hitem) rfl
          have hval := congrArg ZMod.val heq
          rw [ZMod.val_cast_of_lt (by omega), ZMod.val_cast_of_lt hend] at hval
          omega
        have hfits : before.length < 2 ^ k' := by
          have hlt : (x :: before).length ≤ items.length := by
            apply List.Subperm.length_le
            apply List.subperm_of_subset (List.nodup_cons.mpr ⟨hnew, ht.nodup⟩)
            exact List.cons_subset.mpr ⟨hmem hend hitem, hsub⟩
          have hbound := hold.bound
          rw [List.length_cons] at hlt
          omega
        have hkey : ∀ y ∈ before, GetKey y ≠ GetKey x := by
          intro y hy hkey
          exact hnew (hold.key_unique (hsub hy) (hmem hend hitem) hkey ▸ hy)
        obtain ⟨t₁, hadd, h₁⟩ := ht.add_new hfuel hfits hkey
        have hroom : t.mNumItems < t.mMaxItems := by
          rw [ht.count, ht.sized.max]
          exact hfits
        rw [reAdd_some hend halloc hitem, add_room hroom, hadd, Option.map_some, Option.bind_some]
        apply ih (t := { t with toHashTable := t₁ }) (by omega) (by omega) (x :: before) _
          ⟨h₁, ht.allocated⟩
        intro y
        rw [List.mem_cons, hbefore y]
        constructor
        · rintro (rfl | ⟨j, hj, hy⟩)
          · exact ⟨i, by omega, hitem⟩
          · exact ⟨j, by omega, hy⟩
        · intro hy
          obtain ⟨j, hj, hy⟩ := hy
          by_cases hji : j = i
          · rw [hji, hitem] at hy
            exact .inl (Option.some.inj hy).symm
          · exact .inr ⟨j, by omega, hy⟩
    · -- all slots are in front
      rw [reAdd_stop hend]
      refine ⟨t, rfl, ht.toStores.perm ?_, ht.allocated⟩
      rw [List.perm_ext_iff_of_nodup ht.nodup hold.nodup]
      intro x
      rw [hbefore x, hold.mem_iff x]
      constructor
      · intro hx
        obtain ⟨j, hj, hx⟩ := hx
        exact ⟨j, by rw [HashTable.slots_cast (by omega), hx]⟩
      · intro hx
        obtain ⟨j, hx⟩ := hx
        exact ⟨j.val, by have := ZMod.val_lt j; omega, hx⟩

theorem resize_stores (h : t.Stores GetKey Hash k items) (hk : k < 29) (depth : ℕ)
    (hfuel : 2 ^ (max (k + 1) 4 + 1) ≤ fuel) :
    ∃ t', resize fuel (add resize GetKey Hash fuel (depth + 1)) t = some t' ∧
      t'.Stores GetKey Hash (max (k + 1) 4) items := by
  have hsize := newSize_eq h.sized hk
  have hpow : 2 ^ (k + 1) < 2 ^ (max (k + 1) 4 + 1) :=
    Nat.pow_lt_pow_right (by omega) (by omega)
  rw [resize, hsize, h.sized.size]
  apply reAdd_stores h (Nat.pow_le_pow_right (by omega) (by omega)) hfuel
    (Nat.zero_le _) (hpow.trans_le hfuel) []
  · simp
  · refine ⟨⟨⟨?_, rfl, rfl⟩, ⟨nofun, nofun⟩, ?_, List.nodup_nil, rfl, Nat.zero_le _⟩, rfl⟩
    · show 2 ^ (max (k + 1) 4 + 1) >>> 1 = 2 ^ max (k + 1) 4
      rw [Nat.shiftRight_one, pow_succ, Nat.mul_div_cancel _ (by omega)]
    · intro item
      exact ⟨nofun, fun ⟨_, hi⟩ => nomatch hi⟩

variable [DecidableEq K] {c : TableCall T K}

/-! ## Calls -/

omit [BEq K] [LawfulBEq K] in
/-- A bound that is not reached refuses nothing. -/
theorem growingCall_eq (hroom : ∀ x, c = .add x → items.length < 2 ^ k) :
    growingCall GetKey items c = mapCall GetKey (2 ^ k) items c := by
  cases c with
  | add x =>
    have hlt := hroom x rfl
    have hrefused : Refused GetKey (items.length + 1) items x ↔ Refused GetKey (2 ^ k) items x := by
      unfold Refused
      rw [or_iff_right (by omega), or_iff_right (by omega)]
    unfold growingCall mapCall
    simp only [hrefused]
  | remove x => rfl
  | removeKey inKey => rfl
  | get inKey => rfl

/-- Every call on a table with room for what it may add. -/
theorem Stores.call_of_room (h : t.Stores GetKey Hash k items)
    (hroom : ∀ x, c = .add x → items.length < 2 ^ k) (hfuel : 2 ^ (k + 1) ≤ fuel) :
    ∃ t', t.call Resize GetKey Hash fuel c = some (t', (growingCall GetKey items c).2) ∧
      t'.Stores GetKey Hash k (growingCall GetKey items c).1 := by
  rw [growingCall_eq hroom]
  obtain ⟨t₁, hcall, h₁⟩ := h.toStores.call hfuel c
  have heq : t.call Resize GetKey Hash fuel c =
      (t.toHashTable.call GetKey Hash fuel c).map fun r => ({ t with toHashTable := r.1 }, r.2) := by
    cases c with
    | add x =>
      have hpos : 0 < fuel := (Nat.two_pow_pos _).trans_le hfuel
      obtain ⟨depth, rfl⟩ : ∃ d, fuel = d + 1 := ⟨fuel - 1, by omega⟩
      have hlt : t.mNumItems < t.mMaxItems := by
        rw [h.count, h.sized.max]
        exact hroom x rfl
      rw [GrowingTable.call, HashTable.call, add_room hlt, Option.map_map, Option.map_map]
      rfl
    | remove x => rfl
    | removeKey inKey => rfl
    | get inKey => rfl
  exact ⟨{ t with toHashTable := t₁ }, by rw [heq, hcall]; rfl, h₁, h.allocated⟩

omit [LawfulBEq K] [DecidableEq K] in
/-- A full table is resized, and then has room. -/
theorem add_again {depth' : ℕ} (hfull : t.mNumItems ≥ t.mMaxItems)
    (hresize : Resize fuel (add Resize GetKey Hash fuel depth) t = some t')
    (hroom : t'.mNumItems < t'.mMaxItems) :
    t.add Resize GetKey Hash fuel (depth + 1) x = t'.add Resize GetKey Hash fuel (depth' + 1) x := by
  rw [add_succ, if_pos hfull, hresize, add_succ, if_neg (by omega)]

/-- The fuel that every call on a `HashTable` of less than `2 ^ 29` items can do with. -/
def enoughFuel : ℕ := 2 ^ 30 + 2

theorem Stores.call (h : t.Stores GetKey Hash k items) (hk : k ≤ 29)
    (hlimit : ∀ x, c = .add x → items.length < 2 ^ 29) (hfuel : enoughFuel ≤ fuel) :
    ∃ k' t', k' ≤ 29 ∧
      t.call resize GetKey Hash fuel c = some (t', (growingCall GetKey items c).2) ∧
      t'.Stores GetKey Hash k' (growingCall GetKey items c).1 := by
  have hpow : ∀ {n}, n ≤ 29 → 2 ^ (n + 1) ≤ fuel := by
    intro n hn
    have hle : 2 ^ (n + 1) ≤ 2 ^ 30 := Nat.pow_le_pow_right (by omega) (by omega)
    unfold enoughFuel at hfuel
    omega
  by_cases hroom : ∀ x, c = .add x → items.length < 2 ^ k
  · obtain ⟨t', hcall, h'⟩ := h.call_of_room hroom (hpow hk)
    exact ⟨k, t', hk, hcall, h'⟩
  · push Not at hroom
    obtain ⟨x, rfl, hfull⟩ := hroom
    have hlt := hlimit x rfl
    have hk' : k < 29 := (Nat.pow_lt_pow_iff_right (by omega)).mp (hfull.trans_lt hlt)
    obtain ⟨depth, rfl⟩ : ∃ d, fuel = d + 2 := ⟨fuel - 2, by unfold enoughFuel at hfuel; omega⟩
    have hmax : max (k + 1) 4 ≤ 29 := by omega
    obtain ⟨t₁, hresize, h₁⟩ := resize_stores h hk' depth (hpow hmax)
    have hroom₁ : items.length < 2 ^ max (k + 1) 4 := by
      calc items.length ≤ 2 ^ k := h.bound
        _ < 2 ^ max (k + 1) 4 := Nat.pow_lt_pow_right (by omega) (by omega)
    obtain ⟨t', hcall, h'⟩ := h₁.call_of_room (fun _ _ => hroom₁) (c := .add x) (hpow hmax)
    refine ⟨_, t', hmax, ?_, h'⟩
    rw [← hcall, GrowingTable.call, GrowingTable.call, add_again _ hresize]
    · rw [h₁.count, h₁.sized.max]
      exact hroom₁
    · rw [h.count, h.sized.max]
      exact hfull

/-- Each `Add` of the calls finds less than `n` items stored. -/
def HasRoom (GetKey : T → K) (n : ℕ) (items : List T) (cs : List (TableCall T K)) : Prop :=
  ∀ pre x, pre ++ [.add x] <+: cs → (growingCalls GetKey items pre).1.length < n

omit [BEq K] [LawfulBEq K] in
theorem HasRoom.cons {n : ℕ} {cs : List (TableCall T K)}
    (h : HasRoom GetKey n items (c :: cs)) :
    (∀ x, c = .add x → items.length < n) ∧ HasRoom GetKey n (growingCall GetKey items c).1 cs := by
  constructor
  · rintro x rfl
    exact h [] x (by simp)
  · intro pre x hpre
    exact h (c :: pre) x (by simpa using hpre)

omit [LawfulBEq K] in
theorem calls_cons {t₁ : GrowingTable T} {cs : List (TableCall T K)}
    (hcall : t.call Resize GetKey Hash fuel c = some (t₁, (growingCall GetKey items c).2))
    (hcalls : t₁.calls Resize GetKey Hash fuel cs =
      some (t', (growingCalls GetKey (growingCall GetKey items c).1 cs).2)) :
    t.calls Resize GetKey Hash fuel (c :: cs) =
      some (t', (growingCalls GetKey items (c :: cs)).2) := by
  rw [GrowingTable.calls, hcall]
  show (t₁.calls Resize GetKey Hash fuel cs >>= _) = _
  rw [hcalls]
  rfl

/-- Every run in which nothing is resized. -/
theorem Stores.calls_of_room (h : t.Stores GetKey Hash k items) (Resize : Resizing T)
    (hfuel : 2 ^ (k + 1) ≤ fuel) (cs : List (TableCall T K))
    (hroom : HasRoom GetKey (2 ^ k) items cs) :
    ∃ t', t.calls Resize GetKey Hash fuel cs = some (t', (growingCalls GetKey items cs).2) ∧
      t'.Stores GetKey Hash k (growingCalls GetKey items cs).1 := by
  induction cs generalizing t items with
  | nil => exact ⟨t, rfl, h⟩
  | cons c cs ih =>
    obtain ⟨hadd, hrest⟩ := hroom.cons
    obtain ⟨t₁, heq₁, h₁⟩ := h.call_of_room hadd hfuel
    obtain ⟨t₂, heq₂, h₂⟩ := ih h₁ hrest
    exact ⟨t₂, calls_cons heq₁ heq₂, h₂⟩

/-- Every run of a `HashTable` of less than `2 ^ 29` items. -/
theorem Stores.calls (h : t.Stores GetKey Hash k items) (hk : k ≤ 29) (hfuel : enoughFuel ≤ fuel)
    (cs : List (TableCall T K)) (hroom : HasRoom GetKey (2 ^ 29) items cs) :
    ∃ k' t', t.calls resize GetKey Hash fuel cs = some (t', (growingCalls GetKey items cs).2) ∧
      t'.Stores GetKey Hash k' (growingCalls GetKey items cs).1 := by
  induction cs generalizing t k items with
  | nil => exact ⟨k, t, rfl, h⟩
  | cons c cs ih =>
    obtain ⟨hadd, hrest⟩ := hroom.cons
    obtain ⟨k₁, t₁, hk₁, heq₁, h₁⟩ := h.call hk hadd hfuel
    obtain ⟨k₂, t₂, heq₂, h₂⟩ := ih h₁ hk₁ hrest
    exact ⟨k₂, t₂, calls_cons heq₁ heq₂, h₂⟩

/-- With enough fuel, the table is after each of the calls the finite map that these make, and
has replied as one. -/
def Survives (Resize : Resizing T) (GetKey : T → K) (Hash : K → Word) (inMaxItems : ℕ)
    (cs : List (TableCall T K)) : Prop :=
  ∃ enough, ∀ fuel ≥ enough, ∀ pre, pre <+: cs → ∃ t : GrowingTable T,
    (new inMaxItems).calls Resize GetKey Hash fuel pre =
      some (t, (growingCalls GetKey [] pre).2) ∧
    t.Holds GetKey Hash (growingCalls GetKey [] pre).1

omit [BEq K] [LawfulBEq K] in
theorem HasRoom.of_append {n : ℕ} {pre cs : List (TableCall T K)}
    (h : HasRoom GetKey n items cs) (hpre : pre <+: cs) : HasRoom GetKey n items pre :=
  fun before x hx => h before x (hx.trans hpre)

omit [BEq K] [LawfulBEq K] [DecidableEq K] [DecidableEq T] in
theorem stores_new (k : ℕ) : (new (2 ^ k) : GrowingTable T).Stores GetKey Hash k [] where
  toStores := HashTable.stores_new
  allocated := by
    show 2 ^ k <<< 1 = 2 ^ (k + 1)
    rw [Nat.shiftLeft_eq, pow_one, pow_succ]

/-- `HashTable` grows as long as the number of its slots is an `int32`. -/
theorem hashTable_survives {cs : List (TableCall T K)} (hk : k ≤ 29)
    (hroom : HasRoom GetKey (2 ^ 29) [] cs) : Survives resize GetKey Hash (2 ^ k) cs := by
  refine ⟨enoughFuel, fun fuel hfuel pre hpre => ?_⟩
  obtain ⟨k', t, heq, h⟩ := (stores_new k).calls hk hfuel pre (hroom.of_append hpre)
  exact ⟨t, heq, h.toStores.holds⟩

/-- Either class, as long as nothing is resized. -/
theorem survives_of_room {cs : List (TableCall T K)} (hroom : HasRoom GetKey (2 ^ k) [] cs) :
    Survives Resize GetKey Hash (2 ^ k) cs := by
  refine ⟨2 ^ (k + 1), fun fuel hfuel pre hpre => ?_⟩
  obtain ⟨t, heq, h⟩ := (stores_new k).calls_of_room Resize hfuel pre (hroom.of_append hpre)
  exact ⟨t, heq, h.toStores.holds⟩

end Survival

/-! ## `IntHashTable` -/

/-- All items of the table are among the given ones. -/
def AllIn (t : GrowingTable T) (items : List T) : Prop := ∀ i x, t.mItems i = some x → x ∈ items

/-- So are those in the slots that were allocated. -/
def SlotsIn (t : GrowingTable T) (items : List T) : Prop :=
  ∀ i < t.allocated, ∀ x, t.mItems i = some x → x ∈ items

/-- Where the slot that the search ended at is filled, nothing is put. -/
theorem put_cases (hput : t.put GetKey Hash fuel x = some (t', b)) :
    ∃ index, (∃ y, t.mItems index = some y ∧ t' = t ∧ b = decide (y = x)) ∨
      t' = { t with
        toHashTable := { t.setItem index (some x) with mNumItems := t.mNumItems + 1 } } := by
  rw [put, Option.bind_eq_bind, Option.bind_eq_some_iff] at hput
  obtain ⟨index, -, hput⟩ := hput
  cases hitem : t.mItems index with
  | some y =>
    simp only [hitem, Option.pure_def, Option.some.injEq, Prod.mk.injEq] at hput
    exact ⟨index, .inl ⟨y, hitem, hput.1.symm, hput.2.symm⟩⟩
  | none =>
    simp only [hitem, Option.pure_def, Option.some.injEq, Prod.mk.injEq] at hput
    exact ⟨index, .inr hput.1.symm⟩

theorem put_allIn (hx : x ∈ items) (ht : t.AllIn items)
    (hput : t.put GetKey Hash fuel x = some (t', b)) : t'.AllIn items := by
  obtain ⟨index, ⟨_, -, rfl, -⟩ | rfl⟩ := put_cases hput
  · exact ht
  · intro i y hy
    change Function.update t.mItems index (some x) i = some y at hy
    by_cases hi : i = index
    · rw [hi, Function.update_self] at hy
      exact Option.some.inj hy ▸ hx
    · rw [Function.update_of_ne hi] at hy
      exact ht i y hy

omit [DecidableEq T] in
/-- No turn of the loop takes anything off the count. -/
theorem reAdd_grows (hadd : ∀ {t t' x b}, x ∈ items → t.AllIn items → Add t x = some (t', b) →
      t.mNumItems ≤ t'.mNumItems ∧ t'.AllIn items) (hold : old.SlotsIn items)
    (ht : t.AllIn items) (h : reAdd Add old bound rounds i t = some t') :
    t.mNumItems ≤ t'.mNumItems ∧ t'.AllIn items := by
  induction rounds generalizing i t with
  | zero => cases h
  | succ rounds ih =>
    rcases reAdd_cases h with ⟨-, rfl⟩ | ⟨-, -, hrest⟩ | ⟨x, t₁, b, halloc, hitem, hx, hrest⟩
    · exact ⟨le_refl _, ht⟩
    · exact ih ht hrest
    · have hgrows := hadd (hold i halloc x hitem) ht hx
      have hrest := ih hgrows.2 hrest
      exact ⟨hgrows.1.trans hrest.1, hrest.2⟩

theorem add_grows (hx : x ∈ items) (ht : t.AllIn items)
    (h : t.add resizeInt GetKey Hash fuel depth x = some (t', b)) :
    t.mNumItems ≤ t'.mNumItems ∧ t'.AllIn items := by
  induction depth generalizing t t' x b with
  | zero => cases h
  | succ depth ih =>
    rw [add_succ, Option.bind_eq_some_iff] at h
    obtain ⟨t₁, hresize, hput⟩ := h
    have h₁ : t.mNumItems ≤ t₁.mNumItems ∧ t₁.AllIn items := by
      split_ifs at hresize with hfull
      · obtain ⟨t₂, hloop, rfl⟩ := Option.map_eq_some_iff.mp hresize
        have hgrows := reAdd_grows ih (fun i _ => ht i) (t := t.allocTable t.newSize) nofun hloop
        exact hgrows
      · cases hresize
        exact ⟨le_refl _, ht⟩
    refine ⟨?_, put_allIn hx h₁.2 hput⟩
    obtain ⟨index, ⟨_, -, rfl, -⟩ | rfl⟩ := put_cases hput
    · exact h₁.1
    · exact h₁.1.trans (Nat.le_succ _)

omit [DecidableEq T] in
theorem reAdd_empty (hold : ∀ j, old.mItems j = none)
    (h : reAdd Add old bound rounds i t = some t') : t' = t := by
  induction rounds generalizing i with
  | zero => cases h
  | succ rounds ih =>
    rcases reAdd_cases h with ⟨-, rfl⟩ | ⟨-, -, hrest⟩ | ⟨x, _, _, -, hitem, -, -⟩
    · rfl
    · exact ih hrest
    · rw [hold i] at hitem
      cases hitem

/-- A full table without items resizes itself and then counts the new item on top. -/
theorem add_counts (hfull : t.mNumItems ≥ t.mMaxItems) (hempty : ∀ i, t.mItems i = none)
    (h : t.add resizeInt GetKey Hash fuel depth x = some (t', b)) :
    t'.mNumItems = t.mNumItems + 1 := by
  cases depth with
  | zero => cases h
  | succ depth =>
    rw [add_succ, if_pos hfull, Option.bind_eq_some_iff] at h
    obtain ⟨t₁, hresize, hput⟩ := h
    obtain ⟨t₂, hloop, rfl⟩ := Option.map_eq_some_iff.mp hresize
    have heq := reAdd_empty hempty hloop
    subst heq
    obtain ⟨index, ⟨_, hy, -⟩ | rfl⟩ := put_cases hput
    · cases hy
    · rfl

/-- The first old item is counted a second time. -/
theorem reAdd_counts (hfull : t.mNumItems ≥ t.mMaxItems) (hempty : ∀ i, t.mItems i = none)
    {j : ℕ} (hij : i ≤ j) (hj : j < t.mTableSize) (hitem : old.mItems j = some x)
    (hold : old.SlotsIn items)
    (h : reAdd (add resizeInt GetKey Hash fuel depth) old (fun t => t.mTableSize) rounds i t =
      some t') : t.mNumItems < t'.mNumItems := by
  induction rounds generalizing i with
  | zero => cases h
  | succ rounds ih =>
    rcases reAdd_cases h with ⟨hstop, -⟩ | ⟨-, hnone, hrest⟩ | ⟨y, t₁, b, halloc, hy, hadd, hrest⟩
    · omega
    · have hne : i ≠ j := by
        rintro rfl
        rw [hnone] at hitem
        cases hitem
      exact ih (by omega) hrest
    · have hcount := add_counts hfull hempty hadd
      have hmem := hold i halloc y hy
      have ht : t.AllIn items := fun i x hx => by rw [hempty i] at hx; cases hx
      have hgrows := reAdd_grows add_grows hold (add_grows hmem ht hadd).2 hrest
      omega

omit [BEq K] in
theorem growingCall_add [DecidableEq K] (GetKey : T → K) (items : List T) (x : T) :
    (growingCall GetKey items (.add x)).1.length ≤ items.length ∨
    x ∉ items ∧ growingCall GetKey items (.add x) = (x :: items, .done true) := by
  unfold growingCall mapCall
  simp only
  split_ifs with hrefused
  · exact .inl (le_refl _)
  · by_cases hx : x ∈ items
    · rw [List.insert_of_mem hx]
      exact .inl (le_refl _)
    · rw [List.insert_of_not_mem hx]
      exact .inr ⟨hx, rfl⟩

/-- An `Add` to a full table, if it returns at all, gives a wrong reply or a wrong count. -/
theorem Stores.add_full [DecidableEq K] (h : t.Stores GetKey Hash k items)
    (hfull : 2 ^ k ≤ items.length) {reply : TableReply T}
    (hcall : t.call resizeInt GetKey Hash fuel (.add x) = some (t', reply))
    (hreply : reply = (growingCall GetKey items (.add x)).2) :
    t'.mNumItems ≠ (growingCall GetKey items (.add x)).1.length := by
  obtain ⟨⟨t₀, b⟩, hadd, heq⟩ := Option.map_eq_some_iff.mp hcall
  cases heq
  change t₀.mNumItems ≠ _
  cases fuel with
  | zero => cases hadd
  | succ fuel =>
    have hnum : t.mNumItems ≥ t.mMaxItems := by
      rw [h.count, h.sized.max]
      exact hfull
    rw [add_succ, if_pos hnum, Option.bind_eq_some_iff] at hadd
    obtain ⟨t₁, hresize, hput⟩ := hadd
    obtain ⟨t₂, hloop, rfl⟩ := Option.map_eq_some_iff.mp hresize
    have hslots : t.SlotsIn items := by
      intro i hi y hy
      rw [h.allocated] at hi
      exact (h.mem_iff y).mpr ⟨i, by rw [HashTable.slots_cast hi, hy]⟩
    -- the table holds an item, so that the count is already too great after the loop
    obtain ⟨y, hy⟩ := List.exists_mem_of_length_pos ((Nat.two_pow_pos k).trans_le hfull)
    obtain ⟨j, hj⟩ := (h.mem_iff y).mp hy
    have hlt : j.val < t.mTableSize := by
      rw [h.sized.size]
      exact ZMod.val_lt j
    have hcount := reAdd_counts (t := t.allocTable t.newSize) hnum (fun _ => rfl)
      (Nat.zero_le j.val) hlt hj hslots hloop
    have hall := (reAdd_grows add_grows hslots (t := t.allocTable t.newSize) nofun hloop).2
    have hstored : t.mNumItems = items.length := h.count
    change t.mNumItems < t₂.mNumItems at hcount
    obtain ⟨index, hput⟩ := put_cases hput
    rcases growingCall_add GetKey items x with hold | ⟨hnew, heq⟩
    · rcases hput with ⟨_, -, rfl, -⟩ | rfl
      · change t₂.mNumItems ≠ _
        omega
      · change t₂.mNumItems + 1 ≠ _
        omega
    · rw [heq] at hreply ⊢
      rcases hput with ⟨z, hz, -, hb⟩ | rfl
      · -- a new item is not found in the table
        have hb' : b = true := TableReply.done.inj hreply
        have hzx : z = x := by simpa [hb] using hb'
        exact absurd (hall index z hz) (hzx ▸ hnew)
      · change t₂.mNumItems + 1 ≠ items.length + 1
        omega

/-! ## Both tables -/

variable [DecidableEq K]

omit [BEq K] in
theorem growingCalls_cons (items : List T) (c : TableCall T K) (cs : List (TableCall T K)) :
    growingCalls GetKey items (c :: cs) =
      ((growingCalls GetKey (growingCall GetKey items c).1 cs).1,
        (growingCall GetKey items c).2 :: (growingCalls GetKey (growingCall GetKey items c).1 cs).2) :=
  rfl

omit [BEq K] in
theorem growingCalls_append (items : List T) (pre cs : List (TableCall T K)) :
    growingCalls GetKey items (pre ++ cs) =
      ((growingCalls GetKey (growingCalls GetKey items pre).1 cs).1,
        (growingCalls GetKey items pre).2 ++
          (growingCalls GetKey (growingCalls GetKey items pre).1 cs).2) := by
  induction pre generalizing items with
  | nil => rfl
  | cons c pre ih =>
    rw [List.cons_append, growingCalls_cons, growingCalls_cons, ih]
    rfl

omit [DecidableEq K] in
theorem calls_append (pre cs : List (TableCall T K)) :
    t.calls Resize GetKey Hash fuel (pre ++ cs) =
      (t.calls Resize GetKey Hash fuel pre).bind fun r =>
        (r.1.calls Resize GetKey Hash fuel cs).map fun r' => (r'.1, r.2 ++ r'.2) := by
  induction pre generalizing t with
  | nil => simp [calls]
  | cons c pre ih =>
    rw [List.cons_append, calls, calls]
    cases t.call Resize GetKey Hash fuel c with
    | none => rfl
    | some r =>
      simp only [Option.bind_eq_bind, Option.bind_some, ih]
      cases r.1.calls Resize GetKey Hash fuel pre with
      | none => rfl
      | some r' =>
        simp only [Option.bind_some, Option.pure_def]
        cases r'.1.calls Resize GetKey Hash fuel cs with
        | none => rfl
        | some r'' => rfl

omit [BEq K] in
theorem length_growingCalls_le (GetKey : T → K) (items : List T) (cs : List (TableCall T K)) :
    (growingCalls GetKey items cs).1.length ≤ items.length + cs.length := by
  induction cs generalizing items with
  | nil => exact le_refl _
  | cons c cs ih =>
    have hle : (growingCall GetKey items c).1.length ≤ items.length + 1 := by
      cases c with
      | add x =>
        rcases growingCall_add GetKey items x with hle | ⟨-, heq⟩
        · omega
        · rw [heq, List.length_cons]
      | remove x => exact List.length_erase_le.trans (Nat.le_succ _)
      | removeKey inKey => exact (List.length_filter_le ..).trans (Nat.le_succ _)
      | get inKey => exact Nat.le_succ _
    have hrest := ih (growingCall GetKey items c).1
    rw [growingCalls_cons, List.length_cons]
    show (growingCalls GetKey (growingCall GetKey items c).1 cs).1.length ≤ _
    omega

omit [BEq K] in
/-- There is room for `n` calls. -/
theorem hasRoom_of_length {n : ℕ} {cs : List (TableCall T K)} (hlen : cs.length ≤ n) :
    HasRoom GetKey n [] cs := by
  intro pre x hpre
  have hle := hpre.length_le
  have hstored := length_growingCalls_le GetKey [] pre
  rw [List.length_append, List.length_singleton] at hle
  rw [List.length_nil] at hstored
  omega

omit [BEq K] in
/-- The first `Add` that does not find room. -/
theorem exists_first_full {n : ℕ} {cs : List (TableCall T K)} (h : ¬ HasRoom GetKey n [] cs) :
    ∃ pre x, pre ++ [.add x] <+: cs ∧ n ≤ (growingCalls GetKey [] pre).1.length ∧
      HasRoom GetKey n [] pre := by
  unfold HasRoom at h
  push Not at h
  obtain ⟨pre, x, hpre, hfull⟩ := h
  induction hlen : pre.length using Nat.strong_induction_on generalizing pre x with
  | _ m ih =>
    by_cases hroom : HasRoom GetKey n [] pre
    · exact ⟨pre, x, hpre, hfull, hroom⟩
    · unfold HasRoom at hroom
      push Not at hroom
      obtain ⟨before, y, hbefore, hfull'⟩ := hroom
      have hle := hbefore.length_le
      rw [List.length_append, List.length_singleton] at hle
      have hcs : before ++ [.add y] <+: cs := hbefore.trans ((List.prefix_append ..).trans hpre)
      exact ih before.length (by omega) before y hcs hfull' rfl

variable [LawfulBEq K] {cs : List (TableCall T K)}

/-- An `IntHashTable` does not survive its first `Resize`. -/
theorem not_survives (h : ¬ HasRoom GetKey (2 ^ k) [] cs) :
    ¬ Survives resizeInt GetKey Hash (2 ^ k) cs := by
  intro hsurvives
  obtain ⟨enough, hsurvives⟩ := hsurvives
  obtain ⟨pre, x, hpre, hfull, hroom⟩ := exists_first_full h
  have hle : 2 ^ (k + 1) ≤ max enough (2 ^ (k + 1)) := le_max_right ..
  have hnew : (new (2 ^ k) : GrowingTable T).Stores GetKey Hash k [] := stores_new k
  obtain ⟨t, heq, hstores⟩ := hnew.calls_of_room resizeInt hle pre hroom
  obtain ⟨t', hcalls, hholds⟩ := hsurvives _ (le_max_left ..) _ hpre
  rw [calls_append, heq, growingCalls_append, Option.bind_some] at hcalls
  rw [growingCalls_append] at hholds
  obtain ⟨⟨t₁, replies⟩, hlast, hboth⟩ := Option.map_eq_some_iff.mp hcalls
  have ht : t₁ = t' := congrArg Prod.fst hboth
  have hreplies : replies = _ := List.append_cancel_left (congrArg Prod.snd hboth)
  subst ht
  rw [calls, Option.bind_eq_bind, Option.bind_eq_some_iff] at hlast
  obtain ⟨⟨t₂, reply⟩, hcall, hrest⟩ := hlast
  cases hrest
  exact hstores.add_full hfull hcall (List.singleton_inj.mp hreplies) hholds.count

/-- Both tables survive exactly those runs in which nothing is resized; a `HashTable` also
survives its resizing, below `2 ^ 29` items. -/
theorem survives_iff (hk : k ≤ 29) :
    (HasRoom GetKey (2 ^ 29) [] cs → Survives resize GetKey Hash (2 ^ k) cs) ∧
    (Survives resize GetKey Hash (2 ^ k) cs ∧ Survives resizeInt GetKey Hash (2 ^ k) cs ↔
      HasRoom GetKey (2 ^ k) [] cs) := by
  refine ⟨hashTable_survives hk, ?_, ?_⟩
  · intro hboth
    by_contra hroom
    exact not_survives hroom hboth.2
  · intro hroom
    exact ⟨survives_of_room hroom, survives_of_room hroom⟩

/-- Three items in a table made for two, the first of which is then removed. -/
def threeAdds : List (TableCall Word Word) :=
  [.add 1#32, .add 2#32, .add 3#32, .remove 1#32, .get 3#32]

theorem survives_iff_threeAdds :
    Survives resize id (fun _ => 3#32) (2 ^ 1) threeAdds ∧
    (Survives resize id (fun _ => 3#32) (2 ^ 1) [TableCall.add 1#32, .get 1#32] ∧
      Survives resizeInt id (fun _ => 3#32) (2 ^ 1) [TableCall.add 1#32, .get 1#32]) :=
  ⟨(survives_iff (by decide)).1 (hasRoom_of_length (by decide)),
    (survives_iff (by decide)).2.mpr (hasRoom_of_length (by decide))⟩

theorem not_survives_threeAdds : ¬ Survives resizeInt id (fun _ => 3#32) (2 ^ 1) threeAdds := by
  apply not_survives
  intro hroom
  have hlt := hroom [.add 1#32, .add 2#32] 3#32 ⟨_, rfl⟩
  exact absurd hlt (by decide)

end GrowingTable

end PoopWorms.Server
