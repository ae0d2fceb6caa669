import PoopWorms.Server.ControlArgs
import PoopWorms.Server.MsgIterTheorems

/-!
# `/s_new` and `/n_set`

The loops of `Graph_Ctor` and `meth_n_set` are one loop, in which the index is advanced by `extra`
behind a closing bracket and behind a string that maps nothing: by one in `Graph_Ctor`, and not at
all in `meth_n_set`. They do the same with an argument in which nothing is set behind such a place.
-/

namespace PoopWorms.Server

open Octets Osc

variable (fpu : FloatUnit) (world : ControlWorld)

/-! ## One loop for both -/

/-- One turn of either loop. -/
def valueTurn (extra : ℕ) (key : ControlKey) (s : ValueLoop) : Option ValueLoop := do
  let tag ← s.it.nextTagOr (chr 'f')
  if tag = chr 'f' ∨ tag = chr 'i' then
    let (value, it) ← s.it.getf fpu 0#32
    return { s with it, g := s.g.store world key s.i (.set value), i := s.i + 1 }
  else if tag = chr 's' then
    let (string, it) ← s.it.gets none
    let string ← string
    return { s with
      it
      g := s.g.storeString world key s.i string
      i := s.i + if (mapping string).isSome then 1 else extra }
  else if tag = chr ']' then
    return { s with it := s.it.next, loop := s.loop - 1, i := s.i + extra }
  else if tag = chr '[' then return { s with it := s.it.next, loop := s.loop + 1 }
  else return { s with i := s.i + extra }

theorem ctorTurn_eq : ctorTurn fpu world = valueTurn fpu world 1 := by
  funext key s
  unfold ctorTurn valueTurn
  simp only [Int.sub_add_cancel, Nat.cast_one, ite_self]

theorem nSetTurn_eq : nSetTurn fpu world = valueTurn fpu world 0 := by
  funext key s
  unfold nSetTurn valueTurn
  simp only [Nat.cast_zero, Int.add_zero]
  refine bind_congr fun tag => ?_
  split_ifs with hvalue hstring hclose hopen
  · rfl
  · refine bind_congr fun r => bind_congr fun string => ?_
    cases hmap : mapping string with
    | none => simp [Controls.storeString, hmap]
    | some store => simp
  · rfl
  · rfl
  · rfl

/-! ## Argument lists -/

/-- A string without NULs. -/
abbrev OscString := {s : List Byte // ∀ b ∈ s, b ≠ 0#8}

/-- What may stand behind a key. -/
inductive ArgValue
  | int (n : Word)
  | float (bits : Word)
  | string (s : OscString)
  | array (xs : List ArgValue)

namespace ArgValue

mutual

/-- The type tags of a value. -/
def tags : ArgValue → List Byte
  | int _ => [chr 'i']
  | float _ => [chr 'f']
  | string _ => [chr 's']
  | array xs => chr '[' :: (tagsList xs ++ [chr ']'])

def tagsList : List ArgValue → List Byte
  | [] => []
  | x :: xs => x.tags ++ tagsList xs

end

mutual

/-- The bytes of a value. -/
def data : ArgValue → List Byte
  | int n => OSCValue.beBytes n
  | float bits => OSCValue.beBytes bits
  | string s => padded s.1
  | array xs => dataList xs

def dataList : List ArgValue → List Byte
  | [] => []
  | x :: xs => x.data ++ dataList xs

end

mutual

/-- How many controls a value sets or maps. -/
def settings : ArgValue → ℕ
  | int _ | float _ => 1
  | string s => if (mapping s.1).isSome then 1 else 0
  | array xs => settingsList xs

def settingsList : List ArgValue → ℕ
  | [] => 0
  | x :: xs => x.settings + settingsList xs

end

mutual

/-- How many closing brackets and strings that map nothing a value has. -/
def slips : ArgValue → ℕ
  | int _ | float _ => 0
  | string s => if (mapping s.1).isSome then 0 else 1
  | array xs => slipsList xs + 1

def slipsList : List ArgValue → ℕ
  | [] => 0
  | x :: xs => x.slips + slipsList xs

end

/-- How far the index is advanced behind a value. -/
def advance (extra : ℕ) (x : ArgValue) : ℕ := x.settings + extra * x.slips

mutual

/-- What a value does to the controls, with the distance of each from the key. -/
def stores (extra : ℕ) (i : ℕ) : ArgValue → List (ℕ × ControlStore)
  | int n => [(i, .set (fpu.floatOfInt32 n))]
  | float bits => [(i, .set bits)]
  | string s => (mapping s.1).toList.map (i, ·)
  | array xs => storesList extra i xs

def storesList (extra : ℕ) (i : ℕ) : List ArgValue → List (ℕ × ControlStore)
  | [] => []
  | x :: xs => x.stores extra i ++ storesList extra (i + x.advance extra) xs

end

mutual

/-- In an array nothing is set or mapped behind an inner array or a string that maps nothing. -/
def Aligned : ArgValue → Prop
  | int _ | float _ | string _ => True
  | array xs => AlignedList xs

def AlignedList : List ArgValue → Prop
  | [] => True
  | x :: xs => x.Aligned ∧ AlignedList xs ∧ (x.slips = 0 ∨ settingsList xs = 0)

end

mutual

/-- Every string maps to a bus. -/
def Maps : ArgValue → Prop
  | int _ | float _ => True
  | string s => ∃ bus < 0x80000000#32, mapping s.1 = some (.map bus) ∨
      mapping s.1 = some (.mapAudio bus)
  | array xs => MapsList xs

def MapsList : List ArgValue → Prop
  | [] => True
  | x :: xs => x.Maps ∧ MapsList xs

end

/-! ### The distances -/

mutual

theorem length_stores (extra i : ℕ) : ∀ x : ArgValue,
    (x.stores fpu extra i).length = x.settings
  | int _ => rfl
  | float _ => rfl
  | string s => by
    rw [stores, settings, List.length_map]
    cases mapping s.1 <;> rfl
  | array xs => length_storesList extra i xs

theorem length_storesList (extra i : ℕ) : ∀ xs : List ArgValue,
    (storesList fpu extra i xs).length = settingsList xs
  | [] => rfl
  | x :: xs => by
    rw [storesList, List.length_append, length_stores extra i x, length_storesList _ _ xs]
    rfl

end

mutual

/-- What sets a control has bytes. -/
theorem four_le_length_data : ∀ x : ArgValue, x.settings ≠ 0 → 4 ≤ x.data.length
  | int _, _ => Nat.le_refl 4
  | float _, _ => Nat.le_refl 4
  | string s, _ => by
    rw [data, length_padded]
    omega
  | array xs, h => four_le_length_dataList xs h

theorem four_le_length_dataList : ∀ xs : List ArgValue, settingsList xs ≠ 0 →
    4 ≤ (dataList xs).length
  | [], h => absurd rfl h
  | x :: xs, h => by
    rw [dataList, List.length_append]
    rw [settingsList] at h
    by_cases hx : x.settings = 0
    · have hxs := four_le_length_dataList xs (by omega)
      omega
    · have hx' := four_le_length_data x hx
      omega

end

mutual

/-- Where nothing is set behind a slip, it does not matter. -/
theorem stores_of_aligned (extra i : ℕ) : ∀ x : ArgValue, x.Aligned →
    x.stores fpu extra i = x.stores fpu 0 i
  | int _, _ => rfl
  | float _, _ => rfl
  | string _, _ => rfl
  | array xs, h => storesList_of_aligned extra i xs h

theorem storesList_of_aligned (extra i : ℕ) : ∀ xs : List ArgValue, AlignedList xs →
    storesList fpu extra i xs = storesList fpu 0 i xs
  | [], _ => rfl
  | x :: xs, ⟨hx, hxs, hslip⟩ => by
    rw [storesList, storesList, stores_of_aligned extra i x hx]
    congr 1
    rcases hslip with hslip | hnone
    · rw [advance, advance, hslip, Nat.mul_zero, Nat.mul_zero]
      exact storesList_of_aligned extra _ xs hxs
    · have hnil : ∀ extra i, storesList fpu extra i xs = [] := by
        intro extra i
        rw [← List.length_eq_zero_iff, length_storesList, hnone]
      rw [hnil, hnil]

end

/-! ### Where the two differ -/

mutual

theorem stores_bounds {extra : ℕ} {p : ℕ × ControlStore} : ∀ (x : ArgValue) {i : ℕ},
    p ∈ x.stores fpu extra i → i ≤ p.1 ∧ p.1 < i + x.advance extra
  | int n, i, hp => by
    rw [stores, List.mem_singleton] at hp
    rw [hp, advance, settings, slips]
    omega
  | float bits, i, hp => by
    rw [stores, List.mem_singleton] at hp
    rw [hp, advance, settings, slips]
    omega
  | string s, i, hp => by
    rw [stores] at hp
    obtain ⟨store, hmap, rfl⟩ := List.mem_map.mp hp
    have hsome : (mapping s.1).isSome := by
      rw [Option.mem_toList] at hmap
      rw [hmap]
      rfl
    rw [advance, settings, slips, if_pos hsome, if_pos hsome]
    omega
  | array xs, i, hp => by
    have hbounds := storesList_bounds xs hp
    rw [advance, settings, slips, Nat.mul_add]
    omega

theorem storesList_bounds {extra : ℕ} {p : ℕ × ControlStore} : ∀ (xs : List ArgValue) {i : ℕ},
    p ∈ storesList fpu extra i xs →
      i ≤ p.1 ∧ p.1 < i + (settingsList xs + extra * slipsList xs)
  | [], i, hp => absurd hp List.not_mem_nil
  | x :: xs, i, hp => by
    rw [settingsList, slipsList, Nat.mul_add]
    rcases List.mem_append.mp hp with hp | hp
    · have hx := stores_bounds x hp
      rw [advance] at hx
      omega
    · have hxs := storesList_bounds xs hp
      rw [advance] at hxs
      omega

end

mutual

/-- No control is set twice. -/
theorem stores_pairwise (extra : ℕ) : ∀ (x : ArgValue) (i : ℕ),
    (x.stores fpu extra i).Pairwise fun p q => p.1 < q.1
  | int _, _ => List.pairwise_singleton _ _
  | float _, _ => List.pairwise_singleton _ _
  | string s, i => by
    rw [stores]
    cases mapping s.1 with
    | none => exact .nil
    | some store => exact List.pairwise_singleton _ _
  | array xs, i => storesList_pairwise extra xs i

theorem storesList_pairwise (extra : ℕ) : ∀ (xs : List ArgValue) (i : ℕ),
    (storesList fpu extra i xs).Pairwise fun p q => p.1 < q.1
  | [], _ => .nil
  | x :: xs, i => by
    rw [storesList, List.pairwise_append]
    refine ⟨stores_pairwise extra x i, storesList_pairwise extra xs _, ?_⟩
    intro p hp q hq
    have hx := stores_bounds fpu x hp
    have hxs := storesList_bounds fpu xs hq
    omega

end

mutual

/-- The last store is at least as far behind as there are stores. -/
theorem exists_last (extra : ℕ) : ∀ (x : ArgValue) (i : ℕ), x.settings ≠ 0 →
    ∃ p ∈ x.stores fpu extra i, i + x.settings ≤ p.1 + 1
  | int n, i, _ => ⟨_, List.mem_singleton_self _, Nat.le_refl _⟩
  | float bits, i, _ => ⟨_, List.mem_singleton_self _, Nat.le_refl _⟩
  | string s, i, h => by
    rw [settings] at h ⊢
    rw [stores]
    cases hmap : mapping s.1 with
    | none =>
      rw [hmap] at h
      exact absurd rfl h
    | some store => exact ⟨_, List.mem_singleton_self _, Nat.le_refl _⟩
  | array xs, i, h => exists_lastList extra xs i h

theorem exists_lastList (extra : ℕ) : ∀ (xs : List ArgValue) (i : ℕ), settingsList xs ≠ 0 →
    ∃ p ∈ storesList fpu extra i xs, i + settingsList xs ≤ p.1 + 1
  | [], _, h => absurd rfl h
  | x :: xs, i, h => by
    rw [settingsList] at h ⊢
    by_cases hxs : settingsList xs = 0
    · obtain ⟨p, hp, hle⟩ := exists_last extra x i (by omega)
      exact ⟨p, List.mem_append_left _ hp, by omega⟩
    · obtain ⟨p, hp, hle⟩ := exists_lastList extra xs (i + x.advance extra) hxs
      refine ⟨p, List.mem_append_right _ hp, ?_⟩
      rw [advance] at hle
      omega

end

theorem slips_pos_of_not_aligned {x : ArgValue} (h : ¬ x.Aligned) : 0 < x.slips := by
  cases x with
  | array xs =>
    rw [slips]
    omega
  | _ => exact absurd trivial h

mutual

/-- Behind a slip, `Graph_Ctor` sets a control that `meth_n_set` does not reach. -/
theorem exists_beyond : ∀ (x : ArgValue) (i : ℕ), ¬ x.Aligned →
    ∃ p ∈ x.stores fpu 1 i, i + x.settings ≤ p.1
  | int _, _, h => absurd trivial h
  | float _, _, h => absurd trivial h
  | string _, _, h => absurd trivial h
  | array xs, i, h => exists_beyondList xs i h

theorem exists_beyondList : ∀ (xs : List ArgValue) (i : ℕ), ¬ AlignedList xs →
    ∃ p ∈ storesList fpu 1 i xs, i + settingsList xs ≤ p.1
  | [], _, h => absurd trivial h
  | x :: xs, i, h => by
    rw [settingsList]
    by_cases hxs : AlignedList xs
    · by_cases hslip : x.slips = 0
      · have hx : ¬ x.Aligned := fun hx => h ⟨hx, hxs, .inl hslip⟩
        have hpos := slips_pos_of_not_aligned hx
        omega
      · by_cases hnone : settingsList xs = 0
        · have hx : ¬ x.Aligned := fun hx => h ⟨hx, hxs, .inr hnone⟩
          obtain ⟨p, hp, hle⟩ := exists_beyond x i hx
          exact ⟨p, List.mem_append_left _ hp, by omega⟩
        · -- the slip moves the last store of the others
          obtain ⟨p, hp, hle⟩ := exists_lastList fpu 1 xs (i + x.advance 1) hnone
          refine ⟨p, List.mem_append_right _ hp, ?_⟩
          rw [advance] at hle
          omega
    · obtain ⟨p, hp, hle⟩ := exists_beyondList xs (i + x.advance 1) hxs
      refine ⟨p, List.mem_append_right _ hp, ?_⟩
      rw [advance] at hle
      omega

end

mutual

/-- Every store of a value whose strings map to buses is seen. -/
theorem maps_stores {p : ℕ × ControlStore} : ∀ (x : ArgValue) {i : ℕ}, x.Maps →
    p ∈ x.stores fpu 1 i → (∃ v, p.2 = .set v) ∨
      ∃ bus < 0x80000000#32, p.2 = .map bus ∨ p.2 = .mapAudio bus
  | int n, i, _, hp => by
    rw [stores, List.mem_singleton] at hp
    exact .inl ⟨_, by rw [hp]⟩
  | float bits, i, _, hp => by
    rw [stores, List.mem_singleton] at hp
    exact .inl ⟨_, by rw [hp]⟩
  | string s, i, h, hp => by
    obtain ⟨bus, hbus, hmap⟩ := h
    rw [stores] at hp
    obtain ⟨store, hstore, rfl⟩ := List.mem_map.mp hp
    rw [Option.mem_toList] at hstore
    refine .inr ⟨bus, hbus, ?_⟩
    rcases hmap with hmap | hmap
    · rw [hmap] at hstore
      exact .inl (Option.some.inj hstore).symm
    · rw [hmap] at hstore
      exact .inr (Option.some.inj hstore).symm
  | array xs, i, h, hp => maps_storesList xs h hp

theorem maps_storesList {p : ℕ × ControlStore} : ∀ (xs : List ArgValue) {i : ℕ}, MapsList xs →
    p ∈ storesList fpu 1 i xs → (∃ v, p.2 = .set v) ∨
      ∃ bus < 0x80000000#32, p.2 = .map bus ∨ p.2 = .mapAudio bus
  | [], i, _, hp => absurd hp List.not_mem_nil
  | x :: xs, i, h, hp => by
    rcases List.mem_append.mp hp with hp | hp
    · exact maps_stores x h.1 hp
    · exact maps_storesList xs h.2 hp

end

mutual

/-- The index does not run further than there are tags. -/
theorem advance_le : ∀ x : ArgValue, x.advance 1 ≤ x.tags.length
  | int _ => Nat.le_refl 1
  | float _ => Nat.le_refl 1
  | string s => by
    rw [advance, settings, slips]
    split_ifs with hmap
    · exact Nat.le_refl 1
    · exact Nat.le_refl 1
  | array xs => by
    have hle := advanceList_le xs
    rw [advance, settings, slips, tags, List.length_cons, List.length_append,
      List.length_singleton]
    omega

theorem advanceList_le : ∀ xs : List ArgValue,
    settingsList xs + slipsList xs ≤ (tagsList xs).length
  | [] => Nat.le_refl 0
  | x :: xs => by
    have hx := advance_le x
    have hxs := advanceList_le xs
    rw [advance] at hx
    rw [settingsList, slipsList, tagsList, List.length_append]
    omega

end

end ArgValue

/-! ## What the loop over the values of a key does -/

def Controls.storeAll (world : ControlWorld) (key : ControlKey) (g : Controls)
    (stores : List (ℕ × ControlStore)) : Controls :=
  stores.foldl (fun g p => g.store world key p.1 p.2) g

section Loop

variable {extra i : ℕ} {key : ControlKey} {s s' : ValueLoop} {tags data : List Byte}
variable {fpu : FloatUnit} {world : ControlWorld}

theorem nextTagOr_eq {it : MsgIter} {tag : Byte} (h : it.Before (tag :: tags) data)
    (defaultTag : Byte) : it.nextTagOr defaultTag = some tag := by
  rcases h.tags with ⟨t, ht, -⟩
  unfold MsgIter.nextTagOr
  rw [ht]
  exact h.nextTag_eq

theorem valueTurn_int {n : Word}
    (h : s.it.Before (chr 'i' :: tags) (OSCValue.beBytes n ++ data)) :
    valueTurn fpu world extra key s = some { s with
      it := (s.it.skip 4).next
      g := s.g.store world key s.i (.set (fpu.floatOfInt32 n))
      i := s.i + 1 } := by
  unfold valueTurn
  rw [nextTagOr_eq h, h.getf_int rfl, MsgIter.swap32_wordOf_beBytes]
  rfl

theorem valueTurn_float {bits : Word}
    (h : s.it.Before (chr 'f' :: tags) (OSCValue.beBytes bits ++ data)) :
    valueTurn fpu world extra key s = some { s with
      it := (s.it.skip 4).next
      g := s.g.store world key s.i (.set bits)
      i := s.i + 1 } := by
  unfold valueTurn
  rw [nextTagOr_eq h, h.getf rfl, MsgIter.swap32_wordOf_beBytes]
  rfl

theorem valueTurn_string {string : OscString}
    (h : s.it.Before (chr 's' :: tags) (padded string.1 ++ data)) :
    valueTurn fpu world extra key s = some { s with
      it := (s.it.skip (padded string.1).length).next
      g := s.g.storeString world key s.i string.1
      i := s.i + if (mapping string.1).isSome then 1 else extra } := by
  unfold valueTurn
  rw [nextTagOr_eq h, h.gets string.2]
  rfl

theorem valueTurn_close (h : s.it.Before (chr ']' :: tags) data) :
    valueTurn fpu world extra key s =
      some { s with it := s.it.next, loop := s.loop - 1, i := s.i + extra } := by
  unfold valueTurn
  rw [nextTagOr_eq h]
  rfl

theorem valueTurn_open (h : s.it.Before (chr '[' :: tags) data) :
    valueTurn fpu world extra key s =
      some { s with it := s.it.next, loop := s.loop + 1 } := by
  unfold valueTurn
  rw [nextTagOr_eq h]
  rfl

theorem doWhileLoop_more {turn : ValueLoop → Option ValueLoop} (hturn : turn s = some s')
    (hloop : s'.loop ≠ 0) (k : ℕ) :
    doWhileLoop turn (k + 1) s = doWhileLoop turn k s' := by
  rw [doWhileLoop, hturn]
  exact if_neg hloop

theorem doWhileLoop_last {turn : ValueLoop → Option ValueLoop} (hturn : turn s = some s')
    (hloop : s'.loop = 0) (k : ℕ) : doWhileLoop turn (k + 1) s = some s' := by
  rw [doWhileLoop, hturn]
  exact if_pos hloop

/-- A value that is not an array takes one turn. -/
theorem valueTurn_leaf (x : ArgValue) (hx : ∀ xs, x ≠ .array xs) (hi : s.i = i)
    (h : s.it.Before (x.tags ++ tags) (x.data ++ data)) :
    x.tags.length = 1 ∧ ∃ it', it'.Before tags data ∧
      valueTurn fpu world extra key s = some { s with
        it := it'
        g := s.g.storeAll world key (x.stores fpu extra i)
        i := ((i + x.advance extra : ℕ) : ℤ) } := by
  cases x with
  | int n =>
    refine ⟨rfl, _, h.advance, (valueTurn_int h).trans ?_⟩
    rw [hi]
    rfl
  | float bits =>
    refine ⟨rfl, _, h.advance, (valueTurn_float h).trans ?_⟩
    rw [hi]
    rfl
  | string string =>
    refine ⟨rfl, _, h.advance, (valueTurn_string h).trans ?_⟩
    rw [hi]
    cases hmap : mapping string.1 with
    | none =>
      simp [ArgValue.data, ArgValue.stores, ArgValue.advance, ArgValue.settings, ArgValue.slips,
        hmap, Controls.storeString, Controls.storeAll]
    | some store =>
      simp [ArgValue.data, ArgValue.stores, ArgValue.advance, ArgValue.settings, ArgValue.slips,
        hmap, Controls.storeString, Controls.storeAll]
  | array xs => exact absurd rfl (hx xs)

theorem Controls.storeAll_append (g : Controls) (ps qs : List (ℕ × ControlStore)) :
    g.storeAll world key (ps ++ qs) = (g.storeAll world key ps).storeAll world key qs :=
  List.foldl_append

theorem doWhileLoop_leaf (x : ArgValue) (hx : ∀ xs, x ≠ .array xs) (hi : s.i = i)
    (hloop : 0 < s.loop) (h : s.it.Before (x.tags ++ tags) (x.data ++ data)) :
    ∃ it', it'.Before tags data ∧ ∀ k,
      doWhileLoop (valueTurn fpu world extra key) (x.tags.length + k) s =
        doWhileLoop (valueTurn fpu world extra key) k { s with
          it := it'
          g := s.g.storeAll world key (x.stores fpu extra i)
          i := ((i + x.advance extra : ℕ) : ℤ) } := by
  obtain ⟨hlen, it', h', hturn⟩ := valueTurn_leaf x hx hi h
  refine ⟨it', h', ?_⟩
  intro k
  rw [hlen, Nat.add_comm, doWhileLoop_more hturn hloop.ne']

mutual

/-- Inside an array, the loop goes over a value and on. -/
theorem doWhileLoop_value : ∀ (x : ArgValue) {i : ℕ} {s : ValueLoop} {tags data : List Byte},
    s.i = i → 0 < s.loop → s.it.Before (x.tags ++ tags) (x.data ++ data) →
    ∃ it', it'.Before tags data ∧ ∀ k,
      doWhileLoop (valueTurn fpu world extra key) (x.tags.length + k) s =
        doWhileLoop (valueTurn fpu world extra key) k { s with
          it := it'
          g := s.g.storeAll world key (x.stores fpu extra i)
          i := ((i + x.advance extra : ℕ) : ℤ) }
  | .int n, i, s, tags, data, hi, hloop, h => doWhileLoop_leaf (.int n) nofun hi hloop h
  | .float bits, i, s, tags, data, hi, hloop, h => doWhileLoop_leaf (.float bits) nofun hi hloop h
  | .string string, i, s, tags, data, hi, hloop, h => doWhileLoop_leaf (.string string) nofun hi hloop h
  | .array xs, i, s, tags, data, hi, hloop, h => by
    have hopen : s.it.Before (chr '[' :: (ArgValue.tagsList xs ++ (chr ']' :: tags)))
        (ArgValue.dataList xs ++ data) := by
      simpa [ArgValue.tags, ArgValue.data] using h
    have hinner : 0 < s.loop + 1 := by omega
    obtain ⟨it₁, h₁, hlist⟩ := doWhileLoop_list xs (s := { s with
      it := s.it.next, loop := s.loop + 1 }) hi hinner hopen.next
    refine ⟨it₁.next, h₁.next, ?_⟩
    intro k
    have hlen : (ArgValue.array xs).tags.length + k =
        (ArgValue.tagsList xs).length + (k + 1) + 1 := by
      rw [ArgValue.tags, List.length_cons, List.length_append, List.length_singleton]
      omega
    have houter : s.loop + 1 - 1 = s.loop := by omega
    rw [hlen, doWhileLoop_more (valueTurn_open hopen) hinner.ne', hlist,
      doWhileLoop_more (valueTurn_close h₁) (by simpa [houter] using hloop.ne')]
    simp only [houter, ArgValue.stores, ArgValue.advance, ArgValue.settings, ArgValue.slips]
    congr 2
    push_cast
    ring

theorem doWhileLoop_list : ∀ (xs : List ArgValue) {i : ℕ} {s : ValueLoop} {tags data : List Byte},
    s.i = i → 0 < s.loop →
    s.it.Before (ArgValue.tagsList xs ++ tags) (ArgValue.dataList xs ++ data) →
    ∃ it', it'.Before tags data ∧ ∀ k,
      doWhileLoop (valueTurn fpu world extra key) ((ArgValue.tagsList xs).length + k) s =
        doWhileLoop (valueTurn fpu world extra key) k { s with
          it := it'
          g := s.g.storeAll world key (ArgValue.storesList fpu extra i xs)
          i := ((i + ArgValue.settingsList xs + extra * ArgValue.slipsList xs : ℕ) : ℤ) }
  | [], i, s, tags, data, hi, hloop, h => by
    refine ⟨s.it, h, fun k => ?_⟩
    simp [ArgValue.tagsList, ArgValue.storesList, ArgValue.settingsList, ArgValue.slipsList,
      Controls.storeAll, ← hi]
  | x :: xs, i, s, tags, data, hi, hloop, h => by
    rw [ArgValue.tagsList, ArgValue.dataList, List.append_assoc, List.append_assoc] at h
    obtain ⟨it₁, h₁, hx⟩ := doWhileLoop_value x hi hloop h
    obtain ⟨it₂, h₂, hxs⟩ := doWhileLoop_list xs (s := { s with
      it := it₁
      g := s.g.storeAll world key (x.stores fpu extra i)
      i := ((i + x.advance extra : ℕ) : ℤ) }) rfl hloop h₁
    refine ⟨it₂, h₂, fun k => ?_⟩
    rw [ArgValue.tagsList, List.length_append, Nat.add_assoc, hx, hxs, ArgValue.storesList,
      Controls.storeAll_append]
    simp only [ArgValue.settingsList, ArgValue.slipsList, ArgValue.advance]
    congr 2
    push_cast
    ring

end

theorem doWhileLoop_arg_leaf (x : ArgValue) (hx : ∀ xs, x ≠ .array xs) {it : MsgIter}
    (g : Controls) (h : it.Before (x.tags ++ tags) (x.data ++ data)) {turns : ℕ}
    (hturns : x.tags.length ≤ turns) :
    ∃ s', s'.it.Before tags data ∧ s'.g = g.storeAll world key (x.stores fpu extra 0) ∧
      doWhileLoop (valueTurn fpu world extra key) turns ⟨it, 0, 0, g⟩ = some s' := by
  let start : ValueLoop := ⟨it, 0, 0, g⟩
  obtain ⟨hlen, it', h', hturn⟩ :=
    @valueTurn_leaf extra 0 key start _ _ fpu world x hx rfl h
  obtain ⟨k, rfl⟩ := Nat.exists_eq_add_of_le' (hlen ▸ hturns)
  exact ⟨_, h', rfl, doWhileLoop_last hturn rfl k⟩

/-- Behind a key, the loop goes over one value and ends. -/
theorem doWhileLoop_arg (x : ArgValue) {it : MsgIter} (g : Controls)
    (h : it.Before (x.tags ++ tags) (x.data ++ data)) {turns : ℕ}
    (hturns : x.tags.length ≤ turns) :
    ∃ s', s'.it.Before tags data ∧ s'.g = g.storeAll world key (x.stores fpu extra 0) ∧
      doWhileLoop (valueTurn fpu world extra key) turns ⟨it, 0, 0, g⟩ = some s' := by
  cases x with
  | int n => exact doWhileLoop_arg_leaf (.int n) nofun g h hturns
  | float bits => exact doWhileLoop_arg_leaf (.float bits) nofun g h hturns
  | string string => exact doWhileLoop_arg_leaf (.string string) nofun g h hturns
  | array xs =>
    have hopen : it.Before (chr '[' :: (ArgValue.tagsList xs ++ (chr ']' :: tags)))
        (ArgValue.dataList xs ++ data) := by
      simpa [ArgValue.tags, ArgValue.data] using h
    let inner : ValueLoop := ⟨it.next, 0, 1, g⟩
    obtain ⟨it₁, h₁, hlist⟩ :=
      @doWhileLoop_list extra key fpu world xs 0 inner _ _ rfl Int.one_pos hopen.next
    have hlen : (ArgValue.array xs).tags.length = (ArgValue.tagsList xs).length + 2 := by
      rw [ArgValue.tags, List.length_cons, List.length_append, List.length_singleton]
    rw [hlen] at hturns
    obtain ⟨k, rfl⟩ := Nat.exists_eq_add_of_le hturns
    have hsplit : (ArgValue.tagsList xs).length + 2 + k =
        (ArgValue.tagsList xs).length + (k + 1) + 1 := by omega
    have hfirst : valueTurn fpu world extra key ⟨it, 0, 0, g⟩ = some inner := valueTurn_open hopen
    rw [hsplit, doWhileLoop_more hfirst one_ne_zero, hlist]
    exact ⟨_, h₁.next, rfl, doWhileLoop_last (valueTurn_close h₁) rfl k⟩

end Loop

/-! ## The loop over the arguments -/

inductive ArgKey
  | index (n : Word)
  | name (s : OscString)

namespace ArgKey

def tag : ArgKey → Byte
  | index _ => chr 'i'
  | name _ => chr 's'

def data : ArgKey → List Byte
  | index n => OSCValue.beBytes n
  | name s => padded s.1

/-- The key as it is read. -/
def read : ArgKey → ControlKey
  | index n => .index n
  | name s => .name s.1

theorem four_le_length_data (key : ArgKey) : 4 ≤ key.data.length := by
  cases key with
  | index n => exact Nat.le_refl 4
  | name s =>
    rw [data, length_padded]
    omega

end ArgKey

/-- A key and its value, of the arguments of `/s_new` and `/n_set`. -/
structure ControlArg where
  key : ArgKey
  value : ArgValue

/-- The type tags of the arguments. -/
def argTags (args : List ControlArg) : List Byte :=
  args.flatMap fun a => a.key.tag :: a.value.tags

/-- The bytes of the arguments. -/
def argData (args : List ControlArg) : List Byte :=
  args.flatMap fun a => a.key.data ++ a.value.data

/-- What the arguments do to the controls. -/
def storeArgs (extra : ℕ) (g : Controls) (args : List ControlArg) : Controls :=
  args.foldl (fun g a => g.storeAll world a.key.read (a.value.stores fpu extra 0)) g

theorem getKey_eq {fpu : FloatUnit} {it : MsgIter} {key : ArgKey} {tags data : List Byte}
    (h : it.Before (key.tag :: tags) (key.data ++ data)) :
    getKey fpu it = some (key.read, (it.skip key.data.length).next) := by
  unfold getKey
  rw [nextTagOr_eq h]
  cases key with
  | index n =>
    have hgeti : it.geti fpu 0#32 = some (n, (it.skip 4).next) := by
      rw [MsgIter.Before.geti h rfl, ArgKey.data, MsgIter.swap32_wordOf_beBytes]
    simp only [Option.bind_eq_bind, Option.bind_some, hgeti]
    rfl
  | name s =>
    have hgets : it.gets4 none = some (some s.1, (it.skip (padded s.1).length).next) :=
      MsgIter.Before.gets s.2 h none
    simp only [Option.bind_eq_bind, Option.bind_some, hgets]
    rfl

/-- The loop goes over all arguments that set a control. Fewer than eight bytes may follow. -/
theorem argLoop_append (fpu : FloatUnit) (world : ControlWorld) (extra : ℕ)
    {tags data : List Byte} (hdata : data.length < 8) :
    ∀ (args : List ControlArg) {it : MsgIter} (g : Controls),
    it.Before (argTags args ++ tags) (argData args ++ data) →
    ∀ turns, (argTags args).length < turns →
    ∃ it', argLoop fpu (valueTurn fpu world extra) turns it g =
      some (it', storeArgs fpu world extra g args)
  | [], it, g, h, turns + 1, hturns => by
    have hend : ¬ 8 ≤ it.remain := by
      rw [h.remain_eq]
      show ¬ (8 : ℤ) ≤ data.length
      omega
    exact ⟨it, if_neg hend⟩
  | a :: args, it, g, h, turns + 1, hturns => by
    rw [argTags, List.flatMap_cons, List.append_assoc, List.cons_append, argData,
      List.flatMap_cons, List.append_assoc, List.append_assoc] at h
    rw [argTags, List.flatMap_cons, List.length_append, List.length_cons] at hturns
    have hstore : storeArgs fpu world extra g (a :: args) = storeArgs fpu world extra
        (g.storeAll world a.key.read (a.value.stores fpu extra 0)) args := rfl
    have hkey := a.key.four_le_length_data
    have hremain := h.remain_eq
    rw [List.length_append, List.length_append, List.length_append] at hremain
    rw [argLoop]
    by_cases hmore : 8 ≤ it.remain
    · have hread := @getKey_eq fpu it a.key _ _ h
      have h₁ := h.advance
      obtain ⟨s, h₂, hg, hloop⟩ := @doWhileLoop_arg extra a.key.read _ _ fpu world a.value _ g
        h₁ turns (by omega)
      obtain ⟨it₃, hrest⟩ := argLoop_append fpu world extra hdata args s.g h₂ turns (by
        rw [argTags]
        omega)
      refine ⟨it₃, ?_⟩
      rw [if_pos hmore, hread, hstore, ← hg, ← hrest]
      simp only [Option.bind_eq_bind, Option.bind_some, hloop]
    · -- fewer than eight bytes are left, so this is the last argument and it sets nothing
      have hnone : a.value.settings = 0 := by
        by_contra hsets
        have hvalue := a.value.four_le_length_data hsets
        omega
      have hlast : args = [] := by
        cases args with
        | nil => rfl
        | cons b args =>
          have hkey' := b.key.four_le_length_data
          rw [List.flatMap_cons, List.length_append, List.length_append] at hremain
          omega
      have hnil : a.value.stores fpu extra 0 = [] := by
        rw [← List.length_eq_zero_iff, ArgValue.length_stores, hnone]
      refine ⟨it, ?_⟩
      rw [if_neg hmore, hstore, hnil, hlast]
      rfl

theorem argLoop_eq (fpu : FloatUnit) (world : ControlWorld) (extra : ℕ) (args : List ControlArg)
    {it : MsgIter} (g : Controls) (h : it.Before (argTags args) (argData args)) (turns : ℕ)
    (hturns : (argTags args).length < turns) :
    ∃ it', argLoop fpu (valueTurn fpu world extra) turns it g =
      some (it', storeArgs fpu world extra g args) := by
  have hnil : it.Before (argTags args ++ []) (argData args ++ []) := by
    rw [List.append_nil, List.append_nil]
    exact h
  exact argLoop_append fpu world extra (by decide) args g hnil turns hturns

/-! ## One control -/

/-- The value, the source and the rate of one control. -/
def Controls.control (g : Controls) (m : ℕ) : Word × ControlSource × ℕ :=
  (g.mControls m, g.mMapControls m, g.mControlRates m)

section Control

variable {world : ControlWorld} {g : Controls} {m : ℕ}

/-- The key of the first control. -/
def firstKey : ControlKey := .index 0#32

theorem at_firstKey (world : ControlWorld) {i : ℕ} (hi : i < 2 ^ 32) :
    ∃ inIndex, firstKey.at world i = some inIndex ∧ inIndex.toNat = i := by
  refine ⟨_, rfl, ?_⟩
  rw [BitVec.zero_add, BitVec.ofInt_natCast, BitVec.toNat_ofNat, Nat.mod_eq_of_lt hi]

theorem graphSetControl_frame (inIndex value : Word) :
    (g.graphSetControl inIndex value).mNumControls = g.mNumControls ∧
      (m ≠ inIndex.toNat → (g.graphSetControl inIndex value).control m = g.control m) := by
  unfold Controls.graphSetControl
  split_ifs with hout
  · exact ⟨rfl, fun _ => rfl⟩
  · refine ⟨rfl, fun hne => ?_⟩
    simp [Controls.control, Function.update_of_ne hne]

theorem mapTo_frame (inIndex bus : Word) (n rate : ℕ) (source : ControlSource) :
    (g.mapTo inIndex bus n rate source).mNumControls = g.mNumControls ∧
      (m ≠ inIndex.toNat → (g.mapTo inIndex bus n rate source).control m = g.control m) := by
  unfold Controls.mapTo
  split_ifs with hout hnegative hbus
  · exact ⟨rfl, fun _ => rfl⟩
  · refine ⟨rfl, fun hne => ?_⟩
    simp [Controls.control, Function.update_of_ne hne]
  · refine ⟨rfl, fun hne => ?_⟩
    simp [Controls.control, Function.update_of_ne hne]
  · exact ⟨rfl, fun _ => rfl⟩

/-- A store leaves the other controls alone. -/
theorem store_frame (world : ControlWorld) (g : Controls) (m : ℕ) {i : ℕ} (hi : i < 2 ^ 32) (store : ControlStore) :
    (g.store world firstKey i store).mNumControls = g.mNumControls ∧
      (m ≠ i → (g.store world firstKey i store).control m = g.control m) := by
  obtain ⟨inIndex, hat, rfl⟩ := at_firstKey world hi
  unfold Controls.store
  rw [hat]
  cases store with
  | set value => exact graphSetControl_frame inIndex value
  | map bus => exact mapTo_frame inIndex bus _ _ _
  | mapAudio bus => exact mapTo_frame inIndex bus _ _ _

/-- A value is set in its control. -/
theorem store_set (world : ControlWorld) (g : Controls) {i : ℕ} (hi : i < 2 ^ 32) (hm : i < g.mNumControls) (value : Word) :
    (g.store world firstKey i (.set value)).mControls i = value := by
  obtain ⟨inIndex, hat, rfl⟩ := at_firstKey world hi
  unfold Controls.store
  rw [hat]
  show (g.graphSetControl inIndex value).mControls _ = value
  unfold Controls.graphSetControl
  rw [if_neg (Nat.not_le.mpr hm)]
  exact Function.update_self ..

/-- A mapping to a bus changes the rate of its control. -/
theorem store_map (world : ControlWorld) (g : Controls) {i : ℕ} (hi : i < 2 ^ 32) (hm : i < g.mNumControls) {bus : Word}
    (hbus : bus < 0x80000000#32) (hcontrol : 2 ^ 31 ≤ world.mNumControlBusChannels)
    (haudio : 2 ^ 31 ≤ world.mNumAudioBusChannels) {store : ControlStore}
    (hstore : store = .map bus ∨ store = .mapAudio bus) :
    (g.store world firstKey i store).mControlRates i ≠ 0 := by
  obtain ⟨inIndex, hat, rfl⟩ := at_firstKey world hi
  have hlt : bus.toNat < 2 ^ 31 := BitVec.lt_def.mp hbus
  have hpositive : ¬ 0x80000000#32 ≤ bus := BitVec.not_le.mpr hbus
  have hmapTo : ∀ n rate source, 2 ^ 31 ≤ n →
      (g.mapTo inIndex bus n rate source).mControlRates inIndex.toNat = rate := by
    intro n rate source hn
    unfold Controls.mapTo
    rw [if_neg (Nat.not_le.mpr hm), if_neg hpositive, if_pos (Nat.lt_of_lt_of_le hlt hn)]
    exact Function.update_self ..
  unfold Controls.store
  rw [hat]
  rcases hstore with rfl | rfl
  · exact (hmapTo _ 1 _ hcontrol).trans_ne one_ne_zero
  · exact (hmapTo _ 2 _ haudio).trans_ne two_ne_zero

theorem storeAll_frame : ∀ (ps : List (ℕ × ControlStore)) (g : Controls),
    (∀ p ∈ ps, p.1 < 2 ^ 32) →
    (g.storeAll world firstKey ps).mNumControls = g.mNumControls ∧
      ((∀ p ∈ ps, p.1 ≠ m) → (g.storeAll world firstKey ps).control m = g.control m)
  | [], _, _ => ⟨rfl, fun _ => rfl⟩
  | p :: ps, g, hps => by
    have hp := store_frame world g m (hps p List.mem_cons_self) p.2
    have hrest := storeAll_frame ps (g.store world firstKey p.1 p.2)
      fun q hq => hps q (List.mem_cons_of_mem p hq)
    refine ⟨hrest.1.trans hp.1, fun hne => ?_⟩
    exact (hrest.2 fun q hq => hne q (List.mem_cons_of_mem p hq)).trans
      (hp.2 (hne p List.mem_cons_self).symm)

end Control

/-! ## `/s_new` against `/n_set` -/

/-- The run ends with these controls, when it may take enough turns. -/
def Gives (run : ℕ → Option (MsgIter × Controls)) (g : Controls) : Prop :=
  ∃ enough, ∀ turns, enough ≤ turns → (run turns).map Prod.snd = some g

theorem Gives.unique {run : ℕ → Option (MsgIter × Controls)} {g g' : Controls}
    (h : Gives run g) (h' : Gives run g') : g = g' := by
  obtain ⟨n, hn⟩ := h
  obtain ⟨n', hn'⟩ := h'
  have hg := hn (max n n') (Nat.le_max_left n n')
  rw [hn' (max n n') (Nat.le_max_right n n')] at hg
  exact (Option.some.inj hg).symm

/-- `/s_new` with the arguments makes the controls that `/n_set` with the arguments makes of a
synth without arguments. -/
def SameControls (mNumControls : ℕ) (mInitialControlValues : ℕ → Word)
    (args : List ControlArg) : Prop :=
  ∀ withArgs without set : MsgIter, withArgs.Before (argTags args) (argData args) →
    without.Before [] [] → set.Before (argTags args) (argData args) → ∃ g,
      Gives (fun turns => graphCtor fpu world turns mNumControls mInitialControlValues withArgs) g ∧
      Gives (fun turns =>
        (graphCtor fpu world turns mNumControls mInitialControlValues without).bind
          fun r => methNSet fpu world turns set r.2) g

variable {fpu world} {mNumControls : ℕ} {mInitialControlValues : ℕ → Word}
  {args : List ControlArg}

/-- `Graph_Ctor` moves the index behind a slip. -/
theorem graphCtor_gives {msg : MsgIter} (h : msg.Before (argTags args) (argData args)) :
    Gives (fun turns => graphCtor fpu world turns mNumControls mInitialControlValues msg)
      (storeArgs fpu world 1 (.init mNumControls mInitialControlValues) args) := by
  refine ⟨(argTags args).length + 1, ?_⟩
  intro turns hturns
  obtain ⟨it, hloop⟩ := argLoop_eq fpu world 1 args
    (.init mNumControls mInitialControlValues) h turns hturns
  simp only [graphCtor, ctorTurn_eq, hloop, Option.map_some]

/-- `meth_n_set` does not. -/
theorem methNSet_gives {without set : MsgIter} (hwithout : without.Before [] [])
    (hset : set.Before (argTags args) (argData args)) :
    Gives (fun turns => (graphCtor fpu world turns mNumControls mInitialControlValues without).bind
        fun r => methNSet fpu world turns set r.2)
      (storeArgs fpu world 0 (.init mNumControls mInitialControlValues) args) := by
  refine ⟨(argTags args).length + 1, ?_⟩
  intro turns hturns
  obtain ⟨it₀, hctor⟩ := argLoop_eq fpu world 1 []
    (.init mNumControls mInitialControlValues) hwithout turns (Nat.zero_lt_of_lt hturns)
  obtain ⟨it, hloop⟩ := argLoop_eq fpu world 0 args
    (.init mNumControls mInitialControlValues) hset turns hturns
  simp only [graphCtor, methNSet, ctorTurn_eq, nSetTurn_eq, hctor, Option.bind_some]
  exact congrArg (Option.map Prod.snd) hloop

theorem sameControls_iff (hargs : ∀ b ∈ argTags args, b ≠ 0#8) :
    SameControls fpu world mNumControls mInitialControlValues args ↔
      storeArgs fpu world 1 (.init mNumControls mInitialControlValues) args =
        storeArgs fpu world 0 (.init mNumControls mInitialControlValues) args := by
  constructor
  · intro h
    obtain ⟨it, -, hit⟩ := init_taggedPayload hargs (argData args)
    have hnone : ∀ b ∈ ([] : List Byte), b ≠ 0#8 := by simp
    obtain ⟨it₀, -, hit₀⟩ := init_taggedPayload hnone []
    obtain ⟨g, hctor, hset⟩ := h it it₀ it hit hit₀ hit
    rw [(graphCtor_gives hit).unique hctor, (methNSet_gives hit₀ hit).unique hset]
  · intro h withArgs without set hwith hwithout hset
    refine ⟨_, graphCtor_gives hwith, ?_⟩
    rw [h]
    exact methNSet_gives hwithout hset

theorem storeArgs_of_aligned (fpu : FloatUnit) (world : ControlWorld) : ∀ (args : List ControlArg) (g : Controls),
    (∀ a ∈ args, a.value.Aligned) →
    storeArgs fpu world 1 g args = storeArgs fpu world 0 g args
  | [], _, _ => rfl
  | a :: args, g, h => by
    have ha := ArgValue.stores_of_aligned fpu 1 0 a.value (h a List.mem_cons_self)
    have hrest := storeArgs_of_aligned fpu world args
      (g.storeAll world a.key.read (a.value.stores fpu 0 0))
      fun b hb => h b (List.mem_cons_of_mem a hb)
    show storeArgs fpu world 1 (g.storeAll world a.key.read (a.value.stores fpu 1 0)) args = _
    rw [ha]
    exact hrest

mutual

theorem ArgValue.tags_ne_zero : ∀ x : ArgValue, ∀ b ∈ x.tags, b ≠ 0#8
  | .int _ => by simp [ArgValue.tags, chr]
  | .float _ => by simp [ArgValue.tags, chr]
  | .string _ => by simp [ArgValue.tags, chr]
  | .array xs => by
    have hxs := ArgValue.tagsList_ne_zero xs
    intro b hb
    simp only [ArgValue.tags, List.mem_cons, List.mem_append, List.not_mem_nil, or_false] at hb
    rcases hb with rfl | hb | rfl
    · decide
    · exact hxs b hb
    · decide

theorem ArgValue.tagsList_ne_zero : ∀ xs : List ArgValue, ∀ b ∈ ArgValue.tagsList xs, b ≠ 0#8
  | [] => by simp [ArgValue.tagsList]
  | x :: xs => by
    intro b hb
    rcases List.mem_append.mp hb with hb | hb
    · exact ArgValue.tags_ne_zero x b hb
    · exact ArgValue.tagsList_ne_zero xs b hb

end

/-- Room for every bus number, and no parameter names. -/
def wideWorld : ControlWorld := ⟨2 ^ 31, 2 ^ 31, 64, fun _ => none⟩

/-- An argument that is not aligned sets another control in `/s_new`. -/
theorem not_sameControls (fpu : FloatUnit) (x : ArgValue) (hmaps : x.Maps) (hlen : x.tags.length < 2 ^ 32)
    (h : ¬ x.Aligned) : ∃ mNumControls mInitialControlValues,
    ¬ SameControls fpu wideWorld mNumControls mInitialControlValues [⟨.index 0#32, x⟩] := by
  obtain ⟨p, hp, hbeyond⟩ := ArgValue.exists_beyond fpu x 0 h
  have hsmall : ∀ extra ≤ 1, ∀ q ∈ x.stores fpu extra 0, q.1 < 2 ^ 32 := by
    intro extra hextra q hq
    have hq' := (ArgValue.stores_bounds fpu x hq).2
    have hadvance := x.advance_le
    rw [ArgValue.advance] at hq' hadvance
    have hmul : extra * x.slips ≤ 1 * x.slips := Nat.mul_le_mul_right _ hextra
    omega
  -- an initial value that the store changes, if it sets a value
  obtain ⟨initial, hinitial⟩ : ∃ initial, ∀ v, p.2 = .set v → v ≠ initial := by
    cases p.2 with
    | set v =>
      refine ⟨v + 1#32, fun v' hv' => ?_⟩
      cases hv'
      bv_omega
    | map bus => exact ⟨0#32, nofun⟩
    | mapAudio bus => exact ⟨0#32, nofun⟩
  refine ⟨p.1 + 1, fun _ => initial, ?_⟩
  have htags : ∀ b ∈ argTags [⟨.index 0#32, x⟩], b ≠ 0#8 := by
    intro b hb
    rw [argTags, List.flatMap_singleton, List.mem_cons] at hb
    rcases hb with rfl | hb
    · exact (by decide : chr 'i' ≠ 0#8)
    · exact x.tags_ne_zero b hb
  rw [sameControls_iff htags]
  intro hsame
  let g : Controls := .init (p.1 + 1) fun _ => initial
  have hsame' : g.storeAll wideWorld firstKey (x.stores fpu 1 0) =
      g.storeAll wideWorld firstKey (x.stores fpu 0 0) := hsame
  -- `/n_set` does not reach the control
  have hset : (g.storeAll wideWorld firstKey (x.stores fpu 0 0)).control p.1 =
      (initial, .control p.1, 0) := by
    apply (storeAll_frame _ g (hsmall 0 (Nat.zero_le 1))).2
    intro q hq
    have hq' := (ArgValue.stores_bounds fpu x hq).2
    rw [ArgValue.advance, Nat.zero_mul] at hq'
    omega
  -- and `/s_new` does, with this store alone
  obtain ⟨before, after, hsplit⟩ := List.append_of_mem hp
  have hpairwise := ArgValue.stores_pairwise fpu 1 x 0
  rw [hsplit, List.pairwise_append, List.pairwise_cons] at hpairwise
  have hsmall' := hsmall 1 (Nat.le_refl 1)
  rw [hsplit] at hsmall'
  let g₁ := g.storeAll wideWorld firstKey before
  have hnum : g₁.mNumControls = p.1 + 1 :=
    (storeAll_frame (m := 0) before g fun q hq => hsmall' q (List.mem_append_left _ hq)).1
  have hstored : (g.storeAll wideWorld firstKey (x.stores fpu 1 0)).control p.1 =
      (g₁.store wideWorld firstKey p.1 p.2).control p.1 := by
    rw [hsplit, Controls.storeAll_append]
    apply (storeAll_frame after (g₁.store wideWorld firstKey p.1 p.2) ?_).2
    · intro q hq
      have hlt := hpairwise.2.1.1 q hq
      omega
    · exact fun q hq => hsmall' q (List.mem_append_right _ (List.mem_cons_of_mem p hq))
  have hp32 := hsmall 1 (Nat.le_refl 1) p hp
  have hcontrol := hstored.symm.trans ((congrArg (Controls.control · p.1) hsame').trans hset)
  rcases ArgValue.maps_stores fpu x hmaps hp with ⟨v, hv⟩ | ⟨bus, hbus, hstore⟩
  · rw [hv] at hcontrol
    have hvalue := store_set wideWorld g₁ hp32 (by omega) v
    rw [(Prod.mk.inj hcontrol).1] at hvalue
    exact hinitial v hv hvalue.symm
  · have hrate := store_map wideWorld g₁ hp32 (by omega) hbus
      (Nat.le_refl _) (Nat.le_refl _) hstore
    exact hrate (Prod.mk.inj (Prod.mk.inj hcontrol).2).2

/-- The two commands agree on arguments in which nothing is set behind a slip; an argument for
which this fails shows in the controls, when its strings map to buses. -/
theorem sameControls_of_aligned (fpu : FloatUnit) :
    (∀ (world : ControlWorld) (mNumControls : ℕ) (mInitialControlValues : ℕ → Word)
      (args : List ControlArg), (∀ a ∈ args, a.value.Aligned) →
      SameControls fpu world mNumControls mInitialControlValues args) ∧
    ∀ x : ArgValue, x.Maps → x.tags.length < 2 ^ 32 → ¬ x.Aligned →
      ∃ mNumControls mInitialControlValues,
        ¬ SameControls fpu wideWorld mNumControls mInitialControlValues [⟨.index 0#32, x⟩] := by
  refine ⟨?_, not_sameControls fpu⟩
  intro world mNumControls mInitialControlValues args hargs
  have hsame := storeArgs_of_aligned fpu world args
    (.init mNumControls mInitialControlValues) hargs
  intro withArgs without set hwith hwithout hset
  refine ⟨_, graphCtor_gives hwith, ?_⟩
  rw [hsame]
  exact methNSet_gives hwithout hset

/-- `[1.0, [7, "c3"]]`, from the first control on. -/
def alignedArgs : List ControlArg :=
  [⟨.index 0#32, .array [.float 0x3F800000#32,
    .array [.int 7#32, .string ⟨[chr 'c', chr '3'], by decide⟩]]⟩]

/-- `[[1, 2], 3]`. -/
def slippingValue : ArgValue := .array [.array [.int 1#32, .int 2#32], .int 3#32]

theorem slippingValue_not_aligned : slippingValue.Maps ∧ slippingValue.tags.length < 2 ^ 32 ∧
    ¬ slippingValue.Aligned := by
  refine ⟨?_, ?_, ?_⟩
  · simp [slippingValue, ArgValue.Maps, ArgValue.MapsList]
  · simp [slippingValue, ArgValue.tags, ArgValue.tagsList]
  · simp [slippingValue, ArgValue.Aligned, ArgValue.AlignedList, ArgValue.slips,
      ArgValue.settings, ArgValue.settingsList]

theorem sameControls_of_aligned_nested :
    let fpu : FloatUnit := ⟨id, id, fun bits => bits.setWidth 32⟩
    (∃ it it₀ g, MsgIter.init 28 (taggedPayload (argTags alignedArgs) (argData alignedArgs)) = some it ∧
      MsgIter.init 4 (taggedPayload [] []) = some it₀ ∧
      Gives (fun turns => graphCtor fpu wideWorld turns 4 (fun _ => 0#32) it) g ∧
      Gives (fun turns => (graphCtor fpu wideWorld turns 4 (fun _ => 0#32) it₀).bind
        fun r => methNSet fpu wideWorld turns it r.2) g) ∧
    ∃ mNumControls mInitialControlValues,
      ¬ SameControls fpu wideWorld mNumControls mInitialControlValues
        [⟨.index 0#32, slippingValue⟩] := by
  intro fpu
  obtain ⟨hsame, hdiffer⟩ := sameControls_of_aligned fpu
  constructor
  · have htags : ∀ b ∈ argTags alignedArgs, b ≠ 0#8 := by decide
    obtain ⟨it, hinit, hit⟩ := init_taggedPayload htags (argData alignedArgs)
    have hnone : ∀ b ∈ ([] : List Byte), b ≠ 0#8 := by simp
    obtain ⟨it₀, hinit₀, hit₀⟩ := init_taggedPayload hnone []
    have haligned : ∀ a ∈ alignedArgs, a.value.Aligned := by
      simp [alignedArgs, ArgValue.Aligned, ArgValue.AlignedList, ArgValue.slips,
        ArgValue.settingsList]
    obtain ⟨g, hctor, hset⟩ := hsame wideWorld 4 (fun _ => 0#32) alignedArgs haligned it it₀ it
      hit hit₀ hit
    exact ⟨it, it₀, g, hinit, hinit₀, hctor, hset⟩
  · obtain ⟨hmaps, hlen, hslips⟩ := slippingValue_not_aligned
    exact hdiffer slippingValue hmaps hlen hslips

/-- `Graph_Ctor` sets control 3 to the last element of `[[1, 2], 3]`, `meth_n_set` control 2. -/
theorem not_sameControls_nested :
    ¬ ∀ (fpu : FloatUnit) (world : ControlWorld) (mNumControls : ℕ)
      (mInitialControlValues : ℕ → Word) (args : List ControlArg),
      SameControls fpu world mNumControls mInitialControlValues args := by
  intro h
  obtain ⟨hmaps, hlen, hslips⟩ := slippingValue_not_aligned
  obtain ⟨mNumControls, mInitialControlValues, hnot⟩ :=
    not_sameControls ⟨id, id, fun bits => bits.setWidth 32⟩ slippingValue hmaps hlen hslips
  exact hnot (h _ _ _ _ _)

end PoopWorms.Server
