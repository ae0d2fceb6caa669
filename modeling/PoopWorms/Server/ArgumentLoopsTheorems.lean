import PoopWorms.Server.ArgumentLoops
import PoopWorms.Server.ControlArgsTheorems

/-!
# The loops over the arguments end

`Stands it n` says that an iterator stands in front of `n` arguments whose bytes are there. Each
read keeps this, with one argument fewer when bytes are left, so that a loop that reads something
in every turn ends.
-/

namespace PoopWorms.Server

open Octets Osc

/-! ## Arguments -/

/-- An argument: a word, a string, or a tag without bytes. -/
inductive ArgItem
  | int (n : Word)
  | float (bits : Word)
  | string (s : OscString)
  | mark (tag : Byte) (h : tag ∉ [0#8, chr 'i', chr 'f', chr 's', chr 'd', chr 'b'])

namespace ArgItem

def tag : ArgItem → Byte
  | int _ => chr 'i'
  | float _ => chr 'f'
  | string _ => chr 's'
  | mark tag _ => tag

def data : ArgItem → List Byte
  | int n => OSCValue.beBytes n
  | float bits => OSCValue.beBytes bits
  | string s => padded s.1
  | mark _ _ => []

theorem eq_string {x : ArgItem} (h : x.tag = chr 's') : ∃ s, x = .string s := by
  cases x with
  | int n => exact absurd h (by decide : chr 'i' ≠ chr 's')
  | float bits => exact absurd h (by decide : chr 'f' ≠ chr 's')
  | string s => exact ⟨s, rfl⟩
  | mark tag hmark =>
    simp only [List.mem_cons, not_or] at hmark
    exact absurd h hmark.2.2.2.1

theorem tag_ne_zero (x : ArgItem) : x.tag ≠ 0#8 := by
  cases x with
  | int n => exact (by decide : chr 'i' ≠ 0#8)
  | float bits => exact (by decide : chr 'f' ≠ 0#8)
  | string s => exact (by decide : chr 's' ≠ 0#8)
  | mark tag h =>
    simp only [List.mem_cons, not_or] at h
    exact h.1

end ArgItem

def itemTags (items : List ArgItem) : List Byte := items.map ArgItem.tag

def itemData (items : List ArgItem) : List Byte := items.flatMap ArgItem.data

/-! ## One read -/

namespace MsgIter.Before

variable {fpu : FloatUnit} {it : MsgIter} {x : ArgItem} {tags data : List Byte}

theorem nextTagOr_head (h : it.Before tags data) {defaultTag : Byte} :
    it.nextTagOr defaultTag = some (tags.headD 0#8) := by
  obtain ⟨t, ht, -⟩ := h.tags
  unfold MsgIter.nextTagOr
  rw [ht]
  exact h.nextTag_head

/-- A typed read of an argument. -/
theorem geti_item (h : it.Before (x.tag :: tags) (x.data ++ data)) (hmore : 0 < it.remain)
    (d : Word) : ∃ v, it.geti fpu d = some (v, (it.skip x.data.length).next) := by
  unfold MsgIter.geti
  rw [if_neg (Int.not_le.mpr hmore), if_pos h.isSome_tags, h.nextTag_eq]
  cases x with
  | int n => exact ⟨_, by rw [h.oscInt_eq rfl]; rfl⟩
  | float bits => exact ⟨_, by rw [h.oscInt_eq rfl]; rfl⟩
  | string s =>
    refine ⟨d, ?_⟩
    have hskip : oscStrskip it.rest = some (padded s.1).length := by
      rw [h.data, ArgItem.data, oscStrskip_padded s.2]
    rw [hskip]
    rfl
  | mark tag hmark =>
    refine ⟨d, ?_⟩
    simp only [List.mem_cons, List.not_mem_nil, or_false, not_or] at hmark
    simp [ArgItem.tag, ArgItem.data, hmark, MsgIter.skip]

theorem getf_item (h : it.Before (x.tag :: tags) (x.data ++ data)) (hmore : 0 < it.remain)
    (d : Word) : ∃ v, it.getf fpu d = some (v, (it.skip x.data.length).next) := by
  unfold MsgIter.getf
  rw [if_neg (Int.not_le.mpr hmore), if_pos h.isSome_tags, h.nextTag_eq]
  cases x with
  | int n => exact ⟨_, by rw [h.oscInt_eq rfl]; rfl⟩
  | float bits => exact ⟨_, by rw [h.oscInt_eq rfl]; rfl⟩
  | string s =>
    refine ⟨d, ?_⟩
    have hskip : oscStrskip it.rest = some (padded s.1).length := by
      rw [h.data, ArgItem.data, oscStrskip_padded s.2]
    rw [hskip]
    rfl
  | mark tag hmark =>
    refine ⟨d, ?_⟩
    simp only [List.mem_cons, List.not_mem_nil, or_false, not_or] at hmark
    simp [ArgItem.tag, ArgItem.data, hmark, MsgIter.skip]

/-- `gets` of another argument than a string leaves its bytes where they are. -/
theorem gets_item (h : it.Before (x.tag :: tags) (x.data ++ data)) (hmore : 0 < it.remain) :
    (∃ s, x = .string s ∧ it.gets none = some (some s.1, (it.skip x.data.length).next)) ∨
      x.tag ≠ chr 's' ∧ it.gets none = some (none, it.next) := by
  have hother : x.tag ≠ chr 's' → it.gets none = some (none, it.next) := by
    intro htag
    unfold MsgIter.gets
    rw [if_neg (Int.not_le.mpr hmore), if_pos h.isSome_tags, h.nextTag_eq]
    exact if_neg htag
  have hi : chr 'i' ≠ chr 's' := by decide
  have hf : chr 'f' ≠ chr 's' := by decide
  cases x with
  | int n => exact .inr ⟨hi, hother hi⟩
  | float bits => exact .inr ⟨hf, hother hf⟩
  | string s => exact .inl ⟨s, rfl, h.gets s.2 none⟩
  | mark tag hmark =>
    have htag : (ArgItem.mark tag hmark).tag ≠ chr 's' := by
      intro hs
      obtain ⟨s, hstring⟩ := ArgItem.eq_string hs
      cases hstring
    exact .inr ⟨htag, hother htag⟩

end MsgIter.Before

namespace MsgIter

/-- The iterator stands in front of the bytes `data`, and there are no type tags. -/
structure Untagged (it : MsgIter) (data : List Byte) : Prop where
  tags : it.tags = none
  data : it.rest = data
  size : it.size = it.data.length
  rdpos : it.rdpos ≤ it.size

section Untagged

variable {it : MsgIter} {data : List Byte}

theorem Untagged.remain_eq (h : it.Untagged data) : it.remain = data.length := by
  have hlen := congrArg List.length h.data
  have hsize := h.size
  have hrdpos := h.rdpos
  simp only [rest, List.length_drop] at hlen
  unfold remain
  omega

theorem Untagged.isSome_tags (h : it.Untagged data) : ¬ it.tags.isSome = true := by
  simp [h.tags]

theorem Untagged.skip (h : it.Untagged data) {n : ℕ} (hn : n ≤ data.length) :
    ((it.skip n).next).Untagged (data.drop n) := by
  have hremain := h.remain_eq
  refine ⟨h.tags, ?_, h.size, ?_⟩
  · rw [← h.data]
    show it.data.drop (it.rdpos + n) = (it.data.drop it.rdpos).drop n
    rw [List.drop_drop]
  · unfold remain at hremain
    show it.rdpos + n ≤ it.size
    omega

theorem Untagged.nextTagOr_eq (h : it.Untagged data) (tag : Byte) :
    it.nextTagOr tag = some tag := by
  unfold nextTagOr
  rw [h.tags]

end Untagged

end MsgIter

/-! ## Where an iterator stands -/

/-- In front of `n` arguments, behind which type tags without bytes may follow, but no `'s'`; or
in front of `n` words without type tags, the last of which ends with a NUL if there are strings. -/
inductive Stands (strings : Bool) (it : MsgIter) : ℕ → Prop
  | tagged (items : List ArgItem) (tail : List Byte) (htail : chr 's' ∉ tail)
      (h : it.Before (itemTags items ++ tail) (itemData items)) : Stands strings it items.length
  | untagged (n : ℕ) (data : List Byte) (h : it.Untagged data) (hlen : data.length = 4 * n)
      (hlast : strings = true → ∀ b ∈ data.getLast?, b = 0#8) : Stands strings it n

section Stands

variable {fpu : FloatUnit} {strings : Bool} {it : MsgIter} {n : ℕ}

theorem oscInt_of_length {bs : List Byte} (h : 4 ≤ bs.length) : ∃ v, oscInt bs = some v := by
  match bs, h with
  | a :: b :: c :: d :: bs, _ => exact ⟨_, rfl⟩

theorem Stands.skip_untagged {data : List Byte} (h : it.Untagged data)
    (hlast : strings = true → ∀ b ∈ data.getLast?, b = 0#8) {j m : ℕ}
    (hlen : data.length = 4 * (j + m)) : Stands strings ((it.skip (4 * j)).next) m := by
  refine .untagged m _ (h.skip (by omega)) ?_ ?_
  · rw [List.length_drop]
    omega
  · intro hstrings b hb
    rw [List.getLast?_drop] at hb
    split_ifs at hb with hout
    · cases hb
    · exact hlast hstrings b hb

/-- `OSCstrskip` moves by whole words. -/
theorem oscStrskip_eq_some : ∀ {bs : List Byte} {k : ℕ}, oscStrskip bs = some k →
    ∃ j, k = 4 * j ∧ 0 < j ∧ k ≤ bs.length
  | a :: b :: c :: d :: bs, k, hk => by
    rw [oscStrskip] at hk
    split_ifs at hk with hd
    · obtain ⟨k', hk', rfl⟩ := Option.map_eq_some_iff.mp hk
      obtain ⟨j, rfl, hj, hle⟩ := oscStrskip_eq_some hk'
      refine ⟨j + 1, by omega, by omega, ?_⟩
      simp only [List.length_cons]
      omega
    · cases hk
      refine ⟨1, rfl, Nat.one_pos, ?_⟩
      simp only [List.length_cons]
      omega

/-- It stops at the last byte at the latest, if that is a NUL. -/
theorem oscStrskip_isSome : ∀ (n : ℕ) (bs : List Byte), bs.length = 4 * (n + 1) →
    bs.getLast? = some 0#8 → (oscStrskip bs).isSome
  | n, a :: b :: c :: d :: bs, hlen, hlast => by
    rw [oscStrskip]
    split_ifs with hd
    · cases n with
      | zero =>
        have hnil : bs = [] := by
          rw [← List.length_eq_zero_iff]
          simp only [List.length_cons] at hlen
          omega
        subst hnil
        exact absurd (Option.some.inj hlast) hd
      | succ n =>
        have hlen' : bs.length = 4 * (n + 1) := by
          simp only [List.length_cons] at hlen
          omega
        have hlast' : bs.getLast? = some 0#8 := by
          rw [← hlast]
          cases bs with
          | nil => simp at hlen'
          | cons e bs => simp [List.getLast?_cons_cons]
        rw [Option.isSome_map]
        exact oscStrskip_isSome n bs hlen' hlast'
    · rfl

theorem Stands.remain_pos (h : Stands strings it n) (hmore : 0 < it.remain) : 0 < n := by
  cases h with
  | tagged items tail htail h =>
    cases items with
    | nil =>
      have hremain := h.remain_eq
      simp only [itemData, List.flatMap_nil, List.length_nil] at hremain
      omega
    | cons x items => exact Nat.zero_lt_succ _
  | untagged _ data h hlen hlast =>
    have hremain := h.remain_eq
    omega

theorem Stands.remain_nonneg (h : Stands strings it n) : 0 ≤ it.remain := by
  cases h with
  | tagged items tail htail h =>
    rw [h.remain_eq]
    exact Int.natCast_nonneg _
  | untagged _ data h hlen hlast =>
    rw [h.remain_eq]
    exact Int.natCast_nonneg _

/-- What `geti` and `getf` have in common: a word or an argument is read, if bytes are left. -/
structure Getter (get : MsgIter → Option (Word × MsgIter)) : Prop where
  atEnd : ∀ {it : MsgIter}, it.remain ≤ 0 → ∃ v, get it = some (v, it)
  item : ∀ {it : MsgIter} {x : ArgItem} {tags data : List Byte},
    it.Before (x.tag :: tags) (x.data ++ data) → 0 < it.remain →
    ∃ v, get it = some (v, (it.skip x.data.length).next)
  word : ∀ {it : MsgIter} {data : List Byte}, it.Untagged data → 4 ≤ data.length →
    ∃ v, get it = some (v, (it.skip 4).next)

theorem getter_geti (d : Word) : Getter fun it => it.geti fpu d where
  atEnd h := ⟨d, if_pos h⟩
  item h hmore := h.geti_item hmore d
  word {it data} h hlen := by
    obtain ⟨v, hv⟩ := oscInt_of_length hlen
    have hremain := h.remain_eq
    refine ⟨v, ?_⟩
    unfold MsgIter.geti
    rw [if_neg (by omega), if_neg h.isSome_tags, h.data, hv]
    rfl

theorem getter_getf (d : Word) : Getter fun it => it.getf fpu d where
  atEnd h := ⟨d, if_pos h⟩
  item h hmore := h.getf_item hmore d
  word {it data} h hlen := by
    obtain ⟨v, hv⟩ := oscInt_of_length hlen
    have hremain := h.remain_eq
    refine ⟨v, ?_⟩
    unfold MsgIter.getf
    rw [if_neg (by omega), if_neg h.isSome_tags, h.data, hv]
    rfl

/-- A read takes one argument, if there is one. -/
theorem Stands.get {get : MsgIter → Option (Word × MsgIter)} (hget : Getter get)
    (h : Stands strings it n) :
    ∃ v it' m, get it = some (v, it') ∧ Stands strings it' m ∧ m ≤ n ∧
      (0 < it.remain → m < n) := by
  by_cases hmore : 0 < it.remain
  · have hpos := h.remain_pos hmore
    cases h with
    | tagged items tail htail hbefore =>
      cases items with
      | nil => exact absurd hpos (Nat.lt_irrefl 0)
      | cons x items =>
        obtain ⟨v, hv⟩ := hget.item hbefore hmore
        refine ⟨v, _, items.length, hv, .tagged items tail htail hbefore.advance, ?_, ?_⟩
        · exact Nat.le_succ _
        · exact fun _ => Nat.lt_succ_self _
    | untagged _ data hwords hlen hlast =>
      obtain ⟨v, hv⟩ := hget.word hwords (by omega)
      have hlen' : data.length = 4 * (1 + (n - 1)) := by omega
      have hstands : Stands strings ((it.skip 4).next) (n - 1) :=
        Stands.skip_untagged hwords hlast hlen'
      exact ⟨v, _, n - 1, hv, hstands, Nat.sub_le _ _, fun _ => by omega⟩
  · obtain ⟨v, hv⟩ := hget.atEnd (Int.not_lt.mp hmore)
    exact ⟨v, it, n, hv, h, Nat.le_refl n, fun hpos => absurd hpos hmore⟩

/-- `gets` takes a string, or there is none; without type tags the string has to end. -/
theorem Stands.gets (h : Stands strings it n)
    (hend : it.tags = none → 0 < it.remain → (oscStrskip it.rest).isSome) :
    (∃ it', it.gets none = some (none, it')) ∨
      ∃ s it' m, it.gets none = some (some s, it') ∧ Stands strings it' m ∧ m ≤ n ∧
        (0 < it.remain → m < n) := by
  by_cases hmore : 0 < it.remain
  · have hpos := h.remain_pos hmore
    cases h with
    | tagged items tail htail hbefore =>
      cases items with
      | nil => exact absurd hpos (Nat.lt_irrefl 0)
      | cons x items =>
        rcases hbefore.gets_item hmore with ⟨s, rfl, hgets⟩ | ⟨-, hgets⟩
        · refine .inr ⟨s.1, _, items.length, hgets, .tagged items tail htail hbefore.advance, ?_, ?_⟩
          · exact Nat.le_succ _
          · exact fun _ => Nat.lt_succ_self _
        · exact .inl ⟨_, hgets⟩
    | untagged _ data hwords hlen hlast =>
      obtain ⟨k, hskip⟩ := Option.isSome_iff_exists.mp (hend hwords.tags hmore)
      obtain ⟨j, rfl, hj, hle⟩ := oscStrskip_eq_some hskip
      rw [hwords.data] at hle
      have hlen' : data.length = 4 * (j + (n - j)) := by omega
      refine .inr ⟨it.cString, _, n - j, ?_, Stands.skip_untagged hwords hlast hlen', ?_, ?_⟩
      · unfold MsgIter.gets
        rw [if_neg (Int.not_le.mpr hmore), if_neg hwords.isSome_tags, hskip]
        rfl
      · omega
      · exact fun _ => by omega
  · exact .inl ⟨it, if_pos (Int.not_lt.mp hmore)⟩

/-- Where the last word ends with a NUL, every string ends. -/
theorem Stands.oscStrskip_isSome (h : Stands true it n) (htags : it.tags = none)
    (hmore : 0 < it.remain) : (oscStrskip it.rest).isSome := by
  cases h with
  | tagged items tail htail h => exact absurd htags (Option.isSome_iff_ne_none.mp h.isSome_tags)
  | untagged _ data h hlen hlast =>
    have hremain := h.remain_eq
    obtain ⟨b, hb⟩ : ∃ b, data.getLast? = some b := by
      rw [← Option.isSome_iff_exists, List.getLast?_isSome]
      exact List.ne_nil_of_length_pos (by omega)
    rw [h.data]
    apply PoopWorms.Server.oscStrskip_isSome (n - 1) data
    · omega
    · rw [hb, hlast rfl b hb]

/-- Where the next tag is `'s'`, there is a string. -/
theorem Stands.ifString (h : Stands strings it n) :
    ∃ tag, it.nextTagOr (chr 'i') = some tag ∧ (tag = chr 's' →
      ∃ s it' m, it.gets none = some (some s, it') ∧ Stands strings it' m ∧ m < n) := by
  cases h with
  | tagged items tail htail hbefore =>
    refine ⟨(itemTags items ++ tail).headD 0#8, hbefore.nextTagOr_head, ?_⟩
    intro hs
    cases items with
    | nil =>
      exfalso
      cases tail with
      | nil => exact absurd hs (by decide)
      | cons tag tail => exact htail (hs ▸ List.mem_cons_self)
    | cons x items =>
      obtain ⟨s, rfl⟩ := ArgItem.eq_string hs
      exact ⟨s.1, _, items.length, hbefore.gets s.2 none,
        .tagged items tail htail hbefore.advance, Nat.lt_succ_self _⟩
  | untagged _ data h hlen hlast =>
    refine ⟨chr 'i', h.nextTagOr_eq _, ?_⟩
    intro hs
    exact absurd hs (by decide)

end Stands

/-! ## Turns -/

namespace Reads

variable {σ : Type}

/-- A tree that does not go on without the string that it asks for, and asks for none in a payload
that has no strings. -/
def Ok (strings : Bool) : Reads σ → Prop
  | leave | ended | again _ => True
  | geti _ k | getf k => ∀ v, (k v).Ok strings
  | gets k => strings = true ∧ k none = leave ∧ ∀ s, (k (some s)).Ok strings
  | ifString yes no => (∀ s, (yes s).Ok strings) ∧ no.Ok strings
  | remain k => ∀ r, (k r).Ok strings

@[simp] theorem ok_geti {strings : Bool} {d : Word} {k : Word → Reads σ} :
    (geti d k).Ok strings ↔ ∀ v, (k v).Ok strings := Iff.rfl

@[simp] theorem ok_getf {strings : Bool} {k : Word → Reads σ} :
    (getf k).Ok strings ↔ ∀ v, (k v).Ok strings := Iff.rfl

@[simp] theorem ok_gets {strings : Bool} {k : Option (List Byte) → Reads σ} :
    (gets k).Ok strings ↔
      strings = true ∧ k none = leave ∧ ∀ s, (k (some s)).Ok strings := Iff.rfl

@[simp] theorem ok_ifString {strings : Bool} {yes : List Byte → Reads σ} {no : Reads σ} :
    (ifString yes no).Ok strings ↔ (∀ s, (yes s).Ok strings) ∧ no.Ok strings := Iff.rfl

/-- Where bytes are left, something is read before the turn is over. -/
def Progress : Reads σ → Prop
  | leave | ended | geti _ _ | getf _ | gets _ => True
  | again _ => False
  | ifString _ no => no.Progress
  | remain k => ∀ r, 0 < r → (k r).Progress

/-- Where no bytes are left, the loop is over. -/
def Turn : Reads σ → Prop
  | leave | ended => True
  | again _ | geti _ _ | getf _ | gets _ | ifString _ _ => False
  | remain k => (∀ r, 0 < r → (k r).Progress) ∧ (k 0).Turn

variable {fpu : FloatUnit} {strings : Bool} {it : MsgIter} {n : ℕ}

theorem Turn.progress : ∀ {r : Reads σ}, r.Turn → r.Progress
  | leave, _ => trivial
  | ended, _ => trivial
  | remain _, h => h.1

/-- What the reads of a turn do to an iterator that stands in front of `n` arguments. -/
def Reaches (fpu : FloatUnit) (strings : Bool) (r : Reads σ) (it : MsgIter) (n : ℕ) : Prop :=
  ∃ it' e, r.exec fpu it = some (it', e) ∧ ∀ s, e = .again s →
    ∃ m, Stands strings it' m ∧ m ≤ n ∧ (r.Progress → 0 < it.remain → m < n)

theorem reaches_get {get : MsgIter → Option (Word × MsgIter)} (hget : Getter get)
    {r : Reads σ} {k : Word → Reads σ}
    (hexec : ∀ it, r.exec fpu it = (get it).bind fun p => (k p.1).exec fpu p.2)
    (hk : ∀ v it n, Stands strings it n → (k v).Reaches fpu strings it n)
    (h : Stands strings it n) : r.Reaches fpu strings it n := by
  obtain ⟨v, it₁, m₁, hv, h₁, hle, hlt⟩ := h.get hget
  obtain ⟨it₂, e, hexec₂, hend⟩ := hk v it₁ m₁ h₁
  refine ⟨it₂, e, ?_, ?_⟩
  · rw [hexec, hv]
    exact hexec₂
  · intro s hs
    obtain ⟨m₂, h₂, hle₂, -⟩ := hend s hs
    refine ⟨m₂, h₂, hle₂.trans hle, fun _ hmore => ?_⟩
    exact Nat.lt_of_le_of_lt hle₂ (hlt hmore)

theorem reaches_gets {k : Option (List Byte) → Reads σ} (hnone : k none = leave)
    (hk : ∀ s it n, Stands strings it n → (k (some s)).Reaches fpu strings it n)
    (h : Stands strings it n)
    (hend : it.tags = none → 0 < it.remain → (oscStrskip it.rest).isSome) :
    (gets k).Reaches fpu strings it n := by
  rcases h.gets hend with ⟨it₁, hgets⟩ | ⟨s, it₁, m₁, hgets, h₁, hle, hlt⟩
  · refine ⟨it₁, .left, ?_, nofun⟩
    rw [exec, hgets]
    show (k none).exec fpu it₁ = _
    rw [hnone]
    rfl
  · obtain ⟨it₂, e, hexec, hreach⟩ := hk s it₁ m₁ h₁
    refine ⟨it₂, e, ?_, ?_⟩
    · rw [exec, hgets]
      exact hexec
    · intro s' hs'
      obtain ⟨m₂, h₂, hle₂, -⟩ := hreach s' hs'
      exact ⟨m₂, h₂, hle₂.trans hle, fun _ hmore => Nat.lt_of_le_of_lt hle₂ (hlt hmore)⟩

theorem reaches_of_ok : ∀ (r : Reads σ) {it : MsgIter} {n : ℕ}, r.Ok strings →
    Stands strings it n → r.Reaches fpu strings it n
  | leave, it, n, _, h => ⟨it, .left, rfl, nofun⟩
  | ended, it, n, _, h => ⟨it, .ended, rfl, nofun⟩
  | again s, it, n, _, h => ⟨it, .again s, rfl, fun _ _ => ⟨n, h, Nat.le_refl n, nofun⟩⟩
  | geti d k, it, n, hok, h =>
    reaches_get (getter_geti d) (fun _ => rfl) (fun v _ _ h => reaches_of_ok (k v) (hok v) h) h
  | getf k, it, n, hok, h =>
    reaches_get (getter_getf 0#32) (fun _ => rfl) (fun v _ _ h => reaches_of_ok (k v) (hok v) h) h
  | gets k, it, n, ⟨hstrings, hnone, hok⟩, h => by
    have hlast : Stands true it n := hstrings ▸ h
    exact reaches_gets hnone (fun s _ _ h => reaches_of_ok (k (some s)) (hok s) h) h
      hlast.oscStrskip_isSome
  | ifString yes no, it, n, ⟨hyes, hno⟩, h => by
    obtain ⟨tag, htag, hstring⟩ := h.ifString
    by_cases hs : tag = chr 's'
    · obtain ⟨s, it₁, m₁, hgets, h₁, hlt⟩ := hstring hs
      obtain ⟨it₂, e, hexec, hend⟩ := reaches_of_ok (yes s) (hyes s) h₁
      refine ⟨it₂, e, ?_, ?_⟩
      · rw [exec, htag]
        simp only [Option.bind_eq_bind, Option.bind_some, if_pos hs, hgets]
        exact hexec
      · intro s' hs'
        obtain ⟨m₂, h₂, hle₂, -⟩ := hend s' hs'
        exact ⟨m₂, h₂, hle₂.trans hlt.le, fun _ _ => Nat.lt_of_le_of_lt hle₂ hlt⟩
    · obtain ⟨it₂, e, hexec, hend⟩ := reaches_of_ok no hno h
      refine ⟨it₂, e, ?_, hend⟩
      rw [exec, htag]
      simp only [Option.bind_eq_bind, Option.bind_some, if_neg hs]
      exact hexec
  | remain k, it, n, hok, h => by
    obtain ⟨it₂, e, hexec, hend⟩ := reaches_of_ok (k it.remain) (hok it.remain) h
    refine ⟨it₂, e, hexec, ?_⟩
    intro s hs
    obtain ⟨m, hm, hle, hlt⟩ := hend s hs
    exact ⟨m, hm, hle, fun hprogress hmore => hlt (hprogress it.remain hmore) hmore⟩

/-- At the end of the bytes a turn is the last one. -/
theorem turn_atEnd : ∀ (r : Reads σ) {it : MsgIter}, r.Turn → it.remain = 0 →
    ∀ it' s, r.exec fpu it ≠ some (it', .again s)
  | leave, _, _, _, _, _ => nofun
  | ended, _, _, _, _, _ => nofun
  | remain k, it, h, hend, it', s => by
    have hlast := turn_atEnd (k 0) h.2 hend it' s
    rw [exec, hend]
    exact hlast

end Reads

/-! ## Loops -/

namespace ArgProgram

variable {σ : Type} {p : ArgProgram σ} {fpu : FloatUnit} {strings : Bool}

/-- Every turn reads something, and the last one does not go on. -/
structure Ends (strings : Bool) (p : ArgProgram σ) : Prop where
  ok : ∀ s, (p.turn s).Ok strings
  turn : ∀ s, (p.turn s).Turn

theorem Ends.loop_again (hp : p.Ends strings) : ∀ (n : ℕ) {it : MsgIter} (s : σ),
    Stands strings it n →
    ∃ enough, ∀ turns, enough ≤ turns → (p.loop fpu turns it (.again s)).isSome := by
  intro n
  induction n using Nat.strong_induction_on with
  | _ n ih =>
    intro it s h
    have hreaches : (p.turn s).Reaches fpu strings it n := Reads.reaches_of_ok _ (hp.ok s) h
    obtain ⟨it', e, hexec, hend⟩ := hreaches
    have hstep : ∀ turns, p.loop fpu (turns + 1) it (.again s) = p.loop fpu turns it' e := by
      intro turns
      rw [loop, hexec]
      rfl
    cases e with
    | left =>
      refine ⟨1, fun turns hturns => ?_⟩
      obtain ⟨k, rfl⟩ := Nat.exists_eq_add_of_le' hturns
      rw [hstep, loop]
      rfl
    | ended =>
      refine ⟨1, fun turns hturns => ?_⟩
      obtain ⟨k, rfl⟩ := Nat.exists_eq_add_of_le' hturns
      rw [hstep, loop]
      rfl
    | again s' =>
      obtain ⟨m, h', -, hlt⟩ := hend s' rfl
      have hmore : 0 < it.remain := by
        have hnonneg := h.remain_nonneg
        by_contra hover
        exact Reads.turn_atEnd (p.turn s) (hp.turn s) (by omega) it' s' hexec
      obtain ⟨enough, hends⟩ := ih m (hlt (hp.turn s).progress hmore) s' h'
      refine ⟨enough + 1, fun turns hturns => ?_⟩
      obtain ⟨k, rfl⟩ := Nat.exists_eq_add_of_le' (Nat.le_trans (Nat.le_add_left 1 enough) hturns)
      rw [hstep]
      exact hends k (Nat.le_of_succ_le_succ hturns)

end ArgProgram

/-! ## The payload -/

/-- Type tags with their bytes, behind which more type tags may follow, though no `'s'`. -/
def TaggedArgs (payload : List Byte) : Prop :=
  ∃ items tail, (∀ b ∈ tail, b ≠ 0#8 ∧ b ≠ chr 's') ∧
    payload = taggedPayload (itemTags items ++ tail) (itemData items)

/-- Whole words without type tags. -/
def UntaggedArgs (payload : List Byte) : Prop :=
  (∃ first, payload.head? = some first ∧ first ≠ chr ',') ∧ payload.length % 4 = 0

theorem itemTags_ne_zero (items : List ArgItem) : ∀ b ∈ itemTags items, b ≠ 0#8 := by
  intro b hb
  obtain ⟨x, -, rfl⟩ := List.mem_map.mp hb
  exact x.tag_ne_zero

theorem TaggedArgs.init {payload : List Byte} (h : TaggedArgs payload) (strings : Bool) :
    ∃ it n, MsgIter.init payload.length payload = some it ∧ it.tags.isSome ∧
      Stands strings it n := by
  obtain ⟨items, tail, htail, rfl⟩ := h
  have htags : ∀ b ∈ itemTags items ++ tail, b ≠ 0#8 := by
    intro b hb
    rcases List.mem_append.mp hb with hb | hb
    · exact itemTags_ne_zero items b hb
    · exact (htail b hb).1
  obtain ⟨it, hinit, hit⟩ := init_taggedPayload htags (itemData items)
  exact ⟨it, items.length, hinit, hit.isSome_tags, .tagged items tail (fun hs => (htail _ hs).2 rfl) hit⟩

theorem UntaggedArgs.init {payload : List Byte} (h : UntaggedArgs payload) :
    ∃ it, MsgIter.init payload.length payload = some it ∧ it.Untagged payload := by
  obtain ⟨⟨first, hfirst, hne⟩, -⟩ := h
  refine ⟨⟨payload, payload.length, 0, none, 0⟩, ?_, rfl, rfl, rfl, Nat.zero_le _⟩
  unfold MsgIter.init
  rw [hfirst]
  exact if_neg hne

theorem UntaggedArgs.stands {payload : List Byte} (h : UntaggedArgs payload) {it : MsgIter}
    (hit : it.Untagged payload) {strings : Bool}
    (hlast : strings = true → ∀ b ∈ payload.getLast?, b = 0#8) :
    Stands strings it (payload.length / 4) := by
  have hwords := h.2
  exact .untagged _ payload hit (by omega) hlast

theorem performPrograms_isSome {σ : Type} {fpu : FloatUnit} {strings : Bool} {payload : List Byte}
    {it : MsgIter} {n : ℕ} (hinit : MsgIter.init payload.length payload = some it) :
    ∀ ps : List (ArgProgram σ), (∀ p ∈ ps, p.start.Reaches fpu strings it n ∧ p.Ends strings) →
    ∃ enough, ∀ turns, enough ≤ turns → (performPrograms fpu turns payload ps).isSome
  | [], _ => ⟨0, fun _ _ => rfl⟩
  | p :: ps, hps => by
    obtain ⟨enough, hrest⟩ :=
      performPrograms_isSome hinit ps fun q hq => hps q (List.mem_cons_of_mem p hq)
    obtain ⟨⟨it₁, e, hexec, hend⟩, hp⟩ := hps p List.mem_cons_self
    have hloop : ∃ enough', ∀ turns, enough' ≤ turns → (p.loop fpu turns it₁ e).isSome := by
      cases e with
      | left => exact ⟨0, fun turns _ => by rw [ArgProgram.loop]; rfl⟩
      | ended => exact ⟨0, fun turns _ => by rw [ArgProgram.loop]; rfl⟩
      | again s =>
        obtain ⟨m, h₁, -⟩ := hend s rfl
        exact hp.loop_again m s h₁
    obtain ⟨enough', hloop⟩ := hloop
    refine ⟨max enough enough', fun turns hturns => ?_⟩
    have hsome := hloop turns (le_trans (Nat.le_max_right _ _) hturns)
    obtain ⟨⟨it₂, more⟩, hr⟩ := Option.isSome_iff_exists.mp hsome
    rw [performPrograms, hinit]
    simp only [Option.bind_eq_bind, Option.bind_some, hexec, hr]
    cases more with
    | false => rfl
    | true => exact hrest turns (le_trans (Nat.le_max_left _ _) hturns)

/-! ## The commands with loops -/

section Parts

variable {W σ : Type} {e : Effects W} {w : W} {k : W → Reads σ} {strings : Bool}

@[simp] theorem ok_elim (o : Option W) : (o.elim .leave k : Reads σ).Ok strings ↔
    ∀ w', o = some w' → (k w').Ok strings := by
  cases o with
  | none => simp [Reads.Ok]
  | some w' => simp

@[simp] theorem ok_readInt : (readInt e w k).Ok strings ↔
    ∀ n w', e.act w (.int n) = some w' → (k w').Ok strings := by
  simp [readInt]

@[simp] theorem ok_readFloat : (readFloat e w k).Ok strings ↔
    ∀ bits w', e.act w (.float bits) = some w' → (k w').Ok strings := by
  simp [readFloat]

@[simp] theorem ok_readString : (readString e w k).Ok strings ↔ strings = true ∧
    ∀ s w', e.act w (.string s) = some w' → (k w').Ok strings := by
  simp [readString]

@[simp] theorem ok_readKey : (readKey e w k).Ok strings ↔
    (∀ s w', e.act w (.string s) = some w' → (k w').Ok strings) ∧
    ∀ n w', e.act w (.int n) = some w' → (k w').Ok strings := by
  simp [readKey]

@[simp] theorem ok_readSetting : (readSetting e w k).Ok strings ↔
    (∀ s w', e.act w (.string s) = some w' → (k w').Ok strings) ∧
    ∀ bits w', e.act w (.float bits) = some w' → (k w').Ok strings := by
  simp [readSetting]

@[simp] theorem ok_readNode : (readNode e w k).Ok strings ↔
    (∀ s n w', (e.act w (.string s)).bind (fun w => e.act w (.int n)) = some w' →
      (k w').Ok strings) ∧
    ∀ n w', e.act w (.int n) = some w' → (k w').Ok strings := by
  simp only [readNode, Reads.ok_ifString, Reads.ok_geti, ok_elim, ok_readInt]

@[simp] theorem ok_whileRemaining {body : Reads σ} :
    (whileRemaining body).Ok strings ↔ body.Ok strings := by
  refine ⟨fun h => h 1, fun h r => ?_⟩
  dsimp only
  split_ifs
  · trivial
  · exact h

@[simp] theorem ok_whileAtLeast {least : ℤ} {body : Reads σ} :
    (whileAtLeast least body).Ok strings ↔ body.Ok strings := by
  constructor
  · intro h
    have hleast := h least
    dsimp only at hleast
    rwa [if_pos (Int.le_refl least)] at hleast
  · intro h r
    dsimp only
    split_ifs
    · exact h
    · trivial

@[simp] theorem ok_again {s : σ} : (Reads.again s).Ok strings := trivial

@[simp] theorem ok_nextTurn : (nextTurn w).Ok strings := trivial

@[simp] theorem progress_readInt : (readInt e w k).Progress := trivial

@[simp] theorem progress_readFloat : (readFloat e w k).Progress := trivial

@[simp] theorem progress_readString : (readString e w k).Progress := trivial

@[simp] theorem progress_readKey : (readKey e w k).Progress := trivial

@[simp] theorem progress_readSetting : (readSetting e w k).Progress := trivial

@[simp] theorem progress_readNode : (readNode e w k).Progress := trivial

@[simp] theorem turn_whileRemaining {body : Reads σ} :
    (whileRemaining body).Turn ↔ body.Progress := by
  refine ⟨fun h => h.1 1 Int.one_pos, fun h => ⟨fun r hr => ?_, trivial⟩⟩
  dsimp only
  rw [if_neg (by omega)]
  exact h

@[simp] theorem turn_whileAtLeast {least : ℤ} (hleast : 0 < least) {body : Reads σ} :
    (whileAtLeast least body).Turn ↔ body.Progress := by
  constructor
  · intro h
    have hbody := h.1 least hleast
    dsimp only at hbody
    rwa [if_pos (Int.le_refl least)] at hbody
  · intro h
    refine ⟨fun r hr => ?_, ?_⟩
    · dsimp only
      split_ifs
      · exact h
      · trivial
    · dsimp only
      rw [if_neg (by omega)]
      trivial

theorem ends_singleLoop {W : Type} {strings : Bool} {start : Reads (LoopState W)}
    {body : W → Reads (LoopState W)} (hok : ∀ w, (body w).Ok strings)
    (hturn : ∀ w, (body w).Turn) : (singleLoop start body).Ends strings :=
  ⟨fun s => hok s.world, fun s => hturn s.world⟩

end Parts

section Inner

variable {W : Type} (e : Effects W) (w : W) (left : ℤ) (strings : Bool)

/-- A turn of an inner loop over values, behind which the outer loop goes on. -/
theorem values_turn {value outer : Reads (LoopState W)} (hvalue : value.Ok strings)
    (hprogress : value.Progress) (houter : outer.Ok strings) (hturn : outer.Turn) :
    (Reads.remain fun r => if r ≠ 0 ∧ 0 < left then value else outer).Ok strings ∧
      (Reads.remain fun r => if r ≠ 0 ∧ 0 < left then value else outer).Turn := by
  refine ⟨fun r => ?_, fun r hr => ?_, ?_⟩
  · dsimp only
    split_ifs
    · exact hvalue
    · exact houter
  · dsimp only
    split_ifs
    · exact hprogress
    · exact hturn.progress
  · dsimp only
    rw [if_neg (by simp)]
    exact hturn

theorem setnTurns_ends (s : LoopState W) : (setnTurns e s).Ok strings ∧ (setnTurns e s).Turn := by
  have houter : ∀ w, (setnTurn e w).Ok strings ∧ (setnTurn e w).Turn := by simp [setnTurn]
  cases s with
  | outer w => exact houter w
  | searching w => exact houter w
  | values w left =>
    exact values_turn left strings (by simp) progress_readSetting
      (houter w).1 (houter w).2

theorem rangeTurns_ends (s : LoopState W) :
    (rangeTurns e s).Ok strings ∧ (rangeTurns e s).Turn := by
  have houter : ∀ w, (rangeTurn e w).Ok strings ∧ (rangeTurn e w).Turn := by simp [rangeTurn]
  cases s with
  | outer w => exact houter w
  | searching w => exact houter w
  | values w left =>
    exact values_turn left strings (by simp) progress_readFloat
      (houter w).1 (houter w).2

theorem orderTurns_ends (s : LoopState W) :
    (orderTurns e s).Ok strings ∧ (orderTurns e s).Turn := by
  have hnode : ∀ w, (whileRemaining (readNode e w nextTurn)).Ok strings ∧
      (whileRemaining (readNode e w nextTurn)).Turn := by simp
  cases s with
  | outer w => exact hnode w
  | values w left => exact hnode w
  | searching w =>
    have hsearch : (readNode e w fun w =>
        if e.found w then nextTurn w else .again (.searching w)).Ok strings := by
      have hend : ∀ w', (if e.found w' then nextTurn w' else
          Reads.again (LoopState.searching w')).Ok strings := by
        intro w'
        split_ifs
        · trivial
        · trivial
      simp [hend]
    refine ⟨fun r => ?_, fun r hr => ?_, trivial⟩
    · dsimp only
      split_ifs
      · trivial
      · exact hsearch
    · dsimp only
      rw [if_neg (by omega)]
      exact progress_readNode

end Inner

/-- `/d_free` asks for a string in every turn. -/
def LoopCommand.strings : LoopCommand → Bool
  | dFree => true
  | _ => false

/-- The loops of every command end, and only `/s_newargs` asks for a string in front of them. -/
theorem LoopCommand.programs_ends {W : Type} (e : Effects W) (w : W) (c : LoopCommand) :
    ∀ p ∈ c.programs e w, (c ≠ sNewargs → p.start.Ok c.strings) ∧ p.Ends c.strings := by
  cases c with
  | nSetn | sNewargs =>
    simp only [programs, List.mem_singleton, forall_eq]
    exact ⟨by simp, fun s => (setnTurns_ends e _ s).1, fun s => (setnTurns_ends e true s).2⟩
  | bSetn | cSetn =>
    simp only [programs, List.mem_singleton, forall_eq]
    exact ⟨by simp, fun s => (rangeTurns_ends e _ s).1, fun s => (rangeTurns_ends e true s).2⟩
  | nOrder =>
    simp only [programs, List.mem_singleton, forall_eq]
    exact ⟨by simp, fun s => (orderTurns_ends e _ s).1, fun s => (orderTurns_ends e true s).2⟩
  | bGetn | cGetn | sGetn =>
    simp only [programs, List.mem_cons, List.not_mem_nil, or_false, forall_eq_or_imp, forall_eq]
    exact ⟨⟨by simp [singleLoop], ends_singleLoop (by simp) (by simp)⟩,
      ⟨by simp [singleLoop], ends_singleLoop (by simp) (by simp)⟩⟩
  | _ =>
    -- a single loop whose turn begins with a read
    simp only [programs, List.mem_singleton, forall_eq, strings]
    exact ⟨by simp [singleLoop], ends_singleLoop (by simp) (by simp)⟩

/-- A payload that a command reads without running out of it: its strings end. -/
def LoopCommand.Readable (c : LoopCommand) (payload : List Byte) : Prop :=
  TaggedArgs payload ∨ UntaggedArgs payload ∧
    (c = .dFree → ∀ b ∈ payload.getLast?, b = 0#8) ∧
    (c = .sNewargs → (oscStrskip payload).isSome)

theorem reaches_readString {W σ : Type} {e : Effects W} {w : W} {k : W → Reads σ}
    {fpu : FloatUnit} {strings : Bool} {it : MsgIter} {n : ℕ} (hk : ∀ w, (k w).Ok strings)
    (h : Stands strings it n)
    (hend : it.tags = none → 0 < it.remain → (oscStrskip it.rest).isSome) :
    (readString e w k).Reaches fpu strings it n := by
  refine Reads.reaches_gets rfl (fun s it n hit => ?_) h hend
  have hok : ((e.act w (.string s)).elim .leave k).Ok strings := by simp [hk]
  exact Reads.reaches_of_ok _ hok hit

theorem LoopCommand.Readable.init {c : LoopCommand} {payload : List Byte}
    (h : c.Readable payload) :
    ∃ it n, MsgIter.init payload.length payload = some it ∧ Stands c.strings it n ∧
      (c = .sNewargs → it.tags = none → (oscStrskip it.rest).isSome) := by
  rcases h with htagged | ⟨hwords, hfree, hnew⟩
  · obtain ⟨it, n, hinit, htags, hit⟩ := htagged.init c.strings
    exact ⟨it, n, hinit, hit, fun _ hnone => absurd hnone (Option.isSome_iff_ne_none.mp htags)⟩
  · obtain ⟨it, hinit, hit⟩ := hwords.init
    have hlast : c.strings = true → ∀ b ∈ payload.getLast?, b = 0#8 := by
      intro hstrings
      apply hfree
      cases c with
      | dFree => rfl
      | _ => exact absurd hstrings Bool.false_ne_true
    refine ⟨it, _, hinit, hwords.stands hit hlast, fun hc _ => ?_⟩
    rw [hit.data]
    exact hnew hc

/-- The loops of a command end within its payload. -/
theorem LoopCommand.performPrograms_isSome {W : Type} (fpu : FloatUnit) (e : Effects W) (w : W)
    {c : LoopCommand} {payload : List Byte} (h : c.Readable payload) :
    ∃ enough, ∀ turns, enough ≤ turns →
      (performPrograms fpu turns payload (c.programs e w)).isSome := by
  obtain ⟨it, n, hinit, hit, hstring⟩ := h.init
  apply PoopWorms.Server.performPrograms_isSome hinit
  intro p hp
  obtain ⟨hstart, hends⟩ := LoopCommand.programs_ends e w c p hp
  refine ⟨?_, hends⟩
  by_cases hc : c = .sNewargs
  · subst hc
    have hprogram : p = ⟨readString e w fun w => readInt e w fun w => readInt e w fun w =>
        readNode e w nextTurn, setnTurns e⟩ := List.mem_singleton.mp hp
    rw [hprogram]
    exact reaches_readString (by simp) hit fun htags _ => hstring rfl htags
  · exact Reads.reaches_of_ok _ (hstart hc) hit

end PoopWorms.Server
