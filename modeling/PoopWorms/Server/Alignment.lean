import PoopWorms.Server.CommandArgs
import PoopWorms.Server.LivePacket

/-!
# Reads that stay in step

An iterator has to move its read position and its count of tags together. `Read.Fits` says which
read of which argument does so. `Before` says that an iterator stands in front of some tags and
their data; a read that fits takes the first of them, and turns its bytes round if it is a float.
-/

namespace PoopWorms.Server.Live

open Octets Osc

/-! ## Memory in pieces -/

section Memory

variable {mem xs ys bs : List Byte} {a : ℤ}

theorem drop_at (hmem : mem = xs ++ ys) (ha : a = xs.length) : mem.drop a.toNat = ys := by
  have hto : a.toNat = xs.length := by omega
  rw [hto, hmem, List.drop_left]

theorem byteAt_append (hmem : mem = xs ++ ys) (ha : a = xs.length) : byteAt mem a = ys.head? := by
  have hdrop := drop_at hmem ha
  rw [byteAt, if_pos (by omega), List.head?_eq_getElem?, ← hdrop, List.getElem?_drop, add_zero]

theorem intAt_append (hmem : mem = xs ++ (bs ++ ys)) (ha : a = xs.length) (hbs : bs.length = 4) :
    intAt mem a = some (swap32 (wordOf bs)) := by
  rw [intAt, if_pos (by omega), drop_at hmem ha, oscInt_append hbs]

theorem strskipAt_append {s : List Byte} (hs : ∀ b ∈ s, b ≠ 0#8)
    (hmem : mem = xs ++ (padded s ++ ys)) (ha : a = xs.length) :
    strskipAt mem a = some (a + (padded s).length) := by
  rw [strskipAt, if_pos (by omega), drop_at hmem ha, oscStrskip_padded hs]
  rfl

theorem poke_at {new : List Byte} (hmem : mem = xs ++ (bs ++ ys)) (ha : a = xs.length)
    (hlen : bs.length = new.length) : poke mem a.toNat new = some (xs ++ (new ++ ys)) := by
  have hto : a.toNat = xs.length := by omega
  rw [hmem, ← List.append_assoc, poke_append hto hlen, List.append_assoc]

end Memory

/-- An `int` that needs no more than 31 bits is not changed. -/
theorem int_eq_self {n : ℕ} (h : n < 2 ^ 31) : int n = n := by
  rw [int, BitVec.toInt_ofInt]
  exact Int.bmod_eq_of_le (by omega) (by omega)

theorem len4_ofNat {n : ℕ} (h : n < 2 ^ 31) :
    len4 (BitVec.ofNat 32 n) = ((n + 3) / 4 * 4 : ℕ) := toInt_roundUp h

/-! ## In front of the arguments -/

namespace LiveIter

/-- The iterator stands in front of `tags`, behind `front`, and in front of `data`, behind
`passed`; the memory goes on with `post`. -/
structure Before (it : LiveIter) (front tags passed data post : List Byte) : Prop where
  mem_eq : it.mem = front ++ (tags ++ 0#8 :: passed) ++ (data ++ post)
  tags_eq : it.tags = some ((front.length : ℤ) - it.count)
  rdpos_eq : it.rdpos = (front ++ (tags ++ 0#8 :: passed)).length
  endpos_eq : it.endpos = it.rdpos + data.length
  small : data.length < 2 ^ 31

section Before

variable {it it' : LiveIter} {front tags passed data post old new bs : List Byte} {tag : Byte}

theorem Before.remain_eq (h : it.Before front tags passed data post) :
    it.remain = data.length := by
  have hdiff : it.endpos - it.rdpos = data.length := by
    rw [h.endpos_eq]
    omega
  rw [remain, hdiff, int_eq_self h.small]

theorem Before.isSome_tags (h : it.Before front tags passed data post) : it.tags.isSome := by
  rw [h.tags_eq]
  rfl

theorem Before.nextTag_head (h : it.Before front tags passed data post) (d : Byte) :
    it.nextTag d = some (tags.headD 0#8) := by
  have hat : ((front.length : ℤ) - it.count) + it.count = front.length := by omega
  have hmem : it.mem = front ++ ((tags ++ 0#8 :: passed) ++ (data ++ post)) := by
    rw [h.mem_eq, List.append_assoc]
  unfold nextTag
  rw [h.tags_eq]
  show byteAt it.mem (((front.length : ℤ) - it.count) + it.count) = _
  rw [hat, byteAt_append hmem rfl]
  cases tags with
  | nil => rfl
  | cons tag tags => rfl

/-- After the data `old` of one tag has been read, and replaced by `new`. -/
theorem Before.advance (h : it.Before front (tag :: tags) passed (old ++ data) post)
    (hmem : it'.mem = front ++ (tag :: tags ++ 0#8 :: passed) ++ (new ++ data ++ post))
    (hnew : new.length = old.length) (htags : it'.tags = it.tags)
    (hrdpos : it'.rdpos = it.rdpos + old.length) (hendpos : it'.endpos = it.endpos)
    (hcount : it'.count = it.count + 1) :
    it'.Before (front ++ [tag]) tags (passed ++ new) data post := by
  have hend := h.endpos_eq
  have hsmall := h.small
  have hat := h.rdpos_eq
  simp only [List.length_append, List.length_cons] at hend hsmall hat
  refine ⟨?_, ?_, ?_, ?_, by omega⟩
  · rw [hmem]
    simp only [List.append_assoc, List.cons_append, List.nil_append]
  · rw [htags, h.tags_eq, hcount, List.length_append, List.length_singleton]
    congr 1
    omega
  · simp only [List.length_append, List.length_cons, List.length_nil]
    omega
  · omega

/-- Where the memory is not changed. -/
theorem Before.pass (h : it.Before front (tag :: tags) passed (old ++ data) post) {a : ℤ}
    (ha : a = it.rdpos + old.length) :
    (next { it with rdpos := a }).Before (front ++ [tag]) tags (passed ++ old) data post :=
  h.advance h.mem_eq rfl rfl ha rfl rfl

theorem Before.intAt_eq (h : it.Before front tags passed (bs ++ data) post)
    (hbs : bs.length = 4) : intAt it.mem it.rdpos = some (swap32 (wordOf bs)) := by
  have hmem := h.mem_eq
  rw [List.append_assoc bs] at hmem
  exact intAt_append hmem h.rdpos_eq hbs

theorem Before.doubleAt_eq {hi lo : List Byte}
    (h : it.Before front tags passed (hi ++ lo ++ data) post) (hhi : hi.length = 4)
    (hlo : lo.length = 4) :
    doubleAt it.mem it.rdpos = some (swap32 (wordOf hi) ++ swap32 (wordOf lo)) := by
  have hmem := h.mem_eq
  rw [List.append_assoc hi, List.append_assoc hi] at hmem
  have hsecond : it.mem = (front ++ (tags ++ 0#8 :: passed) ++ hi) ++ (lo ++ (data ++ post)) := by
    rw [hmem]
    simp only [List.append_assoc]
  have hat : it.rdpos + 4 = (front ++ (tags ++ 0#8 :: passed) ++ hi).length := by
    have hrdpos := h.rdpos_eq
    simp only [List.length_append] at hrdpos ⊢
    omega
  unfold doubleAt
  rw [intAt_append hmem h.rdpos_eq hhi, intAt_append hsecond hat hlo]
  rfl

theorem Before.strskipAt_eq {s : List Byte} (hs : ∀ b ∈ s, b ≠ 0#8)
    (h : it.Before front tags passed (padded s ++ data) post) :
    strskipAt it.mem it.rdpos = some (it.rdpos + (padded s).length) := by
  have hmem := h.mem_eq
  rw [List.append_assoc (padded s)] at hmem
  exact strskipAt_append hs hmem h.rdpos_eq

theorem Before.readInt_eq (h : it.Before front tags passed (bs ++ data) post)
    (hbs : bs.length = 4) :
    it.readInt = some (swap32 (wordOf bs), { it with rdpos := it.rdpos + 4 }) := by
  unfold readInt
  rw [h.intAt_eq hbs]
  rfl

/-- The memory with the bytes at the read position turned round. -/
theorem Before.readFloat_eq (h : it.Before front tags passed (bs ++ data) post)
    (hbs : bs.length = 4) :
    it.readFloat = some (swap32 (wordOf bs),
      { it with
        mem := front ++ (tags ++ 0#8 :: passed) ++ (leBytes (swap32 (wordOf bs)) ++ data ++ post)
        rdpos := it.rdpos + 4 }) := by
  have hmem := h.mem_eq
  rw [List.append_assoc bs] at hmem
  have hpoke : poke it.mem it.rdpos.toNat (leBytes (swap32 (wordOf bs))) = _ :=
    poke_at hmem h.rdpos_eq hbs
  unfold readFloat floatAt
  rw [h.intAt_eq hbs]
  simp only [Option.bind_eq_bind, Option.bind_some]
  rw [hpoke, List.append_assoc (leBytes _)]
  rfl

theorem Before.readDouble_eq {hi lo : List Byte}
    (h : it.Before front tags passed (hi ++ lo ++ data) post) (hhi : hi.length = 4)
    (hlo : lo.length = 4) :
    it.readDouble = some (swap32 (wordOf hi) ++ swap32 (wordOf lo),
      { it with rdpos := it.rdpos + 8 }) := by
  unfold readDouble
  rw [h.doubleAt_eq hhi hlo]
  rfl

theorem Before.skipString_eq {s : List Byte} (hs : ∀ b ∈ s, b ≠ 0#8)
    (h : it.Before front tags passed (padded s ++ data) post) :
    it.skipString = some { it with rdpos := it.rdpos + (padded s).length } := by
  unfold skipString
  rw [h.strskipAt_eq hs]
  rfl

theorem Before.skipb_eq (h : it.Before front tags passed (bs ++ data) post)
    (hbs : bs.length = 4) :
    it.skipb = some (next { it with rdpos := it.rdpos + 4 + len4 (swap32 (wordOf bs)) }) := by
  unfold skipb
  rw [h.intAt_eq hbs]
  rfl

end Before

end LiveIter

/-! ## One read -/

/-- A read of an argument. -/
inductive Read
  | geti (defaultValue : Word)
  | getf (defaultValue : Word)
  | getd (defaultValue : BitVec 64)
  | gets (defaultValue : Option ℤ)
  | gets4 (defaultValue : Option ℤ)
  | skipb

namespace Read

/-- What the read leaves of the iterator. -/
def exec (fpu : DoubleUnit) : Read → LiveIter → Option LiveIter
  | geti d, it => (it.geti fpu d).map Prod.snd
  | getf d, it => (it.getf fpu d).map Prod.snd
  | getd d, it => (it.getd fpu d).map Prod.snd
  | gets d, it => (it.gets d).map Prod.snd
  | gets4 d, it => (it.gets4 d).map Prod.snd
  | skipb, it => it.skipb

/-- The read takes an argument like this one, and nothing else. -/
def Fits : Read → DumpItem → Prop
  | geti _, x => x.tag ∈ [chr 'i', chr 'f', chr 's']
  | getf _, x | getd _, x => x.tag ∈ [chr 'i', chr 'f', chr 's', chr 'd']
  | gets _, x | gets4 _, x => x.tag = chr 's'
  | skipb, x => ∃ len, oscInt x.data = some len ∧ 4 + len4 len = x.data.length

end Read

/-- An item with data. -/
def IsArgument (x : DumpItem) : Prop := x.tag ∉ [chr '[', chr ']']

/-- The bytes of an item behind a typed read: those of a float have been swapped. -/
def turned : DumpItem → List Byte
  | .float bits => leBytes bits
  | x => x.data

theorem length_turned (x : DumpItem) : (turned x).length = x.data.length := by
  cases x <;> rfl

/-- How far the iterator has moved: in the tags and in the data. -/
def Moved (it it' : LiveIter) (tags : ℕ) (data : ℤ) : Prop :=
  it'.count = it.count + tags ∧ it'.rdpos = it.rdpos + data

section Item

variable {it it' : LiveIter} {front tags passed data post : List Byte} {x : DumpItem}

theorem four_le_length (hx : IsArgument x) : 4 ≤ x.data.length := by
  cases x with
  | string s =>
    have hpadded := length_padded s.1
    show 4 ≤ (padded s.1).length
    omega
  | blob len body hlen hbody =>
    show 4 ≤ (OSCValue.beBytes (BitVec.ofNat 32 len) ++ body).length
    rw [List.length_append, OSCValue.length_beBytes]
    omega
  | opening | closing => exact absurd (by simp [DumpItem.tag]) hx
  | int n => exact Nat.le_refl 4
  | float bits => exact Nat.le_refl 4
  | double hi lo => show 4 ≤ 8; omega

theorem remain_pos (hx : IsArgument x)
    (h : it.Before front (x.tag :: tags) passed (x.data ++ data) post) : ¬ it.remain ≤ 0 := by
  have hfour := four_le_length hx
  have hremain := h.remain_eq
  rw [List.length_append] at hremain
  omega

variable {α : Type} {ofInt ofFloat : Word → α} {ofDouble : Option (BitVec 64 → α)}
  {untagged : LiveIter → Option (α × LiveIter)}

/-- `geti`, `getf` and `getd` take numbers and strings; only those that know doubles take a double,
and none takes a blob. -/
theorem getNumber_item (hx : IsArgument x)
    (h : it.Before front (x.tag :: tags) passed (x.data ++ data) post) (d : α) :
    ∃ it', (it.getNumber ofInt ofFloat ofDouble untagged d).map Prod.snd = some it' ∧
      (Moved it it' 1 x.data.length ↔
        x.tag ∈ [chr 'i', chr 'f', chr 's'] ∨ x.tag = chr 'd' ∧ ofDouble.isSome) ∧
      (Moved it it' 1 x.data.length →
        it'.Before (front ++ [x.tag]) tags (passed ++ turned x) data post) := by
  have hpos := remain_pos hx h
  have htag := h.nextTag_head (chr 'f')
  unfold LiveIter.getNumber
  rw [if_neg hpos, if_pos h.isSome_tags, htag]
  cases x with
  | int n =>
    have hread := LiveIter.Before.readInt_eq h rfl
    refine ⟨_, ?_, ?_, fun _ => h.pass rfl⟩
    · show Option.map Prod.snd (it.readInt.bind fun r => some (ofInt r.1, r.2.next)) = _
      rw [hread]
      rfl
    · exact ⟨fun _ => .inl (by simp [DumpItem.tag]), fun _ => ⟨rfl, rfl⟩⟩
  | float bits =>
    have hread := LiveIter.Before.readFloat_eq h rfl
    have hbits : swap32 (wordOf (DumpItem.float bits).data) = bits :=
      MsgIter.swap32_wordOf_beBytes bits
    rw [hbits] at hread
    refine ⟨LiveIter.next { it with mem := _, rdpos := it.rdpos + 4 }, ?_, ?_,
      fun _ => h.advance rfl rfl rfl rfl rfl rfl⟩
    · show Option.map Prod.snd (it.readFloat.bind fun r => some (ofFloat r.1, r.2.next)) = _
      rw [hread]
      rfl
    · exact ⟨fun _ => .inl (by simp [DumpItem.tag]), fun _ => ⟨rfl, rfl⟩⟩
  | double hi lo =>
    have hread := LiveIter.Before.readDouble_eq h rfl rfl
    cases ofDouble with
    | some f =>
      refine ⟨_, ?_, ?_, fun _ => h.pass rfl⟩
      · show Option.map Prod.snd (it.readDouble.bind fun r => some (f r.1, r.2.next)) = _
        rw [hread]
        rfl
      · exact ⟨fun _ => .inr ⟨rfl, rfl⟩, fun _ => ⟨rfl, rfl⟩⟩
    | none =>
      -- the double stays where it is
      have hstay : ¬ Moved it it.next 1 (DumpItem.double hi lo).data.length := by
        intro hmoved
        have hrdpos : it.rdpos = it.rdpos + 8 := hmoved.2
        omega
      refine ⟨it.next, rfl, ?_, fun hmoved => absurd hmoved hstay⟩
      constructor
      · exact fun hmoved => absurd hmoved hstay
      · rintro (htag | ⟨-, hsome⟩)
        · exact absurd htag (by show ¬ chr 'd' ∈ _; decide)
        · exact absurd hsome (by simp)
  | string s =>
    have hread := LiveIter.Before.skipString_eq s.2 h
    refine ⟨_, ?_, ?_, fun _ => h.pass rfl⟩
    · show Option.map Prod.snd (it.skipString.bind fun r => some (d, r.next)) = _
      rw [hread]
      rfl
    · exact ⟨fun _ => .inl (by simp [DumpItem.tag]), fun _ => ⟨rfl, rfl⟩⟩
  | blob len body hlen hbody =>
    have hblob := h
    rw [DumpItem.data, List.append_assoc] at hblob
    obtain ⟨it₁, hskip, hcount⟩ : ∃ it₁, it.skipb = some it₁ ∧ it₁.count = it.count + 1 :=
      ⟨_, hblob.skipb_eq rfl, rfl⟩
    -- the blob is counted twice
    have htwice : ∀ n, ¬ Moved it it₁.next 1 n := by
      intro n hmoved
      have honce : it₁.count + 1 = it.count + 1 := hmoved.1
      omega
    refine ⟨it₁.next, ?_, ?_, fun hmoved => absurd hmoved (htwice _)⟩
    · show Option.map Prod.snd (it.skipb.bind fun r => some (d, r.next)) = _
      rw [hskip]
      rfl
    · constructor
      · exact fun hmoved => absurd hmoved (htwice _)
      · rintro (htag | ⟨htag, -⟩)
        · exact absurd htag (by show ¬ chr 'b' ∈ _; decide)
        · exact absurd htag (by show ¬ chr 'b' = _; decide)
  | opening | closing => exact absurd (by simp [DumpItem.tag]) hx

/-- `gets` and `gets4` take strings. -/
theorem gets_item (hx : IsArgument x)
    (h : it.Before front (x.tag :: tags) passed (x.data ++ data) post) (d : Option ℤ) :
    ∃ it', (it.gets d).map Prod.snd = some it' ∧
      (Moved it it' 1 x.data.length ↔ x.tag = chr 's') ∧
      (Moved it it' 1 x.data.length →
        it'.Before (front ++ [x.tag]) tags (passed ++ turned x) data post) := by
  have hpos := remain_pos hx h
  have hfour := four_le_length hx
  have htag : it.nextTag (chr 's') = some x.tag := h.nextTag_head (chr 's')
  unfold LiveIter.gets
  rw [if_neg hpos, htag]
  by_cases hstring : x.tag = chr 's'
  · cases x with
    | string s =>
      have hread := LiveIter.Before.skipString_eq s.2 h
      refine ⟨_, ?_, ⟨fun _ => hstring, fun _ => ⟨rfl, rfl⟩⟩, fun _ => h.pass rfl⟩
      show Option.map Prod.snd (it.skipString.bind fun r => some (some it.rdpos, r.next)) = _
      rw [hread]
      rfl
    | int | float | double | blob | opening | closing =>
      exact absurd hstring (by show ¬ chr _ = _; decide)
  · -- the argument stays where it is
    have hstay : ¬ Moved it it.next 1 x.data.length := by
      intro hmoved
      have hrdpos : it.rdpos = it.rdpos + x.data.length := hmoved.2
      omega
    refine ⟨it.next, ?_, ⟨fun hmoved => absurd hmoved hstay, fun hs => absurd hs hstring⟩,
      fun hmoved => absurd hmoved hstay⟩
    simp only [Option.bind_eq_bind, Option.bind_some, if_neg hstring]
    rfl

/-- `skipb` moves by the length that the first word of the data spells. -/
theorem skipb_item (hx : IsArgument x)
    (h : it.Before front (x.tag :: tags) passed (x.data ++ data) post) :
    ∃ it', it.skipb = some it' ∧ (Moved it it' 1 x.data.length ↔ Read.skipb.Fits x) ∧
      (Moved it it' 1 x.data.length →
        it'.Before (front ++ [x.tag]) tags (passed ++ x.data) data post) := by
  have hfour := four_le_length hx
  have hword : (x.data.take 4).length = 4 := by
    rw [List.length_take]
    omega
  have hint : oscInt x.data = some (swap32 (wordOf (x.data.take 4))) := by
    have happend := oscInt_append hword (x.data.drop 4)
    rwa [List.take_append_drop] at happend
  have hfirst := h
  rw [← List.take_append_drop 4 x.data, List.append_assoc] at hfirst
  have hskip := hfirst.skipb_eq hword
  refine ⟨_, hskip, ?_, fun hmoved => h.pass hmoved.2⟩
  constructor
  · intro hmoved
    have hrdpos : it.rdpos + 4 + len4 (swap32 (wordOf (x.data.take 4))) =
        it.rdpos + x.data.length := hmoved.2
    exact ⟨_, hint, by omega⟩
  · intro hfits
    obtain ⟨len, hlen, hlength⟩ := hfits
    rw [hint] at hlen
    have hlen' := Option.some.inj hlen
    refine ⟨rfl, ?_⟩
    show it.rdpos + 4 + len4 (swap32 (wordOf (x.data.take 4))) = it.rdpos + x.data.length
    rw [hlen']
    omega

/-- A read moves by one tag and by the data of the argument if and only if it fits it. -/
theorem Read.exec_item (fpu : DoubleUnit) (r : Read) (hx : IsArgument x)
    (h : it.Before front (x.tag :: tags) passed (x.data ++ data) post) :
    ∃ it', r.exec fpu it = some it' ∧ (Moved it it' 1 x.data.length ↔ r.Fits x) ∧
      (Moved it it' 1 x.data.length →
        ∃ read, it'.Before (front ++ [x.tag]) tags (passed ++ read) data post) := by
  have hdouble : ∀ {β : Type} (f : Option (BitVec 64 → β)), f.isSome →
      (x.tag ∈ [chr 'i', chr 'f', chr 's'] ∨ x.tag = chr 'd' ∧ f.isSome ↔
        x.tag ∈ [chr 'i', chr 'f', chr 's', chr 'd']) := by
    intro β f hf
    simp only [List.mem_cons, List.not_mem_nil, or_false, hf, and_true]
    tauto
  cases r with
  | geti d =>
    obtain ⟨it', hexec, hiff, hbefore⟩ := getNumber_item hx h d
    refine ⟨it', hexec, hiff.trans ?_, fun hmoved => ⟨_, hbefore hmoved⟩⟩
    simp [Fits]
  | getf d =>
    obtain ⟨it', hexec, hiff, hbefore⟩ := getNumber_item hx h d
    exact ⟨it', hexec, hiff.trans (hdouble _ rfl), fun hmoved => ⟨_, hbefore hmoved⟩⟩
  | getd d =>
    obtain ⟨it', hexec, hiff, hbefore⟩ := getNumber_item hx h d
    exact ⟨it', hexec, hiff.trans (hdouble _ rfl), fun hmoved => ⟨_, hbefore hmoved⟩⟩
  | gets d | gets4 d =>
    obtain ⟨it', hexec, hiff, hbefore⟩ := gets_item hx h d
    exact ⟨it', hexec, hiff, fun hmoved => ⟨_, hbefore hmoved⟩⟩
  | skipb =>
    obtain ⟨it', hexec, hiff, hbefore⟩ := skipb_item hx h
    exact ⟨it', hexec, hiff, fun hmoved => ⟨_, hbefore hmoved⟩⟩

end Item

/-! ## A run of reads -/

/-- The reads, one after the other. -/
def readAll (fpu : DoubleUnit) : List Read → LiveIter → Option LiveIter
  | [], it => some it
  | r :: reads, it => (r.exec fpu it).bind (readAll fpu reads)

/-- After any number of the reads, the iterator has moved over as many items. -/
def InStep (fpu : DoubleUnit) (items : List DumpItem) (reads : List Read) (it : LiveIter) : Prop :=
  ∀ k ≤ reads.length, ∃ it', readAll fpu (reads.take k) it = some it' ∧
    Moved it it' k (dumpData (items.take k)).length

section Run

variable {fpu : DoubleUnit} {it it₁ : LiveIter} {front passed post : List Byte}
  {items : List DumpItem} {x : DumpItem} {r : Read} {reads : List Read}

theorem inStep_nil : InStep fpu items [] it := by
  intro k hk
  obtain rfl : k = 0 := by simpa using hk
  exact ⟨it, rfl, rfl, by simp [dumpData]⟩

theorem inStep_cons (hexec : r.exec fpu it = some it₁) :
    InStep fpu (x :: items) (r :: reads) it ↔
      Moved it it₁ 1 x.data.length ∧ InStep fpu items reads it₁ := by
  have hrun : ∀ k, readAll fpu ((r :: reads).take (k + 1)) it = readAll fpu (reads.take k) it₁ := by
    intro k
    rw [List.take_succ_cons, readAll, hexec]
    rfl
  have hlength : ∀ k, (dumpData ((x :: items).take (k + 1))).length =
      x.data.length + (dumpData (items.take k)).length := by
    intro k
    rw [List.take_succ_cons, dumpData, List.flatMap_cons, List.length_append]
    rfl
  constructor
  · intro h
    have hfirst : Moved it it₁ 1 x.data.length := by
      obtain ⟨it', hread, hcount, hrdpos⟩ := h 1 (by simp)
      have hit : it₁ = it' := Option.some.inj ((hrun 0).symm.trans hread)
      have hone : (dumpData ((x :: items).take 1)).length = x.data.length := by simp [dumpData]
      rw [← hit, hone] at hrdpos
      exact ⟨hit ▸ hcount, hrdpos⟩
    refine ⟨hfirst, fun k hk => ?_⟩
    obtain ⟨it', hread, hcount, hrdpos⟩ := h (k + 1) (by simpa using hk)
    obtain ⟨hcount₁, hrdpos₁⟩ := hfirst
    have hnext := hlength k
    exact ⟨it', (hrun k).symm.trans hread, by omega, by omega⟩
  · intro h k hk
    obtain ⟨⟨hcount₁, hrdpos₁⟩, hrest⟩ := h
    cases k with
    | zero => exact ⟨it, rfl, rfl, by simp [dumpData]⟩
    | succ k =>
      obtain ⟨it', hread, hcount, hrdpos⟩ := hrest k (by simpa using hk)
      have hnext := hlength k
      exact ⟨it', (hrun k).trans hread, by omega, by omega⟩

/-- The reads stay in step if and only if each of them fits its item. -/
theorem inStep_iff (hitems : ∀ x ∈ items, IsArgument x) (hreads : reads.length ≤ items.length)
    (h : it.Before front (dumpTags items) passed (dumpData items) post) :
    InStep fpu items reads it ↔ ∀ p ∈ reads.zip items, p.1.Fits p.2 := by
  induction reads generalizing it front items passed with
  | nil => simp [inStep_nil]
  | cons r reads ih =>
    cases items with
    | nil => exact absurd hreads (by simp)
    | cons x items =>
      obtain ⟨it₁, hexec, hmoved, hbefore⟩ := r.exec_item fpu (hitems x (by simp)) h
      rw [inStep_cons hexec, hmoved, List.zip_cons_cons, List.forall_mem_cons]
      refine and_congr_right fun hfits => ?_
      obtain ⟨read, h₁⟩ := hbefore (hmoved.mpr hfits)
      exact ih (fun y hy => hitems y (by simp [hy])) (by simpa using hreads) h₁

end Run

/-! ## A whole message -/

theorem padded_eq (s : List Byte) : ∃ pad, padded s = s ++ 0#8 :: pad := by
  obtain ⟨k, hk⟩ : ∃ k, 4 - s.length % 4 = k + 1 := ⟨3 - s.length % 4, by omega⟩
  exact ⟨List.replicate k 0#8, by rw [padded, hk, List.replicate_succ]⟩

/-- The iterator of a tagged message, wherever that is in memory. -/
theorem init_before (front post : List Byte) {tags data : List Byte} (htags : ∀ b ∈ tags, b ≠ 0#8)
    (hsmall : data.length < 2 ^ 31) :
    ∃ it pad, LiveIter.init (front ++ (taggedPayload tags data ++ post))
        (taggedPayload tags data).length front.length = some it ∧ it.count = 0 ∧
      it.mem = front ++ (taggedPayload tags data ++ post) ∧
      it.rdpos = front.length + (padded (chr ',' :: tags)).length ∧
      padded (chr ',' :: tags) = chr ',' :: tags ++ 0#8 :: pad ∧
      it.Before (front ++ [chr ',']) tags pad data post := by
  have hnz : ∀ b ∈ chr ',' :: tags, b ≠ 0#8 := by
    intro b hb
    rcases List.mem_cons.mp hb with rfl | hb
    · decide
    · exact htags b hb
  obtain ⟨pad, hpad⟩ := padded_eq (chr ',' :: tags)
  have hmem : front ++ (taggedPayload tags data ++ post) =
      front ++ (padded (chr ',' :: tags) ++ (data ++ post)) := by
    rw [taggedPayload, List.append_assoc]
  have hhead : (padded (chr ',' :: tags) ++ (data ++ post)).head? = some (chr ',') := by
    rw [hpad]
    rfl
  refine ⟨⟨front ++ (taggedPayload tags data ++ post),
    front.length + (padded (chr ',' :: tags)).length,
    front.length + (taggedPayload tags data).length, some (front.length + 1), 0⟩, pad, ?_, rfl, rfl,
    rfl, hpad, ?_⟩
  · unfold LiveIter.init
    rw [byteAt_append hmem rfl, hhead]
    simp only [Option.bind_eq_bind, Option.bind_some, if_true]
    rw [strskipAt_append hnz hmem rfl]
    rfl
  · have hlength := congrArg List.length hpad
    simp only [List.length_append, List.length_cons] at hlength
    refine ⟨?_, ?_, ?_, ?_, hsmall⟩
    · rw [hmem, hpad]
      simp only [List.append_assoc, List.cons_append, List.nil_append]
    · simp only [List.length_append, List.length_singleton]
      congr 1
    · simp only [List.length_append, List.length_cons, List.length_nil]
      omega
    · simp only [taggedPayload, List.length_append]
      omega

theorem dumpTags_ne_zero (items : List DumpItem) : ∀ b ∈ dumpTags items, b ≠ 0#8 := by
  intro b hb
  obtain ⟨x, -, rfl⟩ := List.mem_map.mp hb
  exact x.tag_ne_zero

/-- Where the data of the item `k` of a message begins, behind `front`. -/
def argumentAt (front : List Byte) (items : List DumpItem) (k : ℕ) : ℤ :=
  front.length + (padded (chr ',' :: dumpTags items)).length + (dumpData (items.take k)).length

/-- After `k` reads of a message, the iterator has counted `k` arguments and stands in front of
the next. -/
def StaysAligned (fpu : DoubleUnit) (front : List Byte) (items : List DumpItem)
    (post : List Byte) (reads : List Read) : Prop :=
  ∃ it, LiveIter.init (front ++ (taggedPayload (dumpTags items) (dumpData items) ++ post))
      (taggedPayload (dumpTags items) (dumpData items)).length front.length = some it ∧
    ∀ k ≤ reads.length, ∃ it', readAll fpu (reads.take k) it = some it' ∧ it'.count = k ∧
      it'.rdpos = argumentAt front items k

/-- An iterator stays aligned if and only if every read fits its argument. -/
theorem staysAligned_iff_fits (fpu : DoubleUnit) (front : List Byte) (items : List DumpItem)
    (post : List Byte) (reads : List Read) (hitems : ∀ x ∈ items, IsArgument x)
    (hsize : (taggedPayload (dumpTags items) (dumpData items)).length < 2 ^ 31)
    (hreads : reads.length ≤ items.length) :
    StaysAligned fpu front items post reads ↔ ∀ p ∈ reads.zip items, p.1.Fits p.2 := by
  have hsmall : (dumpData items).length < 2 ^ 31 := by
    rw [taggedPayload, List.length_append] at hsize
    omega
  obtain ⟨it, pad, hinit, hcount, -, hrdpos, -, hbefore⟩ :=
    init_before front post (dumpTags_ne_zero items) hsmall
  rw [← inStep_iff hitems hreads hbefore]
  constructor
  · intro h k hk
    obtain ⟨it', hinit', hrun⟩ := h
    obtain rfl : it = it' := Option.some.inj (hinit.symm.trans hinit')
    obtain ⟨it'', hread, hcount', hrdpos'⟩ := hrun k hk
    refine ⟨it'', hread, by omega, ?_⟩
    rw [hrdpos', hrdpos, argumentAt]
  · intro h
    refine ⟨it, hinit, fun k hk => ?_⟩
    obtain ⟨it', hread, hcount', hrdpos'⟩ := h k hk
    refine ⟨it', hread, by omega, ?_⟩
    rw [hrdpos', hrdpos, argumentAt]

/-- A conversion unit for messages without doubles. -/
def plainUnit : DoubleUnit where
  int32OfFloat := id
  floatOfInt32 := id
  floatOfDouble := fun x => x.setWidth 32
  doubleOfFloat := fun x => x.setWidth 64
  doubleOfInt32 := fun x => x.setWidth 64

theorem staysAligned_iff_fits_int_float :
    StaysAligned plainUnit [] [.int 7#32, .float 0x43dc0000#32] [] [.getf 0#32, .geti 0#32] :=
  (staysAligned_iff_fits plainUnit [] [.int 7#32, .float 0x43dc0000#32] []
    [.getf 0#32, .geti 0#32] (by simp [IsArgument, DumpItem.tag]; decide) (by decide)
    (by decide)).mpr (by simp [Read.Fits, DumpItem.tag])

/-- Behind a `geti` of an empty blob, two arguments have been counted. -/
theorem not_staysAligned_blob :
    ¬ ∀ (fpu : DoubleUnit) (front : List Byte) (items : List DumpItem) (post : List Byte)
      (reads : List Read), (∀ x ∈ items, IsArgument x) →
      (taggedPayload (dumpTags items) (dumpData items)).length < 2 ^ 31 →
      reads.length ≤ items.length → StaysAligned fpu front items post reads := by
  intro h
  have hstays := h plainUnit [] [.blob 0 [] (by decide) (by decide), .int 7#32] [] [.geti 0#32]
    (by simp [IsArgument, DumpItem.tag]; decide) (by decide) (by decide)
  obtain ⟨it, hinit, hrun⟩ := hstays
  obtain ⟨it', hread, hcount, -⟩ := hrun 1 (by decide)
  have htwice : ((LiveIter.init (taggedPayload [chr 'b', chr 'i'] [0, 0, 0, 0, 0, 0, 0, 7])
      12 0).bind (readAll plainUnit [.geti 0#32])).map LiveIter.count = some 2 := by decide
  have honce : ((LiveIter.init (taggedPayload [chr 'b', chr 'i'] [0, 0, 0, 0, 0, 0, 0, 7])
      12 0).bind (readAll plainUnit [.geti 0#32])).map LiveIter.count = some 1 := by
    have hinit' : LiveIter.init (taggedPayload [chr 'b', chr 'i'] [0, 0, 0, 0, 0, 0, 0, 7]) 12 0 =
        some it := hinit
    have hread' : readAll plainUnit [.geti 0#32] it = some it' := hread
    rw [hinit', Option.bind_some, hread', Option.map_some, hcount]
  rw [htwice] at honce
  exact absurd honce (by decide)

end PoopWorms.Server.Live
