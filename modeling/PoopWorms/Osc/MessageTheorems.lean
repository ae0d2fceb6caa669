import PoopWorms.Osc.Message
import Mathlib.Tactic.Ring

/-!
# The bytes of an OSC message

Where the values of a message are stored, and what its payload looks like: the padded
address, the comma with the type tags in a block of their own, then the data of the
values, each a multiple of four long.
-/

namespace PoopWorms.Osc

open Octets

/-! ## Storage -/

namespace OSCMessage

/-- `m` stores the values `vs`: none, a single one, or an array of at least two. -/
def Stores (m : OSCMessage) (vs : List OSCValue) : Prop :=
  m.valueCount = vs.length ∧
    match vs with
    | [] => m.value = none ∧ m.valueArray = none
    | [v] => m.value = some v ∧ m.valueArray = none
    | _ => m.value = none ∧ m.valueArray = some vs

theorem stores_createWithAddress (a : CString) : (createWithAddress a).Stores [] :=
  ⟨rfl, rfl, rfl⟩

/-- Adding a value appends it to the values stored. -/
theorem Stores.addValue {m : OSCMessage} {vs : List OSCValue} (h : m.Stores vs)
    (n : OSCValue) : (m.addValue n).Stores (vs ++ [n]) := by
  rcases h with ⟨hcount, hstore⟩
  unfold OSCMessage.addValue
  match vs with
  | [] =>
    have hzero : m.valueCount = 0 := hcount
    rw [if_pos hzero]
    exact ⟨by simp [hzero], rfl, hstore.2⟩
  | [v] =>
    have hone : m.valueCount = 1 := hcount
    rw [if_neg (by omega), hstore.2]
    exact ⟨by simp [hone], rfl, by simp [hstore.1]⟩
  | v :: w :: us =>
    have hmany : m.valueCount = us.length + 2 := hcount
    rw [if_neg (by omega), hstore.2]
    exact ⟨by simp [hmany], hstore.1, rfl⟩

@[simp] theorem address_addValue (m : OSCMessage) (n : OSCValue) :
    (m.addValue n).address = m.address := by
  unfold addValue
  split_ifs
  · rfl
  · split <;> rfl

theorem Stores.values_eq {m : OSCMessage} {vs : List OSCValue} (h : m.Stores vs) :
    m.values = vs := by
  rcases h with ⟨hcount, hstore⟩
  unfold values
  match vs with
  | [] => rw [if_neg (by simp [hstore.1]), hstore.2]; rfl
  | [v] => rw [if_pos (by simp [hcount, hstore.1]), hstore.1]; rfl
  | v :: w :: us => rw [if_neg (by simp [hstore.1]), hstore.2]; rfl

theorem stores_foldl_addValue {m : OSCMessage} {us : List OSCValue} (h : m.Stores us)
    (vs : List OSCValue) : (vs.foldl OSCMessage.addValue m).Stores (us ++ vs) := by
  induction vs generalizing m us with
  | nil => simpa using h
  | cons v vs ih =>
    have hstep := ih (h.addValue v)
    rwa [List.append_assoc, List.singleton_append] at hstep

/-- A message keeps every value added to it, in order. -/
theorem stores_ofValues (a : CString) (vs : List OSCValue) : (ofValues a vs).Stores vs :=
  stores_foldl_addValue (stores_createWithAddress a) vs

@[simp] theorem values_ofValues (a : CString) (vs : List OSCValue) :
    (ofValues a vs).values = vs := (stores_ofValues a vs).values_eq

@[simp] theorem valueCount_ofValues (a : CString) (vs : List OSCValue) :
    (ofValues a vs).valueCount = vs.length := (stores_ofValues a vs).1

@[simp] theorem address_ofValues (a : CString) (vs : List OSCValue) :
    (ofValues a vs).address = slashed a := by
  have hfold : ∀ (m : OSCMessage), (vs.foldl addValue m).address = m.address := by
    induction vs with
    | nil => exact fun _ => rfl
    | cons v vs ih => exact fun m => (ih _).trans (address_addValue m v)
  exact hfold _

/-- An address that has its `/` is left alone. -/
theorem slashed_slashed (a : CString) : slashed (slashed a) = slashed a := by
  have hhead : (slashed a).bytes.head? = some (chr '/') := by
    unfold slashed
    simp only
    split_ifs with h
    · rfl
    · simpa using h
  have hbytes : (slashed (slashed a)).bytes = (slashed a).bytes := by
    have hne : ¬ (slashed a).bytes.head? ≠ some (chr '/') := by simp [hhead]
    exact if_neg hne
  generalize slashed (slashed a) = s at hbytes
  generalize slashed a = t at hbytes
  cases s
  cases t
  congr

end OSCMessage

/-! ## One value -/

namespace OSCValue

/-- The type tags a value writes. -/
def tags : OSCValue → List Byte
  | int _ => [chr 'i']
  | float _ => [chr 'f']
  | string _ => [chr 's']
  | color _ => [chr 'r']
  | midi .. => [chr 'm']
  | bool n => [chr (if n then 'T' else 'F')]
  | arrayOpen => [chr '[']
  | arrayClose => [chr ']']
  | null | infinity => []
  | blob _ => [chr 'b']

/-- The big-endian bytes of a word. -/
def beBytes (n : Word) : List Byte := leBytes (swap32 n)

/-- The data bytes a value writes, with the zeros up to the next value. -/
def data : OSCValue → List Byte
  | int n => beBytes n
  | float bits => strncpy (beBytes bits) 4
  | string s => padded s.bytes
  | color c => [c.red, c.green, c.blue, c.alpha].map componentByte
  | midi port status data1 data2 => [port, status, data1, data2]
  | bool _ | null | infinity | arrayOpen | arrayClose => []
  | blob d => padded (beBytes (BitVec.ofNat 32 d.bytes.length) ++ d.bytes)

@[simp] theorem length_beBytes (n : Word) : (beBytes n).length = 4 := rfl

@[simp] theorem length_data (v : OSCValue) : v.data.length = v.bufferLength := by
  cases v <;> simp [data, bufferLength, length_padded, roundUp4_eq]

theorem bufferLength_mod (v : OSCValue) : v.bufferLength % 4 = 0 := by
  cases v <;> simp [bufferLength, roundUp4_eq]

theorem tags_length_le (v : OSCValue) : v.tags.length ≤ 1 := by
  cases v <;> simp [tags]

theorem tag_ne_zero (v : OSCValue) : ∀ t ∈ v.tags, t ≠ 0#8 := by
  cases v with
  | bool n => cases n <;> decide
  | _ => simp [tags, chr]

end OSCValue

/-- The four stores of a `long`, whose shift is the arithmetic one, put its bytes down. -/
theorem longBytes_eq (w : Word) : longBytes w = leBytes w := by
  have hbyte : ∀ k, k + 8 ≤ 32 →
      (255#32 &&& w.sshiftRight k).setWidth 8 = w.extractLsb' k 8 := by
    intro k hk
    rw [← setWidth_shift]
    apply BitVec.eq_of_getLsbD_eq
    intro i hi
    simp only [BitVec.getLsbD_setWidth, BitVec.getLsbD_and, BitVec.getLsbD_ushiftRight,
      BitVec.getLsbD_sshiftRight]
    have hlt : k + i < 32 := by omega
    simp [hlt, show ¬ 32 ≤ i by omega]
  simp only [longBytes, leBytes, List.range_succ, List.range_zero, List.nil_append,
    List.cons_append, List.map_cons, List.map_nil]
  rw [hbyte (0 * 8) (by omega), hbyte (1 * 8) (by omega), hbyte (2 * 8) (by omega),
    hbyte (3 * 8) (by omega)]

/-! ## Words and floats on the wire -/

/-- The word that four bytes of memory hold. -/
def wordOf : List Byte → Word
  | [a, b, c, d] => leWord a b c d
  | _ => 0#32

theorem wordOf_leBytes (w : Word) : wordOf (leBytes w) = w := leWord_extract w

theorem leBytes_wordOf {bs : List Byte} (h : bs.length = 4) : leBytes (wordOf bs) = bs := by
  match bs, h with
  | [a, b, c, d], _ => exact leBytes_leWord a b c d

/-- The float that is read where a float was written: the bytes of its big-endian word
that `strncpy` copied. -/
def asSent (bits : Word) : Word := swap32 (wordOf (strncpy (OSCValue.beBytes bits) 4))

/-- No zero byte of the big-endian word stands before a nonzero one. -/
def StrncpySafe (bits : Word) : Prop :=
  (OSCValue.beBytes bits).Pairwise fun a b => a = 0#8 → b = 0#8

instance (bits : Word) : Decidable (StrncpySafe bits) :=
  inferInstanceAs (Decidable (List.Pairwise _ _))

/-- A float arrives as it was sent if and only if `strncpy` does not stop inside it. -/
theorem asSent_eq_self_iff (bits : Word) : asSent bits = bits ↔ StrncpySafe bits := by
  have hiff := strncpy_eq_self_iff (OSCValue.beBytes bits)
  rw [OSCValue.length_beBytes] at hiff
  unfold StrncpySafe
  rw [← hiff]
  constructor
  · intro h
    have hword : wordOf (strncpy (OSCValue.beBytes bits) 4) = swap32 bits := by
      rw [← swap32_swap32 (wordOf _)]
      exact congrArg swap32 h
    have hbytes := congrArg leBytes hword
    rwa [leBytes_wordOf (by simp)] at hbytes
  · intro h
    rw [asSent, h, OSCValue.beBytes, wordOf_leBytes, swap32_swap32]

/-! ## Layout -/

/-- The cursor after the tags `T` and the data `D`, with `k` bytes of the tag block and `r`
bytes of the data block still zero. -/
def layout (pre T : List Byte) (k : ℕ) (D : List Byte) (r : ℕ) : Cursor where
  b := pre ++ T ++ List.replicate k 0#8 ++ D ++ List.replicate r 0#8
  typeOffset := pre.length + T.length
  dataOffset := pre.length + T.length + k + D.length

/-- Writing a tag takes one byte of the tag block. -/
theorem putTag_layout (pre T : List Byte) (k : ℕ) (D : List Byte) (r : ℕ) (tag : Char) :
    (layout pre T (k + 1) D r).putTag tag = some (layout pre (T ++ [chr tag]) k D r) := by
  have hb : (layout pre T (k + 1) D r).b
      = (pre ++ T) ++ [0#8] ++ (List.replicate k 0#8 ++ D ++ List.replicate r 0#8) := by
    simp [layout, List.replicate_succ]
  have hoff : (layout pre T (k + 1) D r).typeOffset = (pre ++ T).length := by simp [layout]
  have hold : [0#8].length = [chr tag].length := rfl
  unfold Cursor.putTag
  rw [hb, hoff, poke_append rfl hold]
  simp [layout]
  omega

/-- Writing data takes the bytes up to the next offset; what it does not fill stays zero. -/
theorem putData_layout (pre T : List Byte) (k : ℕ) (D bs : List Byte) (r n next : ℕ)
    (hn : bs.length ≤ n) (hnext : next = (layout pre T k D (r + n)).dataOffset + n) :
    (layout pre T k D (r + n)).putData bs next
      = some (layout pre T k (D ++ (bs ++ List.replicate (n - bs.length) 0#8)) r) := by
  have hzeros : List.replicate (r + n) 0#8 = List.replicate bs.length 0#8
      ++ (List.replicate (n - bs.length) 0#8 ++ List.replicate r 0#8) := by
    simp only [← List.replicate_add]
    congr 1
    omega
  have hb : (layout pre T k D (r + n)).b
      = (pre ++ T ++ List.replicate k 0#8 ++ D) ++ List.replicate bs.length 0#8
        ++ (List.replicate (n - bs.length) 0#8 ++ List.replicate r 0#8) := by
    simp [layout, hzeros]
  have hoff : (layout pre T k D (r + n)).dataOffset
      = (pre ++ T ++ List.replicate k 0#8 ++ D).length := by simp [layout, add_assoc]
  have hold : (List.replicate bs.length 0#8).length = bs.length := List.length_replicate
  unfold Cursor.putData
  rw [hb, hoff, poke_append rfl hold]
  simp only [layout] at hnext ⊢
  simp [hnext]
  omega

/-- Every value writes its tags and its data, and nothing else. -/
theorem writeToBuffer_layout (v : OSCValue) (pre T : List Byte) (k : ℕ) (D : List Byte)
    (r : ℕ) (haligned : (pre.length + T.length + (k + v.tags.length) + D.length) % 4 = 0) :
    v.writeToBuffer (layout pre T (k + v.tags.length) D (r + v.bufferLength))
      = some (layout pre (T ++ v.tags) k (D ++ v.data) r) := by
  have hword : ∀ (bs : List Byte) (tag : Char), bs.length = 4 →
      ((layout pre T (k + 1) D (r + 4)).putData bs
          ((layout pre T (k + 1) D (r + 4)).dataOffset + 4) >>= fun c => c.putTag tag)
        = some (layout pre (T ++ [chr tag]) k (D ++ bs) r) := by
    intro bs tag hlen
    rw [putData_layout pre T (k + 1) D bs r 4 _ hlen.le rfl]
    simp [hlen, putTag_layout]
  unfold OSCValue.writeToBuffer
  cases v with
  | int n =>
    have h := hword (longBytes (swap32 n)) 'i' (by simp [longBytes_eq])
    simpa [OSCValue.tags, OSCValue.data, OSCValue.bufferLength, OSCValue.beBytes,
      longBytes_eq] using h
  | float bits =>
    have h := hword (strncpy (leBytes (swap32 bits)) 4) 'f' (by simp)
    simpa [OSCValue.tags, OSCValue.data, OSCValue.bufferLength, OSCValue.beBytes] using h
  | string s =>
    have hcopy : strncpy (s.bytes ++ [0#8]) s.bytes.length = s.bytes :=
      strncpy_of_ne_zero s.ne_zero _
    have hround := roundUp4_eq s.bytes.length
    have hpad : roundUp4 s.bytes.length - s.bytes.length = 4 - s.bytes.length % 4 := by omega
    have hnext : roundUp4 ((layout pre T (k + 1) D (r + roundUp4 s.bytes.length)).dataOffset
          + s.bytes.length)
        = (layout pre T (k + 1) D (r + roundUp4 s.bytes.length)).dataOffset
          + roundUp4 s.bytes.length := roundUp4_add haligned s.bytes.length
    simp only [OSCValue.tags, OSCValue.bufferLength, List.length_singleton, hcopy]
    rw [putData_layout pre T (k + 1) D s.bytes r (roundUp4 s.bytes.length) _ (by omega) hnext]
    simp [putTag_layout, OSCValue.data, padded, hpad]
  | color c =>
    have h := hword ([c.red, c.green, c.blue, c.alpha].map componentByte) 'r' rfl
    simpa [OSCValue.tags, OSCValue.data, OSCValue.bufferLength] using h
  | midi port status data1 data2 =>
    have h := hword [port, status, data1, data2] 'm' rfl
    simpa [OSCValue.tags, OSCValue.data, OSCValue.bufferLength] using h
  | bool n => simp [OSCValue.tags, OSCValue.data, OSCValue.bufferLength, putTag_layout]
  | null => simp [OSCValue.tags, OSCValue.data, OSCValue.bufferLength]
  | infinity => simp [OSCValue.tags, OSCValue.data, OSCValue.bufferLength]
  | arrayOpen => simp [OSCValue.tags, OSCValue.data, OSCValue.bufferLength, putTag_layout]
  | arrayClose => simp [OSCValue.tags, OSCValue.data, OSCValue.bufferLength, putTag_layout]
  | blob d =>
    set w := leBytes (swap32 (BitVec.ofNat 32 d.bytes.length)) with hw
    have hlen : w.length = 4 := rfl
    have hround := roundUp4_eq (4 + d.bytes.length)
    have hsplit : r + roundUp4 (4 + d.bytes.length)
        = r + (roundUp4 (4 + d.bytes.length) - 4) + 4 := by omega
    have hpad : roundUp4 (4 + d.bytes.length) - 4 - d.bytes.length
        = 4 - (4 + d.bytes.length) % 4 := by omega
    have hdata : (OSCValue.blob d).data
        = w ++ (d.bytes ++ List.replicate (4 - (4 + d.bytes.length) % 4) 0#8) := by
      simp [OSCValue.data, padded, OSCValue.beBytes, hw]
    have hnext : roundUp4 ((layout pre T (k + 1) (D ++ w)
          (r + (roundUp4 (4 + d.bytes.length) - 4))).dataOffset + d.bytes.length)
        = (layout pre T (k + 1) (D ++ w) (r + (roundUp4 (4 + d.bytes.length) - 4))).dataOffset
          + (roundUp4 (4 + d.bytes.length) - 4) := by
      have hadd := roundUp4_add haligned (4 + d.bytes.length)
      simp only [layout, List.length_append, hlen, OSCValue.tags, List.length_singleton,
        ← add_assoc] at hadd ⊢
      omega
    simp only [OSCValue.tags, OSCValue.bufferLength, List.length_singleton, longBytes_eq, ← hw]
    -- the length first, then the bytes with their padding
    rw [hsplit, putData_layout pre T (k + 1) D w _ 4 _ hlen.le rfl]
    simp only [Option.bind_eq_bind, Option.bind_some, hlen, Nat.sub_self, List.replicate_zero,
      List.append_nil]
    rw [putData_layout pre T (k + 1) (D ++ w) d.bytes r _ _ (by omega) hnext]
    simp [putTag_layout, hdata, hpad]

/-! ## The payload -/

/-- The type tags of a list of values. -/
def tagString (vs : List OSCValue) : List Byte := vs.flatMap OSCValue.tags

/-- The data of a list of values. -/
def dataBlock (vs : List OSCValue) : List Byte := vs.flatMap OSCValue.data

@[simp] theorem tagString_nil : tagString [] = [] := rfl

@[simp] theorem tagString_cons (v : OSCValue) (vs : List OSCValue) :
    tagString (v :: vs) = v.tags ++ tagString vs := rfl

@[simp] theorem dataBlock_nil : dataBlock [] = [] := rfl

@[simp] theorem dataBlock_cons (v : OSCValue) (vs : List OSCValue) :
    dataBlock (v :: vs) = v.data ++ dataBlock vs := rfl

theorem length_tagString_le (vs : List OSCValue) : (tagString vs).length ≤ vs.length := by
  induction vs with
  | nil => simp
  | cons v vs ih =>
    have hv := v.tags_length_le
    simp only [tagString_cons, List.length_append, List.length_cons]
    omega

theorem tagString_ne_zero (vs : List OSCValue) : ∀ t ∈ tagString vs, t ≠ 0#8 := by
  intro t ht
  rcases List.mem_flatMap.mp ht with ⟨v, -, hv⟩
  exact v.tag_ne_zero t hv

theorem length_dataBlock (vs : List OSCValue) :
    (dataBlock vs).length = (vs.map OSCValue.bufferLength).sum := by
  simp [dataBlock, List.length_flatMap]

theorem length_dataBlock_mod (vs : List OSCValue) : (dataBlock vs).length % 4 = 0 := by
  induction vs with
  | nil => rfl
  | cons v vs ih =>
    have hv := v.bufferLength_mod
    simp only [dataBlock_cons, List.length_append, OSCValue.length_data]
    omega

/-- The values of a message fill their two blocks from the front. -/
theorem writeValues_layout (vs : List OSCValue) (pre T : List Byte) (k : ℕ) (D : List Byte)
    (r : ℕ)
    (haligned : (pre.length + T.length + (k + (tagString vs).length) + D.length) % 4 = 0) :
    OSCMessage.writeValues vs
        (layout pre T (k + (tagString vs).length) D (r + (dataBlock vs).length))
      = some (layout pre (T ++ tagString vs) k (D ++ dataBlock vs) r) := by
  induction vs generalizing T D with
  | nil => simp [OSCMessage.writeValues]
  | cons v vs ih =>
    have hdata := v.bufferLength_mod
    have hk : k + (tagString (v :: vs)).length
        = k + (tagString vs).length + v.tags.length := by
      simp only [tagString_cons, List.length_append]
      omega
    have hr : r + (dataBlock (v :: vs)).length
        = r + (dataBlock vs).length + v.bufferLength := by
      simp only [dataBlock_cons, List.length_append, OSCValue.length_data]
      omega
    rw [hk] at haligned
    rw [hk, hr, OSCMessage.writeValues, List.foldlM_cons,
      writeToBuffer_layout v pre T _ D _ haligned]
    have hrest := ih (T ++ v.tags) (D ++ v.data) (by
      simp only [List.length_append, OSCValue.length_data]
      omega)
    simpa [OSCMessage.writeValues] using hrest

/-- The tag block: a comma, the tags, zeros up to the room made for one tag a value. -/
def tagBlock (vs : List OSCValue) : List Byte :=
  chr ',' :: tagString vs
    ++ List.replicate (roundUp4 (vs.length + 1) - (1 + (tagString vs).length)) 0#8

theorem length_tagBlock (vs : List OSCValue) :
    (tagBlock vs).length = roundUp4 (vs.length + 1) := by
  have htags := length_tagString_le vs
  have hround := roundUp4_eq (vs.length + 1)
  simp only [tagBlock, List.length_append, List.length_cons, List.length_replicate]
  omega

/-- `writeToBuffer:` up to the values: the address and the comma. -/
def OSCMessage.beginWrite (m : OSCMessage) (b : List Byte) : Option Cursor := do
  let length := m.address.bytes.length
  let b ← poke b 0 (strncpy (m.address.bytes ++ [0#8]) length)
  let b ← poke b (roundUp4 length) [chr ',']
  return ⟨b, roundUp4 length + 1, roundUp4 (roundUp4 length + 1 + m.valueCount)⟩

theorem OSCMessage.writeToBuffer_eq (m : OSCMessage) (b : List Byte) :
    m.writeToBuffer b = (m.beginWrite b).bind fun c =>
      (OSCMessage.writeValues m.values c).map Cursor.b := by
  unfold OSCMessage.writeToBuffer OSCMessage.beginWrite
  simp only [Option.bind_eq_bind, Option.pure_def, Option.bind_assoc, Option.bind_some,
    Option.map_eq_bind]
  rfl

/-- What stands in front of the tags, and the room that they have behind the ones that are
written. -/
def messageHead (a : CString) : List Byte := padded (OSCMessage.slashed a).bytes ++ [chr ',']

def spareTags (vs : List OSCValue) : ℕ := roundUp4 (vs.length + 1) - (1 + (tagString vs).length)

theorem spareTags_add (vs : List OSCValue) :
    spareTags vs + (tagString vs).length = roundUp4 (vs.length + 1) - 1 := by
  have htags := length_tagString_le vs
  have hround := roundUp4_eq (vs.length + 1)
  unfold spareTags
  omega

/-- There is room for a NUL behind the tags. -/
theorem spareTags_pos (vs : List OSCValue) : 0 < spareTags vs := by
  have htags := length_tagString_le vs
  have hround := roundUp4_eq (vs.length + 1)
  unfold spareTags
  omega

theorem length_messageHead (a : CString) :
    (messageHead a).length = roundUp4 (OSCMessage.slashed a).bytes.length + 1 := by
  rw [messageHead, List.length_append, length_padded, roundUp4_eq]
  rfl

theorem aligned_messageHead (a : CString) (vs : List OSCValue) :
    ((messageHead a).length + (spareTags vs + (tagString vs).length)) % 4 = 0 := by
  have hs := roundUp4_eq (OSCMessage.slashed a).bytes.length
  have ht := roundUp4_eq (vs.length + 1)
  rw [length_messageHead, spareTags_add]
  omega

/-- A zeroed buffer in front of the values. -/
theorem beginWrite_ofValues (a : CString) (vs : List OSCValue) :
    (OSCMessage.ofValues a vs).beginWrite
        (List.replicate (OSCMessage.ofValues a vs).bufferLength 0#8)
      = some (layout (messageHead a) [] (spareTags vs + (tagString vs).length) []
        (0 + (dataBlock vs).length)) := by
  set s := OSCMessage.slashed a with hs
  set n := s.bytes.length with hn
  have hs4 := roundUp4_eq n
  have hpadded : padded s.bytes = s.bytes ++ List.replicate (roundUp4 n - n) 0#8 := by
    rw [padded, hs4]
    congr 2
    omega
  have hcopy : strncpy (s.bytes ++ [0#8]) n = s.bytes := strncpy_of_ne_zero s.ne_zero _
  have ht4 := roundUp4_eq (vs.length + 1)
  -- the zeroed buffer, cut where the address and the comma go
  have hbuf : List.replicate (OSCMessage.ofValues a vs).bufferLength 0#8
      = [] ++ List.replicate n 0#8 ++ (List.replicate (roundUp4 n - n) 0#8
        ++ List.replicate 1 0#8 ++ List.replicate (roundUp4 (vs.length + 1) - 1) 0#8
        ++ List.replicate (dataBlock vs).length 0#8) := by
    simp only [List.nil_append, ← List.replicate_add, OSCMessage.bufferLength,
      OSCMessage.address_ofValues, OSCMessage.valueCount_ofValues, OSCMessage.values_ofValues,
      length_dataBlock, ← hs, ← hn]
    congr 1
    omega
  unfold OSCMessage.beginWrite
  simp only [OSCMessage.address_ofValues, OSCMessage.valueCount_ofValues, ← hs, ← hn, hcopy, hbuf]
  rw [poke_append (by simp) (by simp [hn])]
  simp only [Option.bind_eq_bind, Option.bind_some, List.nil_append]
  rw [show s.bytes ++ (List.replicate (roundUp4 n - n) 0#8 ++ List.replicate 1 0#8
        ++ List.replicate (roundUp4 (vs.length + 1) - 1) 0#8
        ++ List.replicate (dataBlock vs).length 0#8)
      = padded s.bytes ++ List.replicate 1 0#8
        ++ (List.replicate (roundUp4 (vs.length + 1) - 1) 0#8
          ++ List.replicate (dataBlock vs).length 0#8) by simp [hpadded],
    poke_append (by simp [hpadded, ← hn]; omega) (by simp)]
  simp only [Option.bind_some]
  have hd := roundUp4_eq (roundUp4 n + 1 + vs.length)
  have hhead := length_messageHead a
  rw [← hs, ← hn] at hhead
  simp only [layout, spareTags_add, Option.pure_def, Option.some.injEq, Cursor.mk.injEq]
  refine ⟨by simp [messageHead, ← hs], ?_, ?_⟩
  · simp only [hhead, List.length_nil, Nat.add_zero]
  · simp only [hhead, List.length_nil]
    omega

/-- The payload of a message: address, tags, data. -/
theorem payload_ofValues (a : CString) (vs : List OSCValue) :
    (OSCMessage.ofValues a vs).payload
      = some (padded (OSCMessage.slashed a).bytes ++ tagBlock vs ++ dataBlock vs) := by
  have hvalues := writeValues_layout vs (messageHead a) [] (spareTags vs) [] 0 (by
    simpa using aligned_messageHead a vs)
  rw [OSCMessage.payload, OSCMessage.writeToBuffer_eq, beginWrite_ofValues, Option.bind_some,
    OSCMessage.values_ofValues, hvalues]
  simp [layout, messageHead, spareTags, tagBlock]

end PoopWorms.Osc
