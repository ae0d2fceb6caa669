import PoopWorms.Osc.MessageTheorems
import PoopWorms.Osc.Parse

/-!
# Which messages survive the way through a buffer

What the parser does with the data of each value at the place where it was written, and
how far it strays once it has read a string: the index of the string's end is added to the
index of its start, so that every later read is at least eight bytes too far.
-/

namespace PoopWorms.Osc

open Octets

/-! ## Single steps -/

theorem orBytes_eq (x y z w : Byte) : orBytes x y z w = leWord x y z w := by
  apply BitVec.eq_of_getLsbD_eq
  intro i hi
  simp only [orBytes, getLsbD_leWord, BitVec.getLsbD_or, BitVec.getLsbD_shiftLeft,
    BitVec.getLsbD_setWidth, BitVec.getLsbD_zero, Bool.false_or]
  have hx : 8 ≤ i → x.getLsbD i = false := BitVec.getLsbD_of_ge x i
  have hy : 16 ≤ i → y.getLsbD (i - 8) = false := fun h => BitVec.getLsbD_of_ge y _ (by omega)
  have hz : 24 ≤ i → z.getLsbD (i - 16) = false :=
    fun h => BitVec.getLsbD_of_ge z _ (by omega)
  rcases Nat.lt_or_ge i 8 with h | h
  · simp [h, show i < 16 by omega, show i < 24 by omega, hi]
  · rcases Nat.lt_or_ge i 16 with h' | h'
    · simp [h', show i < 24 by omega, hi, hx h, show ¬ i < 8 by omega,
        show i - 8 < 8 by omega, show i - 8 < 32 by omega]
    · rcases Nat.lt_or_ge i 24 with h'' | h''
      · simp [h'', hi, hx h, hy h', show ¬ i < 8 by omega, show ¬ i < 16 by omega,
          show ¬ i - 8 < 8 by omega, show i - 16 < 8 by omega, show i - 16 < 32 by omega,
          show i - 8 - 8 = i - 16 by omega]
      · simp [hi, hx h, hy h', hz h'', show ¬ i < 8 by omega, show ¬ i < 16 by omega,
          show ¬ i < 24 by omega, show ¬ i - 8 < 8 by omega, show ¬ i - 8 - 8 < 8 by omega,
          show i - 24 < 32 by omega, show i - 8 - 8 - 8 = i - 24 by omega]

theorem skipPadding_eq (i : ℕ) : skipPadding i = roundUp4 i := by
  unfold skipPadding roundUp4
  split_ifs <;> omega

theorem stringWithCString_bytes (s : CString) : stringWithCString s.bytes = some s := by
  unfold stringWithCString
  rw [dif_pos s.ascii]

/-- The NUL behind a stretch of other bytes. -/
theorem findNul_append {s : List Byte} (hs : ∀ b ∈ s, b ≠ 0#8) (pre post : List Byte) :
    findNul (pre ++ (s ++ 0#8 :: post)) pre.length = some (pre.length + s.length) := by
  have hidx : (s ++ 0#8 :: post).findIdx? (· = 0#8) = some s.length := by
    induction s with
    | nil => rfl
    | cons a s ih =>
      have ha : a ≠ 0#8 := hs a (by simp)
      rw [List.cons_append, List.findIdx?_cons, ih (fun b hb => hs b (by simp [hb]))]
      simp [ha]
  rw [findNul, List.drop_left, hidx]
  rfl

theorem fourBytes_append (pre : List Byte) (x y z w : Byte) (post : List Byte) :
    fourBytes (pre ++ ([x, y, z, w] ++ post)) pre.length = some (x, y, z, w) := by
  rw [fourBytes, List.drop_left]
  rfl

/-- Four bytes are only read where there are four. -/
theorem length_of_fourBytes {b : List Byte} {i : ℕ} {q : Byte × Byte × Byte × Byte}
    (h : fourBytes b i = some q) : i + 4 ≤ b.length := by
  unfold fourBytes at h
  have hlen := List.length_drop (i := i) (l := b)
  split at h
  · rename_i hdrop
    rw [hdrop] at hlen
    simp only [List.length_cons] at hlen
    omega
  · cases h

theorem dataWithBytes_append (pre : List Byte) (d : NSData) (post : List Byte) :
    dataWithBytes (pre ++ (d.bytes ++ post)) pre.length (BitVec.ofNat 32 d.bytes.length)
      = some d := by
  have hlt := d.length_lt
  have hnat : (BitVec.ofNat 32 d.bytes.length).toNat = d.bytes.length := by
    rw [BitVec.toNat_ofNat]
    omega
  unfold dataWithBytes
  simp only [hnat]
  rw [dif_pos ⟨hlt, by simp⟩]
  simp

/-! ## The cases of the parser -/

section Cases

variable (b : List Byte) (i : ℕ)

theorem parseArgument_int : parseArgument b (chr 'i') i
    = (fourBytes b i).map fun (x, y, z, w) =>
        (some (.int (swap32 (leWord x y z w))), i + 4) := by
  unfold parseArgument
  rw [if_pos rfl]
  cases fourBytes b i with
  | none => rfl
  | some q => simp [orBytes_eq]

theorem parseArgument_float : parseArgument b (chr 'f') i
    = (fourBytes b i).map fun (x, y, z, w) =>
        (some (.float (swap32 (leWord x y z w))), i + 4) := by
  unfold parseArgument
  rw [if_neg (by decide), if_pos rfl]
  cases fourBytes b i <;> rfl

theorem parseArgument_string : parseArgument b (chr 's') i
    = (findNul b i).map fun j =>
        ((stringWithCString ((b.drop i).takeWhile (· ≠ 0#8))).map .string,
          roundUp4 (i + (j - 1) + 1)) := by
  unfold parseArgument
  rw [if_neg (by decide), if_neg (by decide), if_pos (by decide)]
  cases findNul b i <;> rfl

theorem parseArgument_blob : parseArgument b (chr 'b') i
    = (fourBytes b i).bind fun (x, y, z, w) =>
        (dataWithBytes b (i + 4) (swap32 (leWord x y z w))).map fun d =>
          (some (.blob d), roundUp4 (i + 4 + (swap32 (leWord x y z w)).toNat)) := by
  unfold parseArgument
  rw [if_neg (by decide), if_neg (by decide), if_neg (by decide), if_pos rfl]
  cases fourBytes b i with
  | none => rfl
  | some q =>
    simp only [orBytes_eq, Option.bind_eq_bind, Option.bind_some]
    cases dataWithBytes b (i + 4) (swap32 (leWord q.1 q.2.1 q.2.2.1 q.2.2.2)) <;> rfl

theorem parseArgument_color : parseArgument b (chr 'r') i
    = (fourBytes b i).map fun (x, y, z, w) => (some (.color (UIColor.ofBytes x y z w)), i + 4) := by
  unfold parseArgument
  rw [if_neg (by decide), if_neg (by decide), if_neg (by decide), if_neg (by decide),
    if_neg (by decide), if_neg (by decide), if_pos rfl]
  cases fourBytes b i <;> rfl

theorem parseArgument_midi : parseArgument b (chr 'm') i
    = (fourBytes b i).map fun (x, y, z, w) => (some (.midi x y z w), i + 4) := by
  unfold parseArgument
  rw [if_neg (by decide), if_neg (by decide), if_neg (by decide), if_neg (by decide),
    if_neg (by decide), if_neg (by decide), if_neg (by decide), if_pos rfl]
  cases fourBytes b i <;> rfl

theorem parseArgument_bool (n : Bool) : parseArgument b (chr (if n then 'T' else 'F')) i
    = some (some (.bool n), i) := by
  cases n <;> rfl

end Cases

/-! ## Values that parse -/

namespace OSCValue

/-- The parser makes values of this kind: no nil, no infinity, no bracket. -/
def Parsed : OSCValue → Prop
  | null | infinity | arrayOpen | arrayClose => False
  | _ => True

/-- A colour of 8-bit components, as the parser makes them. -/
def EightBit : OSCValue → Prop
  | color c => ∃ r g b a, c = UIColor.ofBytes r g b a
  | _ => True

def IsString : OSCValue → Prop
  | string _ => True
  | _ => False

instance : DecidablePred IsString := fun v => by cases v <;> unfold IsString <;> infer_instance

/-- The value the parser makes of the data a value wrote. -/
def asParsed : OSCValue → OSCValue
  | float bits => float (asSent bits)
  | v => v

/-- The value is not a float that `strncpy` cuts short. -/
def Safe : OSCValue → Prop
  | float bits => StrncpySafe bits
  | _ => True

theorem asParsed_eq_self_iff (v : OSCValue) : v.asParsed = v ↔ v.Safe := by
  cases v with
  | float bits => simp [asParsed, Safe, asSent_eq_self_iff]
  | _ => simp [asParsed, Safe]

theorem Parsed.length_tags {v : OSCValue} (h : v.Parsed) : v.tags.length = 1 := by
  cases v <;> first | rfl | cases h

theorem length_tagString_of_parsed {vs : List OSCValue} (hv : ∀ v ∈ vs, v.Parsed) :
    (tagString vs).length = vs.length := by
  induction vs with
  | nil => rfl
  | cons v vs ih =>
    have hlen := (hv v (by simp)).length_tags
    have hrest := ih (fun w hw => hv w (by simp [hw]))
    simp only [tagString_cons, List.length_append, List.length_cons]
    omega

theorem Parsed.exists_tag {v : OSCValue} (h : v.Parsed) : ∃ tag, v.tags = [tag] :=
  List.length_eq_one_iff.mp h.length_tags

/-- Where the parser goes on after a value that was written at index `i`. -/
def nextIndex : OSCValue → ℕ → ℕ
  | string s, i => i + roundUp4 s.bytes.length + i
  | v, i => i + v.bufferLength

theorem nextIndex_string (s : CString) (i : ℕ) :
    (string s).nextIndex i = i + (string s).bufferLength + i := rfl

theorem nextIndex_of_not_isString {v : OSCValue} (h : ¬ v.IsString) (i : ℕ) :
    v.nextIndex i = i + v.bufferLength := by
  cases v with
  | string s => exact absurd trivial h
  | _ => rfl

end OSCValue

open OSCValue

/-- The NUL that is found lies at or behind the start, and in the buffer. -/
theorem findNul_eq_some {b : List Byte} {i k : ℕ} (h : findNul b i = some k) :
    i ≤ k ∧ k < b.length := by
  rcases Option.map_eq_some_iff.mp h with ⟨n, hn, hk⟩
  rcases List.findIdx?_eq_some_iff_getElem.mp hn with ⟨hlt, -⟩
  rw [List.length_drop] at hlt
  omega

/-- The C string at an index ends where the first NUL is found. -/
theorem length_takeWhile_of_findNul {b : List Byte} {i k : ℕ} (h : findNul b i = some k) :
    ((b.drop i).takeWhile (· ≠ 0#8)).length = k - i := by
  rcases Option.map_eq_some_iff.mp h with ⟨n, hn, hk⟩
  rcases List.findIdx?_eq_some_iff_findIdx_eq.mp hn with ⟨hlt, hidx⟩
  have hpred : (fun a : Byte => !decide (a ≠ 0#8)) = (· = 0#8) := by
    funext a
    simp
  rw [List.takeWhile_eq_take_findIdx_not, hpred, hidx, List.length_take]
  omega

theorem stringWithCString_eq_some {bs : List Byte} {s : CString}
    (h : stringWithCString bs = some s) : s.bytes = bs := by
  unfold stringWithCString at h
  split_ifs at h
  cases h
  rfl

theorem dataWithBytes_eq_some {b : List Byte} {i : ℕ} {n : Word} {d : NSData}
    (h : dataWithBytes b i n = some d) : d.bytes.length = n.toNat ∧ i + n.toNat ≤ b.length := by
  unfold dataWithBytes at h
  split_ifs at h with hle
  cases h
  refine ⟨?_, hle.2⟩
  rw [List.length_take, List.length_drop]
  omega

theorem exists_fourBytes {bs : List Byte} (h : bs.length = 4) :
    ∃ x y z w, bs = [x, y, z, w] := by
  match bs, h with
  | [x, y, z, w], _ => exact ⟨x, y, z, w, rfl⟩

/-- The parser at the place where a value was written. -/
theorem parseArgument_data {v : OSCValue} (hv : v.Parsed) (h8 : v.EightBit) {tag : Byte}
    (htag : v.tags = [tag]) (pre post : List Byte) (hpre : 0 < pre.length)
    (hmod : pre.length % 4 = 0) :
    parseArgument (pre ++ (v.data ++ post)) tag pre.length
      = some (some v.asParsed, v.nextIndex pre.length) := by
  cases v with
  | int n =>
    obtain rfl : chr 'i' = tag := by simpa [tags] using htag
    rcases exists_fourBytes (length_beBytes n) with ⟨x, y, z, w, hbytes⟩
    have hn : swap32 (leWord x y z w) = n := by
      rw [show leWord x y z w = wordOf (beBytes n) by rw [hbytes]; rfl, beBytes,
        wordOf_leBytes, swap32_swap32]
    rw [parseArgument_int, data, hbytes, fourBytes_append]
    simp only [Option.map_some, hn]
    rfl
  | float bits =>
    obtain rfl : chr 'f' = tag := by simpa [tags] using htag
    rcases exists_fourBytes (length_strncpy (beBytes bits) 4) with ⟨x, y, z, w, hbytes⟩
    have hn : swap32 (leWord x y z w) = asSent bits := by
      rw [asSent, hbytes]
      rfl
    rw [parseArgument_float, data, hbytes, fourBytes_append]
    simp only [Option.map_some, hn]
    rfl
  | string s =>
    obtain rfl : chr 's' = tag := by simpa [tags] using htag
    obtain ⟨k, hk⟩ : ∃ k, padded s.bytes ++ post = s.bytes ++ 0#8 :: k := by
      obtain ⟨m, hm⟩ : ∃ m, 4 - s.bytes.length % 4 = m + 1 :=
        ⟨3 - s.bytes.length % 4, by omega⟩
      exact ⟨List.replicate m 0#8 ++ post, by simp [padded, hm, List.replicate_succ]⟩
    have hread : ((pre ++ (padded s.bytes ++ post)).drop pre.length).takeWhile (· ≠ 0#8)
        = s.bytes := by
      rw [List.drop_left, takeWhile_padded s.ne_zero]
    have hnext : roundUp4 (pre.length + (pre.length + s.bytes.length - 1) + 1)
        = (string s).nextIndex pre.length := by
      have hround := roundUp4_eq (pre.length + (pre.length + s.bytes.length - 1) + 1)
      have hround' := roundUp4_eq s.bytes.length
      simp only [nextIndex]
      omega
    rw [parseArgument_string, data, hread, hk, findNul_append s.ne_zero pre k, Option.map_some, hnext,
      stringWithCString_bytes]
    rfl
  | color c =>
    obtain rfl : chr 'r' = tag := by simpa [tags] using htag
    rcases h8 with ⟨r, g, b, a, rfl⟩
    have hdata : (color (UIColor.ofBytes r g b a)).data = [r, g, b, a] := by
      simp [data, UIColor.ofBytes, componentByte_toCGFloat]
    rw [parseArgument_color, hdata, fourBytes_append]
    rfl
  | midi port status data1 data2 =>
    obtain rfl : chr 'm' = tag := by simpa [tags] using htag
    rw [parseArgument_midi, data, fourBytes_append]
    rfl
  | bool n =>
    obtain rfl : chr (if n then 'T' else 'F') = tag := by simpa [tags] using htag
    rw [parseArgument_bool]
    rfl
  | blob d =>
    obtain rfl : chr 'b' = tag := by simpa [tags] using htag
    have hlt := d.length_lt
    have hnat : (BitVec.ofNat 32 d.bytes.length).toNat = d.bytes.length := by
      rw [BitVec.toNat_ofNat]
      omega
    rcases exists_fourBytes (length_beBytes (BitVec.ofNat 32 d.bytes.length))
      with ⟨x, y, z, w, hbytes⟩
    have hn : swap32 (leWord x y z w) = BitVec.ofNat 32 d.bytes.length := by
      rw [show leWord x y z w = wordOf (beBytes (BitVec.ofNat 32 d.bytes.length)) by
        rw [hbytes]; rfl, beBytes, wordOf_leBytes, swap32_swap32]
    obtain ⟨pad, hpad⟩ : ∃ pad, (blob d).data ++ post = [x, y, z, w] ++ (d.bytes ++ pad) :=
      ⟨List.replicate (4 - ([x, y, z, w] ++ d.bytes).length % 4) 0#8 ++ post, by
        simp only [data, padded, hbytes, List.append_assoc]⟩
    have hblob : dataWithBytes (pre ++ ([x, y, z, w] ++ (d.bytes ++ pad))) (pre.length + 4)
        (BitVec.ofNat 32 d.bytes.length) = some d := by
      have happend := dataWithBytes_append (pre ++ [x, y, z, w]) d pad
      simpa using happend
    have hnext : roundUp4 (pre.length + 4 + d.bytes.length)
        = (blob d).nextIndex pre.length := by
      have hadd := roundUp4_add hmod (4 + d.bytes.length)
      simp only [nextIndex, bufferLength]
      rw [add_assoc, hadd]
    rw [parseArgument_blob, hpad, fourBytes_append]
    simp only [Option.bind_some, hn, hnat, hblob, Option.map_some, hnext]
    rfl
  | null => cases hv
  | infinity => cases hv
  | arrayOpen => cases hv
  | arrayClose => cases hv

/-- What a successful read says about the value and the index, wherever it took place. -/
theorem parseArgument_eq_some {v : OSCValue} (hv : v.Parsed) {tag : Byte} (htag : v.tags = [tag])
    {b : List Byte} {i j : ℕ} (hi : 0 < i) (hmod : i % 4 = 0)
    (h : parseArgument b tag i = some (some v, j)) :
    j = v.nextIndex i ∧ (v.bufferLength = 0 ∨ i + v.bufferLength ≤ b.length + 4) := by
  cases v with
  | int n =>
    obtain rfl : chr 'i' = tag := by simpa [tags] using htag
    rw [parseArgument_int] at h
    rcases Option.map_eq_some_iff.mp h with ⟨q, hq, heq⟩
    have hlen := length_of_fourBytes hq
    have hj : i + 4 = j := (Prod.mk.inj heq).2
    exact ⟨hj.symm, Or.inr (by simp only [bufferLength]; omega)⟩
  | float bits =>
    obtain rfl : chr 'f' = tag := by simpa [tags] using htag
    rw [parseArgument_float] at h
    rcases Option.map_eq_some_iff.mp h with ⟨q, hq, heq⟩
    have hlen := length_of_fourBytes hq
    have hj : i + 4 = j := (Prod.mk.inj heq).2
    exact ⟨hj.symm, Or.inr (by simp only [bufferLength]; omega)⟩
  | string s =>
    obtain rfl : chr 's' = tag := by simpa [tags] using htag
    rw [parseArgument_string] at h
    rcases Option.map_eq_some_iff.mp h with ⟨k, hk, heq⟩
    rcases Prod.mk.inj heq with ⟨hstring, hj⟩
    rcases findNul_eq_some hk with ⟨hki, hkb⟩
    -- the string that was read ends at the NUL that was found
    have hs : s.bytes.length = k - i := by
      rcases Option.map_eq_some_iff.mp hstring with ⟨s', hs', hss'⟩
      have hss : s' = s := OSCValue.string.inj hss'
      subst hss
      rw [stringWithCString_eq_some hs', length_takeWhile_of_findNul hk]
    have hround := roundUp4_eq s.bytes.length
    have hround' := roundUp4_eq (i + (k - 1) + 1)
    refine ⟨?_, Or.inr ?_⟩
    · simp only [nextIndex]
      omega
    · simp only [bufferLength]
      omega
  | color c =>
    obtain rfl : chr 'r' = tag := by simpa [tags] using htag
    rw [parseArgument_color] at h
    rcases Option.map_eq_some_iff.mp h with ⟨q, hq, heq⟩
    have hlen := length_of_fourBytes hq
    have hj : i + 4 = j := (Prod.mk.inj heq).2
    exact ⟨hj.symm, Or.inr (by simp only [bufferLength]; omega)⟩
  | midi port status data1 data2 =>
    obtain rfl : chr 'm' = tag := by simpa [tags] using htag
    rw [parseArgument_midi] at h
    rcases Option.map_eq_some_iff.mp h with ⟨q, hq, heq⟩
    have hlen := length_of_fourBytes hq
    have hj : i + 4 = j := (Prod.mk.inj heq).2
    exact ⟨hj.symm, Or.inr (by simp only [bufferLength]; omega)⟩
  | bool n =>
    obtain rfl : chr (if n then 'T' else 'F') = tag := by simpa [tags] using htag
    rw [parseArgument_bool] at h
    have hj : i = j := (Prod.mk.inj (Option.some.inj h)).2
    exact ⟨hj.symm, Or.inl rfl⟩
  | blob d =>
    obtain rfl : chr 'b' = tag := by simpa [tags] using htag
    rw [parseArgument_blob] at h
    rcases Option.bind_eq_some_iff.mp h with ⟨q, hq, hblob⟩
    rcases Option.map_eq_some_iff.mp hblob with ⟨d', hd', heq⟩
    rcases Prod.mk.inj heq with ⟨hd, hj⟩
    have hdd : d' = d := OSCValue.blob.inj (Option.some.inj hd)
    subst hdd
    rcases dataWithBytes_eq_some hd' with ⟨hlen, hbound⟩
    have hround := roundUp4_eq (4 + d'.bytes.length)
    have hadd := roundUp4_add hmod (4 + d'.bytes.length)
    refine ⟨?_, Or.inr ?_⟩
    · simp only [nextIndex, bufferLength]
      rw [← hj, ← hlen, ← hadd, add_assoc]
    · simp only [bufferLength]
      omega
  | null => cases htag
  | infinity => cases htag
  | arrayOpen => cases hv
  | arrayClose => cases hv

/-! ## The loop -/

/-- The values the loop adds to the message. -/
def parsedValues (b : List Byte) : List Byte → ℕ → Option (List OSCValue)
  | [], _ => some []
  | tag :: tags, tmpIndex => do
    let (oscValue, tmpIndex) ← parseArgument b tag tmpIndex
    let vs ← parsedValues b tags tmpIndex
    return oscValue.toList ++ vs

theorem parseArguments_eq (b tags : List Byte) (i : ℕ) (msg : OSCMessage) :
    parseArguments b tags i msg
      = (parsedValues b tags i).map fun vs => vs.foldl OSCMessage.addValue msg := by
  induction tags generalizing i msg with
  | nil => rfl
  | cons tag tags ih =>
    unfold parseArguments parsedValues
    cases parseArgument b tag i with
    | none => rfl
    | some q =>
      simp only [Option.bind_eq_bind, Option.bind_some, ih]
      cases parsedValues b tags q.2 with
      | none => rfl
      | some vs => cases hq : q.1 <;> simp

/-- Only a value of a kind that the parser makes is ever made. -/
theorem parsed_of_parseArgument {b : List Byte} {tag : Byte} {i j : ℕ} {v : OSCValue}
    (h : parseArgument b tag i = some (some v, j)) : v.Parsed := by
  unfold parseArgument at h
  split_ifs at h
  case pos =>
    rcases Option.bind_eq_some_iff.mp h with ⟨q, -, hq⟩
    cases hq
    trivial
  case pos =>
    rcases Option.bind_eq_some_iff.mp h with ⟨q, -, hq⟩
    cases hq
    trivial
  case pos =>
    rcases Option.bind_eq_some_iff.mp h with ⟨q, -, hq⟩
    rcases Option.map_eq_some_iff.mp (Prod.mk.inj (Option.some.inj hq)).1 with ⟨s, -, rfl⟩
    trivial
  case pos =>
    rcases Option.bind_eq_some_iff.mp h with ⟨q, -, hq⟩
    rcases Option.bind_eq_some_iff.mp hq with ⟨d, -, hd⟩
    cases hd
    trivial
  case pos => cases h
  case pos => cases h
  case pos =>
    rcases Option.bind_eq_some_iff.mp h with ⟨q, -, hq⟩
    cases hq
    trivial
  case pos =>
    rcases Option.bind_eq_some_iff.mp h with ⟨q, -, hq⟩
    cases hq
    trivial
  case pos => cases h; trivial
  case pos => cases h; trivial
  case neg => cases h

theorem parsed_of_parsedValues {b tags : List Byte} {i : ℕ} {vs : List OSCValue}
    (h : parsedValues b tags i = some vs) : vs.length ≤ tags.length ∧ ∀ v ∈ vs, v.Parsed := by
  induction tags generalizing i vs with
  | nil =>
    cases h
    simp
  | cons tag tags ih =>
    rcases Option.bind_eq_some_iff.mp h with ⟨q, hq, h₁⟩
    rcases Option.bind_eq_some_iff.mp h₁ with ⟨us, hus, h₂⟩
    have hvs : q.1.toList ++ us = vs := Option.some.inj h₂
    subst hvs
    have hrest := ih hus
    cases hv : q.1 with
    | none => exact ⟨by simpa using Nat.le_succ_of_le hrest.1, by simpa using hrest.2⟩
    | some v =>
      have hparsed : v.Parsed := parsed_of_parseArgument (j := q.2) (by rw [hq, ← hv])
      exact ⟨by simpa using hrest.1, by simpa using ⟨hparsed, hrest.2⟩⟩

/-- A list of parsed values starts with the value of its first tag. -/
theorem parsedValues_cons {b : List Byte} {tag : Byte} {v : OSCValue} {vs : List OSCValue}
    {i : ℕ} (hv : ∀ w ∈ vs, w.Parsed) :
    parsedValues b (tag :: tagString vs) i = some (v :: vs) ↔
      ∃ j, parseArgument b tag i = some (some v, j) ∧
        parsedValues b (tagString vs) j = some vs := by
  have htags := length_tagString_of_parsed hv
  constructor
  · intro h
    rcases Option.bind_eq_some_iff.mp h with ⟨q, hq, h₁⟩
    rcases Option.bind_eq_some_iff.mp h₁ with ⟨us, hus, h₂⟩
    have hsplit : q.1.toList ++ us = v :: vs := Option.some.inj h₂
    have hlen := (parsed_of_parsedValues hus).1
    cases hq₁ : q.1 with
    | none =>
      -- then the other tags would have given one value too many
      rw [hq₁] at hsplit
      have hus' : us.length = vs.length + 1 := by simpa using congrArg List.length hsplit
      omega
    | some w =>
      rw [hq₁] at hsplit
      rcases List.cons.inj hsplit with ⟨hw, hus'⟩
      refine ⟨q.2, ?_, ?_⟩
      · rw [hq, ← hw, ← hq₁]
      · rw [hus, ← hus']
        rfl
  · rintro ⟨j, hj, hvs⟩
    rw [parsedValues, hj]
    simp only [Option.bind_eq_bind, Option.bind_some, hvs]
    rfl

/-- Values without data are read anywhere. -/
theorem parsedValues_of_bufferLength_eq_zero {vs : List OSCValue} (b : List Byte) (i : ℕ)
    (hv : ∀ v ∈ vs, v.Parsed) (hvs : ∀ v ∈ vs, v.bufferLength = 0) :
    parsedValues b (tagString vs) i = some vs := by
  induction vs with
  | nil => rfl
  | cons v vs ih =>
    have hrest := ih (fun w hw => hv w (by simp [hw])) (fun w hw => hvs w (by simp [hw]))
    have hzero : v.bufferLength = 0 := hvs v (by simp)
    have hparsed : v.Parsed := hv v (by simp)
    cases v with
    | bool n =>
      change parsedValues b (chr (if n then 'T' else 'F') :: tagString vs) i = _
      rw [parsedValues, parseArgument_bool]
      simp only [Option.bind_eq_bind, Option.bind_some, hrest]
      rfl
    | string s => simp [bufferLength, roundUp4_eq] at hzero
    | blob d => simp [bufferLength, roundUp4_eq] at hzero
    | null | infinity | arrayOpen | arrayClose => cases hparsed
    | int | float | color | midi => cases hzero

/-- After a string the reads are eight bytes or more too far: then a value with data is
never read where it was written. -/
theorem bufferLength_eq_zero_of_shifted {vs : List OSCValue} (hv : ∀ v ∈ vs, v.Parsed)
    {b : List Byte} {p k : ℕ} (hb : b.length = p + (dataBlock vs).length) (hp : 0 < p)
    (hmod : p % 4 = 0) (hk : 8 ≤ k) (hkmod : k % 4 = 0)
    (h : parsedValues b (tagString vs) (p + k) = some vs) : ∀ v ∈ vs, v.bufferLength = 0 := by
  induction vs generalizing p k with
  | nil => simp
  | cons v vs ih =>
    have hv' : ∀ w ∈ vs, w.Parsed := fun w hw => hv w (by simp [hw])
    rcases (hv v (by simp)).exists_tag with ⟨tag, htag⟩
    rw [tagString_cons, htag, List.singleton_append, parsedValues_cons hv'] at h
    rcases h with ⟨j, hj, hrest⟩
    rcases parseArgument_eq_some (hv v (by simp)) htag (by omega) (by omega) hj
      with ⟨hnext, hbound⟩
    have hb' : b.length = p + v.bufferLength + (dataBlock vs).length := by
      rw [hb, dataBlock_cons, List.length_append, length_data, add_assoc]
    have hvmod := v.bufferLength_mod
    -- the shift only grows, so the rest has no data, and `v` is the last value that could
    have hzero : ∀ w ∈ vs, w.bufferLength = 0 := by
      by_cases hs : v.IsString
      · obtain ⟨s, rfl⟩ : ∃ s, v = string s := by
          cases v with
          | string s => exact ⟨s, rfl⟩
          | _ => cases hs
        have hj' : j = p + (string s).bufferLength + (k + (p + k)) := by
          rw [hnext, nextIndex_string]
          omega
        exact ih hv' hb' (by omega) (by omega) (by omega) (by omega) (hj' ▸ hrest)
      · have hj' : j = p + v.bufferLength + k := by
          rw [hnext, nextIndex_of_not_isString hs]
          omega
        exact ih hv' hb' (by omega) (by omega) hk hkmod (hj' ▸ hrest)
    have hdata : (dataBlock vs).length = 0 := by
      rw [length_dataBlock, List.sum_eq_zero]
      intro n hn
      rcases List.mem_map.mp hn with ⟨w, hw, rfl⟩
      exact hzero w hw
    intro w hw
    rcases List.mem_cons.mp hw with rfl | hw
    · omega
    · exact hzero w hw

/-- Which lists of values are read back at the place where they were written. -/
theorem parsedValues_eq_some_iff {vs : List OSCValue} (hv : ∀ v ∈ vs, v.Parsed)
    (h8 : ∀ v ∈ vs, v.EightBit) (pre : List Byte) (hpre : 8 ≤ pre.length)
    (hmod : pre.length % 4 = 0) :
    parsedValues (pre ++ dataBlock vs) (tagString vs) pre.length = some vs ↔
      (∀ v ∈ vs, v.Safe) ∧ vs.Pairwise fun v w => v.IsString → w.bufferLength = 0 := by
  induction vs generalizing pre with
  | nil => simp [parsedValues]
  | cons v vs ih =>
    have hv' : ∀ w ∈ vs, w.Parsed := fun w hw => hv w (by simp [hw])
    rcases (hv v (by simp)).exists_tag with ⟨tag, htag⟩
    have hhead := parseArgument_data (hv v (by simp)) (h8 v (by simp)) htag pre (dataBlock vs)
      (by omega) hmod
    have hvmod := v.bufferLength_mod
    have hdata : pre ++ dataBlock (v :: vs) = pre ++ v.data ++ dataBlock vs := by simp
    have hlen : (pre ++ v.data).length = pre.length + v.bufferLength := by simp
    rw [← List.append_assoc] at hhead
    rw [tagString_cons, htag, List.singleton_append, parsedValues_cons hv', hdata, hhead,
      List.forall_mem_cons, List.pairwise_cons]
    have hcons : (∃ j, some (some v.asParsed, v.nextIndex pre.length) = some (some v, j) ∧
          parsedValues (pre ++ v.data ++ dataBlock vs) (tagString vs) j = some vs)
        ↔ v.Safe ∧ parsedValues (pre ++ v.data ++ dataBlock vs) (tagString vs)
          (v.nextIndex pre.length) = some vs := by
      rw [← asParsed_eq_self_iff]
      simp
    rw [hcons]
    by_cases hs : v.IsString
    · obtain ⟨s, rfl⟩ : ∃ s, v = string s := by
        cases v with
        | string s => exact ⟨s, rfl⟩
        | _ => cases hs
      rw [nextIndex_string]
      constructor
      · intro h
        have hzero := bufferLength_eq_zero_of_shifted hv'
          (p := pre.length + (string s).bufferLength) (k := pre.length)
          (by rw [List.length_append, hlen]) (by omega) (by omega) hpre hmod h.2
        have hsafe : ∀ w ∈ vs, w.Safe := by
          intro w hw
          have hw0 := hzero w hw
          cases w with
          | float bits => cases hw0
          | _ => trivial
        exact ⟨⟨h.1, hsafe⟩, fun w hw _ => hzero w hw,
          List.pairwise_of_forall_mem_list fun _ _ w hw _ => hzero w hw⟩
      · intro h
        exact ⟨h.1.1, parsedValues_of_bufferLength_eq_zero _ _ hv'
          fun w hw => h.2.1 w hw trivial⟩
    · have hrest := ih hv' (fun w hw => h8 w (by simp [hw])) (pre ++ v.data) (by omega)
        (by omega)
      rw [nextIndex_of_not_isString hs, ← hlen, hrest]
      simp only [hs, false_implies, implies_true, true_and, and_assoc]

/-! ## Whole messages -/

/-- The index behind the tag string of a payload, where the parser looks for data. -/
def dataStart (a : CString) (vs : List OSCValue) : ℕ :=
  (padded (OSCMessage.slashed a).bytes).length + roundUp4 (1 + (tagString vs).length)

/-- The parser finds the address and the tags of a payload, whatever its values are. -/
theorem parseRawBuffer_payload (a : CString) (vs : List OSCValue) {buffer : List Byte}
    (hbuffer : (OSCMessage.ofValues a vs).payload = some buffer) :
    parseRawBuffer buffer
      = match parsedValues buffer (tagString vs) (dataStart a vs) with
        | none => .error .outOfBounds
        | some us => .ok (OSCMessage.ofValues a us) := by
  have hpayload := payload_ofValues a vs
  rw [hbuffer, Option.some.injEq] at hpayload
  set s := OSCMessage.slashed a with hs
  have hround := roundUp4_eq (vs.length + 1)
  have htags := length_tagString_le vs
  -- behind the address and behind the tags there is a NUL
  obtain ⟨m, hm⟩ : ∃ m, 4 - s.bytes.length % 4 = m + 1 := ⟨3 - s.bytes.length % 4, by omega⟩
  obtain ⟨k, hk⟩ : ∃ k, roundUp4 (vs.length + 1) - (1 + (tagString vs).length) = k + 1 :=
    ⟨roundUp4 (vs.length + 1) - (1 + (tagString vs).length) - 1, by omega⟩
  have hcut : buffer = [] ++ (s.bytes ++ 0#8 ::
      (List.replicate m 0#8 ++ tagBlock vs ++ dataBlock vs)) := by
    rw [hpayload, padded, hm, List.replicate_succ]
    simp
  have hcut' : buffer = padded s.bytes ++ ((chr ',' :: tagString vs) ++ 0#8 ::
      (List.replicate k 0#8 ++ dataBlock vs)) := by
    rw [hpayload, tagBlock, hk, List.replicate_succ]
    simp
  have hnz : ∀ b ∈ chr ',' :: tagString vs, b ≠ 0#8 := by
    intro b hb
    rcases List.mem_cons.mp hb with rfl | hb
    · decide
    · exact tagString_ne_zero vs b hb
  have haddress : findNul buffer 0 = some s.bytes.length := by
    have h := findNul_append s.ne_zero []
      (List.replicate m 0#8 ++ tagBlock vs ++ dataBlock vs)
    rw [← hcut] at h
    simpa using h
  have hstring : stringWithCString (buffer.take s.bytes.length) = some s := by
    rw [hcut, List.nil_append, List.take_left, stringWithCString_bytes]
  have hstart : skipPadding s.bytes.length = (padded s.bytes).length := by
    rw [skipPadding_eq, length_padded, roundUp4_eq]
  have hcomma : buffer[(padded s.bytes).length]? = some (chr ',') := by
    rw [hcut', List.getElem?_append_right le_rfl]
    simp
  have hend : findNul buffer (padded s.bytes).length
      = some ((padded s.bytes).length + (1 + (tagString vs).length)) := by
    have h := findNul_append hnz (padded s.bytes) (List.replicate k 0#8 ++ dataBlock vs)
    rw [← hcut', List.length_cons] at h
    rw [h, add_comm 1]
  have hread : (buffer.drop (padded s.bytes).length).take (1 + (tagString vs).length)
      = chr ',' :: tagString vs := by
    have hlen : 1 + (tagString vs).length = (chr ',' :: tagString vs).length := by
      rw [List.length_cons, add_comm]
    rw [hcut', List.drop_left, hlen, List.take_left]
  have hdata : skipPadding ((padded s.bytes).length + (1 + (tagString vs).length))
      = dataStart a vs := by
    rw [skipPadding_eq, roundUp4_add (length_padded_mod _)]
    rfl
  have hne : buffer.length ≠ 0 := by
    rw [hcut']
    simp
  have hcreate : OSCMessage.createWithAddress s = OSCMessage.createWithAddress a := by
    unfold OSCMessage.createWithAddress
    rw [hs, OSCMessage.slashed_slashed]
  have hcommaTag : parseArgument buffer (chr ',') (dataStart a vs)
      = some (none, dataStart a vs) := rfl
  unfold parseRawBuffer
  rw [if_neg hne, haddress]
  simp only [hstring, hstart, hcomma, ne_eq, not_true_eq_false, if_false, hend,
    Nat.add_sub_cancel_left, hread, hdata, hcreate]
  rw [parseArguments, hcommaTag]
  simp only [Option.bind_eq_bind, Option.bind_some, Option.elim_none, parseArguments_eq]
  cases parsedValues buffer (tagString vs) (dataStart a vs) <;> rfl

/-- Parsing the payload of a message gives its address and its values back. -/
def RoundTrips (m : OSCMessage) : Prop :=
  ∃ buffer m', m.payload = some buffer ∧ parseRawBuffer buffer = .ok m' ∧
    m'.address = m.address ∧ m'.values = m.values

theorem roundTrips_iff_parsedValues (a : CString) (vs : List OSCValue) {buffer : List Byte}
    (hbuffer : (OSCMessage.ofValues a vs).payload = some buffer) :
    RoundTrips (OSCMessage.ofValues a vs) ↔
      parsedValues buffer (tagString vs) (dataStart a vs) = some vs := by
  have hparse := parseRawBuffer_payload a vs hbuffer
  constructor
  · rintro ⟨buffer', m', hbuffer', hm', -, hvalues⟩
    have hb : buffer = buffer' := Option.some.inj (hbuffer.symm.trans hbuffer')
    subst hb
    rw [hparse] at hm'
    cases hus : parsedValues buffer (tagString vs) (dataStart a vs) with
    | none =>
      rw [hus] at hm'
      cases hm'
    | some us =>
      rw [hus] at hm'
      have hmsg : OSCMessage.ofValues a us = m' := Except.ok.inj hm'
      rw [← hmsg, OSCMessage.values_ofValues, OSCMessage.values_ofValues] at hvalues
      rw [hvalues]
  · intro hus
    rw [hus] at hparse
    exact ⟨buffer, _, hbuffer, hparse, rfl, rfl⟩

end PoopWorms.Osc
