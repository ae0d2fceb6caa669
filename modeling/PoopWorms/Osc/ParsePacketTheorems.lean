import PoopWorms.Osc.ParsePacket
import PoopWorms.Osc.ParseTheorems

/-!
# Packets that are parsed inside their memory

Which bytes a packet must have for the parser to return: strings that end in time, arguments that
lie inside the memory, and bundles whose sizes lead from element to element past the announced
length.
-/

namespace PoopWorms.Osc

open Octets

/-- The parser returns. -/
def Returns {α : Type} (x : Except Stop α) : Prop := ∃ r, x = .ok r

section Returns

variable {α β : Type}

theorem returns_ok (r : α) : Returns (.ok r) := ⟨r, rfl⟩

theorem bind_eq_ok {x : Except Stop α} {f : α → Except Stop β} {r : β} :
    x >>= f = .ok r ↔ ∃ a, x = .ok a ∧ f a = .ok r := by
  constructor
  · intro h
    cases x with
    | error stop => cases h
    | ok a => exact ⟨a, rfl, h⟩
  · intro h
    obtain ⟨a, rfl, hf⟩ := h
    exact hf

theorem returns_bind {x : Except Stop α} {f : α → Except Stop β} :
    Returns (x >>= f) ↔ ∃ a, x = .ok a ∧ Returns (f a) := by
  unfold Returns
  simp only [bind_eq_ok]
  tauto

theorem inside_eq_ok {o : Option α} {a : α} : inside o = .ok a ↔ o = some a := by
  cases o <;> simp [inside]

end Returns

section Message

variable (mem : List Byte) (p l : ℤ)

/-! ## Strings -/

/-- The first NUL at one of `count` indices. -/
def nulIn : ℕ → ℤ → Option ℤ
  | 0, _ => none
  | count + 1, i => if byteAt mem (p + i) = some 0#8 then some i else nulIn count (i + 1)

/-- The first NUL of a string that starts at index `start`, below the announced length. -/
def nulFrom (start : ℤ) : Option ℤ := nulIn mem p (l - start).toNat start

/-- Every index below the announced length that no NUL precedes is inside the memory. -/
def Ends (start : ℤ) : Prop :=
  ∀ k < (l - start).toNat, (∀ j < k, byteAt mem (p + (start + j)) ≠ some 0#8) →
    (byteAt mem (p + (start + k))).isSome

variable {mem p l}

theorem scanNul_eq_ok {count : ℕ} {i : ℤ} {r : Option ℤ} :
    scanNul mem p count i = .ok r ↔
      (∀ k < count, (∀ j < k, byteAt mem (p + (i + (j : ℕ))) ≠ some 0#8) →
        (byteAt mem (p + (i + (k : ℕ)))).isSome) ∧ r = nulIn mem p count i := by
  induction count generalizing i with
  | zero =>
    rw [scanNul, nulIn, Except.ok.injEq]
    exact ⟨fun h => ⟨fun k hk => absurd hk (Nat.not_lt_zero k), h.symm⟩, fun h => h.2.symm⟩
  | succ count ih =>
    have hshift : ∀ k : ℕ, i + 1 + (k : ℤ) = i + ((k + 1 : ℕ) : ℤ) := by
      intro k
      push_cast
      ring
    rw [scanNul, bind_eq_ok]
    simp only [inside_eq_ok]
    cases hbyte : byteAt mem (p + i) with
    | none =>
      constructor
      · intro h
        obtain ⟨c, hc, -⟩ := h
        cases hc
      · intro h
        have hfirst := h.1 0 (Nat.succ_pos _) (fun j hj => absurd hj (Nat.not_lt_zero j))
        simp [hbyte] at hfirst
    | some c =>
      by_cases hc : c = 0#8
      · -- the loop ends here, and no later index is read
        subst hc
        simp only [nulIn, hbyte, if_true, Option.some.injEq, exists_eq_left']
        constructor
        · intro h
          refine ⟨fun k _ hk => ?_, (Except.ok.inj h).symm⟩
          cases k with
          | zero => simp [hbyte]
          | succ k => exact absurd (by simpa using hbyte) (hk 0 (Nat.succ_pos k))
        · intro h
          rw [h.2]
          rfl
      · have hne : ¬ some c = some 0#8 := fun h => hc (Option.some.inj h)
        simp only [nulIn, hbyte, Option.some.injEq, exists_eq_left', if_neg hc, ih,
          hshift]
        refine and_congr_left fun _ => ?_
        constructor
        · intro h k hk hbefore
          cases k with
          | zero => simp [hbyte]
          | succ k =>
            exact h k (by omega) fun j hj => hbefore (j + 1) (by omega)
        · intro h k hk hbefore
          refine h (k + 1) (by omega) fun j hj => ?_
          cases j with
          | zero => simpa [hbyte] using hc
          | succ j => exact hbefore j (by omega)

theorem scanNulFrom_eq_ok {start : ℤ} {r : Option ℤ} :
    scanNulFrom mem p l start = .ok r ↔ Ends mem p l start ∧ r = nulFrom mem p l start :=
  scanNul_eq_ok

/-! ## Arguments -/

section

variable (mem p l)

/-- Four bytes are inside the memory. -/
def FourInside (a : ℤ) : Prop := 0 ≤ a ∧ a + 4 ≤ mem.length

/-- A NUL ends the string that starts here. -/
def HasNul (a : ℤ) : Prop := 0 ≤ a ∧ 0#8 ∈ mem.drop a.toNat

/-- The big-endian word that starts here. -/
def wordAt (a : ℤ) : Word :=
  ((fourAt mem a).map fun q => swap32 (orBytes q.1 q.2.1 q.2.2.1 q.2.2.2)).getD 0#32

/-- The size of a blob is not negative, and the blob is inside the memory. -/
def BlobInside (tmpIndex : ℤ) : Prop :=
  0 ≤ (wordAt mem (p + tmpIndex)).toInt ∧ 0 ≤ p + int (tmpIndex + 4) ∧
    p + int (tmpIndex + 4) + (wordAt mem (p + tmpIndex)).toInt ≤ mem.length

/-- The data of a type tag is inside the memory. -/
def ArgumentInside (tag : Byte) (tmpIndex : ℤ) : Prop :=
  if tag = chr 'i' ∨ tag = chr 'f' ∨ tag = chr 'r' ∨ tag = chr 'm' then
    FourInside mem (p + tmpIndex)
  else if tag = chr 's' ∨ tag = chr 'S' then
    Ends mem p l tmpIndex ∧ HasNul mem (p + tmpIndex)
  else if tag = chr 'b' then FourInside mem (p + tmpIndex) ∧ BlobInside mem p tmpIndex
  else True

/-- The index of the data of the next type tag. -/
def nextArgument (tag : Byte) (tmpIndex : ℤ) : ℤ :=
  if tag = chr 'i' ∨ tag = chr 'f' ∨ tag = chr 'r' ∨ tag = chr 'm' ∨ tag = chr 'c' then
    int (tmpIndex + 4)
  else if tag = chr 's' ∨ tag = chr 'S' then
    intRoundUp4 (int (tmpIndex + beforeNul (nulFrom mem p l tmpIndex) + 1))
  else if tag = chr 'b' then
    intRoundUp4 (int (int (tmpIndex + 4) + (wordAt mem (p + tmpIndex)).toInt))
  else if tag = chr 'h' ∨ tag = chr 't' ∨ tag = chr 'd' then int (tmpIndex + 8)
  else tmpIndex

/-- The data of all type tags is inside the memory, each where the one in front of it ends. -/
def ArgumentsInside : List Byte → ℤ → Prop
  | [], _ => True
  | tag :: tags, tmpIndex =>
    ArgumentInside mem p l tag tmpIndex ∧ ArgumentsInside tags (nextArgument mem p l tag tmpIndex)

end

theorem fourAt_isSome {a : ℤ} : (fourAt mem a).isSome ↔ FourInside mem a := by
  unfold fourAt FourInside
  split_ifs with ha
  · constructor
    · intro h
      obtain ⟨q, hq⟩ := Option.isSome_iff_exists.mp h
      have hlen := length_of_fourBytes hq
      omega
    · intro h
      have hfour : ((mem.drop a.toNat).take 4).length = 4 := by
        rw [List.length_take, List.length_drop]
        omega
      obtain ⟨x, y, z, w, hdrop⟩ := exists_fourBytes hfour
      have hsplit := List.take_append_drop 4 (mem.drop a.toNat)
      rw [hdrop] at hsplit
      rw [fourBytes, ← hsplit]
      rfl
  · simp [ha]

/-- What reads a word, and nothing else. -/
theorem fourAt_returns {a next j : ℤ} (f : Byte × Byte × Byte × Byte → Option OSCValue) :
    (∃ v, (inside (fourAt mem a) >>= fun q => Except.ok (f q, next)) = .ok (v, j)) ↔
      FourInside mem a ∧ j = next := by
  rw [← fourAt_isSome]
  simp only [bind_eq_ok, inside_eq_ok, Except.ok.injEq, Prod.mk.injEq]
  constructor
  · intro h
    obtain ⟨v, q, hq, -, hj⟩ := h
    exact ⟨by rw [hq]; rfl, hj.symm⟩
  · intro h
    obtain ⟨q, hq⟩ := Option.isSome_iff_exists.mp h.1
    exact ⟨f q, q, hq, rfl, h.2.symm⟩

theorem cStringAt_isSome {a : ℤ} : (cStringAt mem a).isSome ↔ HasNul mem a := by
  simp [cStringAt, HasNul]

theorem dataAt_isSome {a : ℤ} {size : Word} :
    (dataAt mem a size).isSome ↔ 0 ≤ size.toInt ∧ 0 ≤ a ∧ a + size.toInt ≤ mem.length := by
  have hword := BitVec.toInt_eq_toNat_cond size
  have hlt := size.isLt
  unfold dataAt dataWithBytes
  split_ifs with ha hsize
  · simp only [Option.isSome_some, true_iff]
    omega
  · simp only [Option.isSome_none, Bool.false_eq_true, false_iff]
    omega
  · simp [ha]

theorem wordAt_eq {a : ℤ} {q : Byte × Byte × Byte × Byte} (h : fourAt mem a = some q) :
    wordAt mem a = swap32 (orBytes q.1 q.2.1 q.2.2.1 q.2.2.2) := by
  rw [wordAt, h]
  rfl

theorem returns_next {v : Option OSCValue} {next j : ℤ} :
    (∃ v', (Except.ok (v, next) : Except Stop (Option OSCValue × ℤ)) = .ok (v', j)) ↔ j = next := by
  simp [eq_comm]

/-- The data of a type tag is parsed if it is inside the memory. -/
theorem parseArgumentAt_returns {tag : Byte} {i j : ℤ} :
    (∃ v, parseArgumentAt mem p l tag i = .ok (v, j)) ↔
      ArgumentInside mem p l tag i ∧ j = nextArgument mem p l tag i := by
  by_cases hi : tag = chr 'i'
  · subst hi
    exact fourAt_returns (fun q => some (.int (swap32 (orBytes q.1 q.2.1 q.2.2.1 q.2.2.2))))
  by_cases hf : tag = chr 'f'
  · subst hf
    exact fourAt_returns (fun q => some (.float (swap32 (leWord q.1 q.2.1 q.2.2.1 q.2.2.2))))
  by_cases hr : tag = chr 'r'
  · subst hr
    exact fourAt_returns (fun q => some (.color (UIColor.ofBytes q.1 q.2.1 q.2.2.1 q.2.2.2)))
  by_cases hm : tag = chr 'm'
  · subst hm
    exact fourAt_returns (fun q => some (.midi q.1 q.2.1 q.2.2.1 q.2.2.2))
  have hword : ¬ (tag = chr 'i' ∨ tag = chr 'f' ∨ tag = chr 'r' ∨ tag = chr 'm') := by
    simp only [hi, hf, hr, hm, or_self, not_false_eq_true]
  by_cases hs : tag = chr 's' ∨ tag = chr 'S'
  · have hc : tag ≠ chr 'c' := by
      rcases hs with rfl | rfl <;> decide
    rw [parseArgumentAt, if_neg hi, if_neg hf, if_pos hs, ArgumentInside, if_neg hword, if_pos hs,
      nextArgument, if_neg (by simp only [hi, hf, hr, hm, hc, or_self, not_false_eq_true]),
      if_pos hs, ← cStringAt_isSome]
    simp only [bind_eq_ok, scanNulFrom_eq_ok, inside_eq_ok, pure, Except.pure, Except.ok.injEq,
      Prod.mk.injEq]
    constructor
    · intro h
      obtain ⟨v, r, ⟨hends, rfl⟩, bytes, hbytes, -, hj⟩ := h
      exact ⟨⟨hends, by rw [hbytes]; rfl⟩, hj.symm⟩
    · intro h
      obtain ⟨bytes, hbytes⟩ := Option.isSome_iff_exists.mp h.1.2
      exact ⟨_, _, ⟨h.1.1, rfl⟩, bytes, hbytes, rfl, h.2.symm⟩
  by_cases hb : tag = chr 'b'
  · have hc : tag ≠ chr 'c' := by
      subst hb
      decide
    rw [parseArgumentAt, if_neg hi, if_neg hf, if_neg hs, if_pos hb, ArgumentInside, if_neg hword,
      if_neg hs, if_pos hb, nextArgument,
      if_neg (by simp only [hi, hf, hr, hm, hc, or_self, not_false_eq_true]), if_neg hs, if_pos hb]
    simp only [bind_eq_ok, inside_eq_ok, pure, Except.pure, Except.ok.injEq, Prod.mk.injEq]
    constructor
    · intro h
      obtain ⟨v, q, hq, d, hd, -, hj⟩ := h
      have hblob := dataAt_isSome.mp (Option.isSome_iff_exists.mpr ⟨d, hd⟩)
      rw [← wordAt_eq hq] at hblob hj
      exact ⟨⟨fourAt_isSome.mp (Option.isSome_iff_exists.mpr ⟨q, hq⟩), hblob⟩, hj.symm⟩
    · intro h
      obtain ⟨q, hq⟩ := Option.isSome_iff_exists.mp (fourAt_isSome.mpr h.1.1)
      obtain ⟨d, hd⟩ := Option.isSome_iff_exists.mp (dataAt_isSome.mpr h.1.2)
      rw [wordAt_eq hq] at hd h
      exact ⟨_, q, hq, d, hd, rfl, h.2.symm⟩
  -- the other type tags read nothing
  rw [ArgumentInside, if_neg hword, if_neg hs, if_neg hb, true_and]
  by_cases hh : tag = chr 'h' ∨ tag = chr 't' ∨ tag = chr 'd'
  · have hc : tag ≠ chr 'c' := by
      rcases hh with rfl | rfl | rfl <;> decide
    rw [parseArgumentAt, if_neg hi, if_neg hf, if_neg hs, if_neg hb, if_pos hh, nextArgument,
      if_neg (by simp only [hi, hf, hr, hm, hc, or_self, not_false_eq_true]), if_neg hs, if_neg hb,
      if_pos hh]
    exact returns_next
  by_cases hc : tag = chr 'c'
  · subst hc
    exact returns_next
  rw [nextArgument, if_neg (by simp only [hi, hf, hr, hm, hc, or_self, not_false_eq_true]),
    if_neg hs, if_neg hb, if_neg hh, parseArgumentAt, if_neg hi, if_neg hf, if_neg hs, if_neg hb,
    if_neg hh, if_neg hc, if_neg hr, if_neg hm]
  split_ifs
  all_goals exact returns_next

/-- The loop over the type tags returns if the data of all of them is inside the memory. -/
theorem parseArgumentsAt_returns {tags : List Byte} {i : ℤ} {msg : OSCMessage} :
    Returns (parseArgumentsAt mem p l tags i msg) ↔ ArgumentsInside mem p l tags i := by
  induction tags generalizing i msg with
  | nil => exact ⟨fun _ => trivial, fun _ => returns_ok msg⟩
  | cons tag tags ih =>
    rw [parseArgumentsAt, returns_bind, ArgumentsInside]
    constructor
    · intro h
      obtain ⟨r, hr, hrest⟩ := h
      have hfirst := parseArgumentAt_returns.mp ⟨r.1, hr⟩
      rw [← hfirst.2]
      exact ⟨hfirst.1, ih.mp hrest⟩
    · intro h
      obtain ⟨v, hv⟩ := parseArgumentAt_returns.mpr ⟨h.1, rfl⟩
      exact ⟨_, hv, ih.mpr h.2⟩

/-! ## Messages -/

section

variable (mem p l)

/-- The type tags end in time, and their data is inside the memory. -/
def TagsInside (start : ℤ) : Prop :=
  Ends mem p l start ∧ ∀ stop, nulFrom mem p l start = some stop →
    ArgumentsInside mem p l (tagsAt mem p start stop) (intRoundUp4 stop)

/-- The address ends in time; if it is ASCII, the byte behind its padding is inside the memory;
and if that is the comma, the type tags and their data are inside. -/
def MessageInside : Prop :=
  Ends mem p l 0 ∧ ∀ addressEnd, nulFrom mem p l 0 = some addressEnd →
    (stringWithCString ((mem.drop p.toNat).take addressEnd.toNat)).isSome →
      (byteAt mem (p + intRoundUp4 addressEnd)).isSome ∧
        (byteAt mem (p + intRoundUp4 addressEnd) = some (chr ',') →
          TagsInside mem p l (intRoundUp4 addressEnd))

end

theorem parseTagsAt_returns {address : CString} {start : ℤ} :
    Returns (parseTagsAt mem p l address start) ↔
      (byteAt mem (p + start)).isSome ∧
        (byteAt mem (p + start) = some (chr ',') → TagsInside mem p l start) := by
  rw [parseTagsAt, returns_bind]
  simp only [inside_eq_ok]
  cases hbyte : byteAt mem (p + start) with
  | none => simp
  | some first =>
    simp only [Option.some.injEq, exists_eq_left', Option.isSome_some, true_and]
    by_cases hcomma : first = chr ','
    · rw [if_neg (not_not.mpr hcomma), returns_bind, TagsInside]
      simp only [hcomma, forall_const, scanNulFrom_eq_ok, and_assoc, exists_and_left,
        exists_eq_left]
      refine and_congr_right fun _ => ?_
      cases nulFrom mem p l start with
      | none => simp [parseTagsUpTo, Returns, pure, Except.pure]
      | some stop =>
        rw [parseTagsUpTo, returns_bind]
        simp only [Option.some.injEq, forall_eq']
        have hloop : Returns (parseArgumentsAt mem p l (tagsAt mem p start stop)
            (intRoundUp4 stop) (OSCMessage.createWithAddress address)) ↔ _ :=
          parseArgumentsAt_returns
        rw [← hloop]
        exact ⟨fun h => h.imp fun msg hmsg => hmsg.1,
          fun h => h.imp fun msg hmsg => ⟨hmsg, returns_ok _⟩⟩
    · rw [if_pos hcomma]
      exact ⟨fun _ h => absurd h hcomma, fun _ => returns_ok _⟩

/-- A message is parsed if what is read of it is inside the memory. -/
theorem parseMessageAt_returns :
    Returns (parseMessageAt mem p l) ↔ MessageInside mem p l := by
  unfold parseMessageAt MessageInside
  split_ifs with hl
  · -- without a length nothing is read
    subst hl
    have hends : Ends mem p 0 0 := fun k hk => absurd hk (Nat.not_lt_zero k)
    exact ⟨fun _ => ⟨hends, fun addressEnd h => (nomatch h)⟩, fun _ => returns_ok _⟩
  · rw [returns_bind]
    simp only [scanNulFrom_eq_ok, and_assoc, exists_and_left, exists_eq_left]
    refine and_congr_right fun _ => ?_
    cases nulFrom mem p l 0 with
    | none => exact ⟨fun _ addressEnd h => (nomatch h), fun _ => returns_ok _⟩
    | some addressEnd =>
      simp only [Option.some.injEq, forall_eq', parseAddressUpTo]
      cases stringWithCString ((mem.drop p.toNat).take addressEnd.toNat) with
      | none => exact ⟨fun _ h => (nomatch h), fun _ => returns_ok _⟩
      | some address =>
        rw [parseBehindAddress, parseTagsAt_returns]
        exact ⟨fun h _ => h, fun h => h rfl⟩

end Message

/-! ## Bundles -/

/-- From the element at `baseIndex` on, the sizes lead in finitely many steps past the announced
length; at each stop the size and the byte behind it are inside the memory, and what begins there
with `#` or `/` is framed in its turn. -/
inductive ElementsFramed (mem : List Byte) : ℤ → ℤ → ℤ → Prop
  | past {p l baseIndex : ℤ} (h : l ≤ baseIndex) : ElementsFramed mem p l baseIndex
  | element {p l baseIndex length : ℤ} {c : Byte} (h : baseIndex < l)
      (hlength : sizeAt mem (p + baseIndex) = some length)
      (hc : byteAt mem (p + int (baseIndex + 4)) = some c)
      (hbundle : c = chr '#' → ElementsFramed mem (p + int (baseIndex + 4)) length 16)
      (hmessage : c = chr '/' → MessageInside mem (p + int (baseIndex + 4)) length)
      (hrest : ElementsFramed mem p l (int (int (baseIndex + 4) + length))) :
      ElementsFramed mem p l baseIndex

/-- A packet is not empty, and the bundle or the message in it is framed. -/
def PacketFramed (mem : List Byte) : Prop :=
  ∃ c, byteAt mem 0 = some c ∧ (c = chr '#' → ElementsFramed mem 0 mem.length 16) ∧
    (c = chr '/' → MessageInside mem 0 mem.length)

/-- The parser terminates, and reads only bytes of the packet. -/
def ParsesInside (mem : List Byte) : Prop := ∃ fuel, Returns (parsePacket mem fuel)

variable {mem : List Byte}

theorem parseElements_of_le {p l baseIndex : ℤ} (h : l ≤ baseIndex) (fuel : ℕ) :
    parseElements mem (fuel + 1) p l baseIndex = .ok [] := by
  rw [parseElements, if_neg (not_lt.mpr h)]

/-- One turn of the loop. -/
theorem parseElements_eq_ok {fuel : ℕ} {p l baseIndex : ℤ} {r : List OSCMessage}
    (h : baseIndex < l) :
    parseElements mem (fuel + 1) p l baseIndex = .ok r ↔
      ∃ length, sizeAt mem (p + baseIndex) = some length ∧
        ∃ c, byteAt mem (p + int (baseIndex + 4)) = some c ∧
          ∃ element, parseElementWith (parseElements mem fuel) mem (p + int (baseIndex + 4))
              length c = .ok element ∧
            ∃ rest, parseElements mem fuel p l (int (int (baseIndex + 4) + length)) = .ok rest ∧
              element ++ rest = r := by
  rw [parseElements, if_pos h]
  simp only [bind_eq_ok, inside_eq_ok, pure, Except.pure, Except.ok.injEq]

/-- What is parsed of an element is parsed with any loop that does as well. -/
theorem parseElementWith_mono {elements elements' : ℤ → ℤ → ℤ → Except Stop (List OSCMessage)}
    (helements : ∀ p l i r, elements p l i = .ok r → elements' p l i = .ok r) {p length : ℤ}
    {c : Byte} {r : List OSCMessage} (h : parseElementWith elements mem p length c = .ok r) :
    parseElementWith elements' mem p length c = .ok r := by
  unfold parseElementWith parseBundleWith at h ⊢
  split_ifs at h ⊢
  · exact h
  · exact helements _ _ _ _ h
  · exact h
  · exact h

/-- More fuel does no harm. -/
theorem parseElements_mono {fuel fuel' : ℕ} (hle : fuel ≤ fuel') (p l baseIndex : ℤ)
    (r : List OSCMessage) (h : parseElements mem fuel p l baseIndex = .ok r) :
    parseElements mem fuel' p l baseIndex = .ok r := by
  induction fuel generalizing fuel' p l baseIndex r with
  | zero => cases h
  | succ fuel ih =>
    obtain ⟨more, rfl⟩ : ∃ more, fuel' = more + 1 := ⟨fuel' - 1, by omega⟩
    have hless : fuel ≤ more := Nat.le_of_succ_le_succ hle
    by_cases hlt : baseIndex < l
    · rw [parseElements_eq_ok hlt] at h ⊢
      obtain ⟨length, hlength, c, hc, element, helement, rest, hrest, hr⟩ := h
      exact ⟨length, hlength, c, hc, element, parseElementWith_mono (ih hless) helement, rest,
        ih hless _ _ _ _ hrest, hr⟩
    · rw [parseElements_of_le (not_lt.mp hlt)] at h ⊢
      exact h

theorem parseElementWith_message (elements : ℤ → ℤ → ℤ → Except Stop (List OSCMessage))
    (p length : ℤ) :
    Returns (parseElementWith elements mem p length (chr '/')) ↔ MessageInside mem p length := by
  have hmap : parseElementWith elements mem p length (chr '/')
      = (parseMessageAt mem p length).map delivered := rfl
  rw [← parseMessageAt_returns, hmap]
  cases parseMessageAt mem p length with
  | error stop => exact ⟨fun h => (nomatch h), fun h => (nomatch h)⟩
  | ok msg => exact ⟨fun _ => returns_ok msg, fun _ => returns_ok _⟩

theorem parseElementWith_other {c : Byte} (hbundle : c ≠ chr '#') (hmessage : c ≠ chr '/')
    (elements : ℤ → ℤ → ℤ → Except Stop (List OSCMessage)) (p length : ℤ) :
    parseElementWith elements mem p length c = .ok [] := by
  rw [parseElementWith, if_neg hbundle, if_neg hmessage]

/-- What is parsed of an element is framed, if what the loop parses is. -/
theorem framed_of_parseElementWith
    {elements : ℤ → ℤ → ℤ → Except Stop (List OSCMessage)} {p length : ℤ} {c : Byte}
    (helements : Returns (elements p length 16) → ElementsFramed mem p length 16)
    (h : Returns (parseElementWith elements mem p length c)) :
    (c = chr '#' → ElementsFramed mem p length 16) ∧
      (c = chr '/' → MessageInside mem p length) := by
  constructor
  · intro hbundle
    subst hbundle
    by_cases hlength : length = 0
    · exact .past (by omega)
    · have hloop : parseElementWith elements mem p length (chr '#') = elements p length 16 :=
        if_neg hlength
      rw [hloop] at h
      exact helements h
  · intro hmessage
    subst hmessage
    exact (parseElementWith_message elements p length).mp h

/-- An element that is framed is parsed, with enough fuel. -/
theorem parseElementWith_returns {p length : ℤ} {c : Byte}
    (hbundle : c = chr '#' → ∃ fuel, Returns (parseElements mem fuel p length 16))
    (hmessage : c = chr '/' → MessageInside mem p length) :
    ∃ fuel, Returns (parseElementWith (parseElements mem fuel) mem p length c) := by
  by_cases hb : c = chr '#'
  · obtain ⟨fuel, r, hr⟩ := hbundle hb
    subst hb
    refine ⟨fuel, ?_⟩
    by_cases hlength : length = 0
    · exact ⟨[], if_pos hlength⟩
    · exact ⟨r, (if_neg hlength).trans hr⟩
  · by_cases hm : c = chr '/'
    · subst hm
      exact ⟨0, (parseElementWith_message _ p length).mpr (hmessage rfl)⟩
    · exact ⟨0, [], parseElementWith_other hb hm _ p length⟩

theorem ElementsFramed.returns {p l baseIndex : ℤ} (h : ElementsFramed mem p l baseIndex) :
    ∃ fuel, Returns (parseElements mem fuel p l baseIndex) := by
  induction h with
  | past h => exact ⟨1, [], parseElements_of_le h 0⟩
  | element h hlength hc _ hmessage _ ihbundle ihrest =>
    obtain ⟨fuel, rest, hrest⟩ := ihrest
    obtain ⟨fuel', element, helement⟩ := parseElementWith_returns ihbundle hmessage
    -- enough fuel for both
    refine ⟨max fuel fuel' + 1, element ++ rest, ?_⟩
    rw [parseElements_eq_ok h]
    exact ⟨_, hlength, _, hc, element,
      parseElementWith_mono (parseElements_mono (le_max_right fuel fuel')) helement, rest,
      parseElements_mono (le_max_left fuel fuel') _ _ _ _ hrest, rfl⟩

theorem framed_of_returns {fuel : ℕ} {p l baseIndex : ℤ}
    (h : Returns (parseElements mem fuel p l baseIndex)) : ElementsFramed mem p l baseIndex := by
  induction fuel generalizing p l baseIndex with
  | zero =>
    obtain ⟨r, hr⟩ := h
    cases hr
  | succ fuel ih =>
    by_cases hlt : baseIndex < l
    · obtain ⟨r, hr⟩ := h
      obtain ⟨length, hlength, c, hc, element, helement, rest, hrest, -⟩ :=
        (parseElements_eq_ok hlt).mp hr
      have hparts := framed_of_parseElementWith ih ⟨element, helement⟩
      exact .element hlt hlength hc hparts.1 hparts.2 (ih ⟨rest, hrest⟩)
    · exact .past (not_lt.mp hlt)

/-! ## Packets -/

/-- A packet is parsed inside its memory exactly if it is framed. -/
theorem parsesInside_iff (mem : List Byte) : ParsesInside mem ↔ PacketFramed mem := by
  unfold ParsesInside PacketFramed
  simp only [parsePacket, returns_bind, inside_eq_ok]
  constructor
  · intro h
    obtain ⟨fuel, c, hc, hparse⟩ := h
    exact ⟨c, hc, framed_of_parseElementWith framed_of_returns hparse⟩
  · intro h
    obtain ⟨c, hc, hbundle, hmessage⟩ := h
    obtain ⟨fuel, hparse⟩ := parseElementWith_returns (fun hb => (hbundle hb).returns) hmessage
    exact ⟨fuel, c, hc, hparse⟩

/-- A bundle whose only element has the size -4: its loop never ends. -/
def bundleOfSizeMinusFour : List Byte :=
  [chr '#', chr 'b', chr 'u', chr 'n', chr 'd', chr 'l', chr 'e', 0#8] ++
    [0#8, 0#8, 0#8, 0#8, 0#8, 0#8, 0#8, 1#8] ++ [255#8, 255#8, 255#8, 252#8] ++
    [0#8, 0#8, 0#8, 0#8]

theorem not_parsesInside : ¬ ∀ mem : List Byte, ParsesInside mem := by
  intro h
  obtain ⟨fuel, r, hr⟩ := h bundleOfSizeMinusFour
  have hsize : sizeAt bundleOfSizeMinusFour (0 + 16) = some (-4) := by decide
  have hnext : int (int (16 + 4) + -4) = 16 := by decide
  have hnever : ∀ fuel r, parseElements bundleOfSizeMinusFour fuel 0 24 16 ≠ .ok r := by
    intro fuel
    induction fuel with
    | zero => exact fun r hr => nomatch hr
    | succ fuel ih =>
      intro r hr
      obtain ⟨length, hlength, c, -, element, -, rest, hrest, -⟩ :=
        (parseElements_eq_ok (by decide)).mp hr
      have heq : length = -4 := Option.some.inj (hlength.symm.trans hsize)
      rw [heq, hnext] at hrest
      exact ih rest hrest
  exact hnever fuel r hr

end PoopWorms.Osc
