import PoopWorms.Osc.Bundle
import PoopWorms.Osc.MessageTheorems

/-!
# What a packet fills

The announced length of a message or a bundle is what it writes: it stays inside a buffer of
that length, and its last offset is the end of the buffer. What stands behind the buffer is not
touched, so that an element of a bundle leaves the rest of the bundle alone.
-/

namespace PoopWorms.Osc

open Octets

/-- Zeroed memory. -/
def zeros (n : ℕ) : List Byte := List.replicate n 0#8

@[simp] theorem length_zeros (n : ℕ) : (zeros n).length = n := List.length_replicate

theorem zeros_add (m n : ℕ) : zeros (m + n) = zeros m ++ zeros n :=
  List.replicate_add m n 0#8

/-! ## Frames -/

/-- A store inside a buffer leaves alone what stands behind the buffer. -/
theorem poke_frame {b b' bs : List Byte} {off : ℕ} (h : poke b off bs = some b')
    (rest : List Byte) : poke (b ++ rest) off bs = some (b' ++ rest) := by
  unfold poke at h ⊢
  split_ifs at h with hle
  have hoff : off ≤ b.length := by omega
  rw [← Option.some.inj h, if_pos (by rw [List.length_append]; omega),
    List.take_append_of_le_length hoff, List.drop_append_of_le_length hle]
  simp only [List.append_assoc]

/-- The cursor in a buffer with more behind it. -/
def Cursor.append (c : Cursor) (rest : List Byte) : Cursor := { c with b := c.b ++ rest }

/-- What is done with a cursor in a buffer is done in the same way with more behind it. -/
def Frames (f : Cursor → Option Cursor) : Prop :=
  ∀ c c' rest, f c = some c' → f (c.append rest) = some (c'.append rest)

theorem Frames.bind {f g : Cursor → Option Cursor} (hf : Frames f) (hg : Frames g) :
    Frames fun c => (f c).bind g := by
  intro c c' rest h
  obtain ⟨c₁, hc₁, hc'⟩ := Option.bind_eq_some_iff.mp h
  have hstep : (f (c.append rest)).bind g = g (c₁.append rest) := by
    rw [hf c c₁ rest hc₁, Option.bind_some]
  exact hstep.trans (hg c₁ c' rest hc')

theorem frames_putTag (tag : Char) : Frames fun c => c.putTag tag := by
  intro c c' rest h
  obtain ⟨b, hb, hc'⟩ := Option.bind_eq_some_iff.mp h
  have hpoke := poke_frame hb rest
  rw [← Option.some.inj hc']
  simp [Cursor.putTag, Cursor.append, hpoke]

theorem frames_putData (bs : List Byte) (next : ℕ → ℕ) :
    Frames fun c => c.putData bs (next c.dataOffset) := by
  intro c c' rest h
  obtain ⟨b, hb, hc'⟩ := Option.bind_eq_some_iff.mp h
  have hpoke := poke_frame hb rest
  rw [← Option.some.inj hc']
  simp [Cursor.putData, Cursor.append, hpoke]

theorem frames_writeToBuffer (v : OSCValue) : Frames v.writeToBuffer := by
  have hdata : ∀ (bs : List Byte) (next : ℕ → ℕ) (tag : Char),
      Frames fun c => (c.putData bs (next c.dataOffset)).bind fun c => c.putTag tag :=
    fun bs next tag => (frames_putData bs next).bind (frames_putTag tag)
  cases v with
  | int n => exact hdata _ (· + 4) 'i'
  | float bits => exact hdata _ (· + 4) 'f'
  | string s => exact hdata _ (fun d => roundUp4 (d + s.bytes.length)) 's'
  | color c => exact hdata _ (· + 4) 'r'
  | midi port status data1 data2 => exact hdata _ (· + 4) 'm'
  | bool n => exact frames_putTag _
  | null => exact fun c c' rest h => by rw [← Option.some.inj h]; rfl
  | infinity => exact fun c c' rest h => by rw [← Option.some.inj h]; rfl
  | arrayOpen => exact frames_putTag '['
  | arrayClose => exact frames_putTag ']'
  | blob d =>
    exact (frames_putData _ (· + 4)).bind (hdata _ (fun i => roundUp4 (i + d.bytes.length)) 'b')

theorem frames_writeValues (vs : List OSCValue) : Frames (OSCMessage.writeValues vs) := by
  induction vs with
  | nil => exact fun c c' rest h => by rw [← Option.some.inj h]; rfl
  | cons v vs ih => exact (frames_writeToBuffer v).bind ih

theorem writeToBuffer_frame {m : OSCMessage} {b b' : List Byte} (h : m.writeToBuffer b = some b')
    (rest : List Byte) : m.writeToBuffer (b ++ rest) = some (b' ++ rest) := by
  rw [OSCMessage.writeToBuffer_eq] at h ⊢
  obtain ⟨start, hstart, hvalues⟩ := Option.bind_eq_some_iff.mp h
  obtain ⟨last, hlast, rfl⟩ := Option.map_eq_some_iff.mp hvalues
  have hbegin : m.beginWrite (b ++ rest) = some (start.append rest) := by
    unfold OSCMessage.beginWrite at hstart ⊢
    simp only [Option.bind_eq_bind, Option.pure_def] at hstart ⊢
    obtain ⟨b₁, hb₁, hcomma⟩ := Option.bind_eq_some_iff.mp hstart
    obtain ⟨b₂, hb₂, hcursor⟩ := Option.bind_eq_some_iff.mp hcomma
    rw [poke_frame hb₁ rest, Option.bind_some, poke_frame hb₂ rest, Option.bind_some,
      ← Option.some.inj hcursor]
    rfl
  rw [hbegin, Option.bind_some, frames_writeValues _ start last rest hlast]
  rfl

/-! ## Messages -/

namespace OSCMessage

/-- The values are written from the first to the last, each at a multiple of four behind the
NUL that ends the type tags, and end where the buffer ends. -/
def ValuesFit (m : OSCMessage) : Prop :=
  ∃ start last, m.beginWrite (zeros m.bufferLength) = some start ∧
    writeValues m.values start = some last ∧ last.dataOffset = m.bufferLength ∧
    last.b[last.typeOffset]? = some 0#8 ∧
    ∀ before v after, m.values = before ++ v :: after →
      ∃ c, writeValues before start = some c ∧ c.dataOffset % 4 = 0 ∧
        last.typeOffset < c.dataOffset

theorem bufferLength_ofValues (a : CString) (vs : List OSCValue) :
    (ofValues a vs).bufferLength =
      roundUp4 (slashed a).bytes.length + roundUp4 (vs.length + 1) + (dataBlock vs).length := by
  simp only [bufferLength, address_ofValues, valueCount_ofValues, values_ofValues,
    length_dataBlock]

theorem bufferLength_mod (a : CString) (vs : List OSCValue) :
    (ofValues a vs).bufferLength % 4 = 0 := by
  have hs := roundUp4_eq (slashed a).bytes.length
  have ht := roundUp4_eq (vs.length + 1)
  have hd := length_dataBlock_mod vs
  rw [bufferLength_ofValues]
  omega

theorem valuesFit_ofValues (a : CString) (vs : List OSCValue) : (ofValues a vs).ValuesFit := by
  have haligned := aligned_messageHead a vs
  have hvalues := writeValues_layout vs (messageHead a) [] (spareTags vs) [] 0 (by
    simpa using haligned)
  refine ⟨_, _, beginWrite_ofValues a vs, by rw [values_ofValues]; exact hvalues, ?_, ?_, ?_⟩
  · have hs := roundUp4_eq (slashed a).bytes.length
    have ht := roundUp4_eq (vs.length + 1)
    have hspare := spareTags_add vs
    rw [bufferLength_ofValues]
    simp only [layout, length_messageHead, List.nil_append]
    omega
  · -- the first of the spare zeros
    have hpos := spareTags_pos vs
    have hlen : (messageHead a ++ tagString vs).length
        = (messageHead a).length + (tagString vs).length := List.length_append
    simp only [layout, List.nil_append, List.append_assoc]
    rw [← List.append_assoc, ← hlen, List.getElem?_append_right (le_refl _), Nat.sub_self,
      List.getElem?_append_left (by rw [List.length_replicate]; exact hpos)]
    rw [List.getElem?_replicate, if_pos hpos]
  · intro before v after hsplit
    rw [values_ofValues] at hsplit
    have htags : tagString vs = tagString before ++ tagString (v :: after) := by
      rw [hsplit, tagString, List.flatMap_append]
      rfl
    have hblock : dataBlock vs = dataBlock before ++ dataBlock (v :: after) := by
      rw [hsplit, dataBlock, List.flatMap_append]
      rfl
    have hk : spareTags vs + (tagString vs).length
        = spareTags vs + (tagString (v :: after)).length + (tagString before).length := by
      rw [htags, List.length_append]
      omega
    have hr : 0 + (dataBlock vs).length
        = (dataBlock (v :: after)).length + (dataBlock before).length := by
      rw [hblock, List.length_append]
      omega
    have hbefore := writeValues_layout before (messageHead a) []
      (spareTags vs + (tagString (v :: after)).length) [] (dataBlock (v :: after)).length (by
        rw [← hk]
        simpa using haligned)
    have hpos := spareTags_pos vs
    have hmod := length_dataBlock_mod before
    rw [hk] at haligned
    refine ⟨_, by rw [hk, hr]; exact hbefore, ?_, ?_⟩
    · simp only [layout, List.nil_append]
      omega
    · simp only [layout, List.nil_append, htags, List.length_append]
      omega

end OSCMessage

/-! ## Bundles -/

namespace OSCElement

/-- The element writes `bufferLength` bytes to a zeroed buffer, and nothing behind them. -/
def Fills (c : OSCElement) : Prop :=
  ∃ bytes, bytes.length = c.bufferLength ∧
    ∀ rest, c.writeToBuffer (zeros c.bufferLength ++ rest) = some (bytes ++ rest)

end OSCElement

/-- The sixteen bytes in front of the elements. -/
def bundleHead (timeStamp : Option ℚ) : List Byte :=
  bundleString ++ [0#8] ++ longLongBytes (theTimeStamp timeStamp)

theorem length_longLongBytes (w : BitVec 64) : (longLongBytes w).length = 8 := by
  simp [longLongBytes]

theorem length_bundleHead (timeStamp : Option ℚ) : (bundleHead timeStamp).length = 16 := by
  rw [bundleHead, List.length_append, length_longLongBytes]
  rfl

/-- `writeToBuffer:` of a bundle up to the elements. -/
def beginBundle (timeStamp : Option ℚ) (b : List Byte) : Option (List Byte) := do
  let b ← poke b 0 (strncpy (bundleString ++ [0#8]) 7)
  poke b 8 (longLongBytes (theTimeStamp timeStamp))

theorem writeToBuffer_bundle (timeStamp : Option ℚ) (elementArray : List OSCElement)
    (b : List Byte) :
    (OSCElement.bundle timeStamp elementArray).writeToBuffer b =
      (beginBundle timeStamp b).bind fun b => (writeElements elementArray b 16).map Prod.fst := by
  rw [OSCElement.writeToBuffer]
  simp only [beginBundle, Option.bind_eq_bind, Option.pure_def, Option.bind_assoc,
    Option.map_eq_bind]
  rfl

theorem beginBundle_zeros (timeStamp : Option ℚ) (rest : List Byte) :
    beginBundle timeStamp (zeros 16 ++ rest) = some (bundleHead timeStamp ++ rest) := by
  have hstring : strncpy (bundleString ++ [0#8]) 7 = bundleString := by decide
  have hpoke₁ : poke ([] ++ zeros 7 ++ (zeros 9 ++ rest)) 0 bundleString
      = some ([] ++ bundleString ++ (zeros 9 ++ rest)) := poke_append rfl rfl
  have hpoke₂ : poke (bundleString ++ zeros 1 ++ zeros 8 ++ rest) 8
        (longLongBytes (theTimeStamp timeStamp))
      = some (bundleString ++ zeros 1 ++ longLongBytes (theTimeStamp timeStamp) ++ rest) :=
    poke_append rfl (length_longLongBytes _).symm
  have hsplit₁ : zeros 16 ++ rest = [] ++ zeros 7 ++ (zeros 9 ++ rest) := by
    rw [List.nil_append, ← List.append_assoc, ← zeros_add]
  have hsplit₂ : [] ++ bundleString ++ (zeros 9 ++ rest)
      = bundleString ++ zeros 1 ++ zeros 8 ++ rest := by
    rw [List.nil_append, List.append_assoc _ (zeros 1), ← zeros_add, List.append_assoc]
  rw [beginBundle, hstring, hsplit₁, hpoke₁, hsplit₂]
  exact hpoke₂

/-- The elements of a bundle fill what the bundle has announced for them. -/
def FillElements (elements : List OSCElement) : Prop :=
  ∃ bytes, bytes.length = elementsLength elements ∧ ∀ done rest writeOffset,
    done.length = writeOffset →
      writeElements elements (done ++ zeros (elementsLength elements) ++ rest) writeOffset =
        some (done ++ bytes ++ rest, writeOffset + elementsLength elements)

theorem fillElements_nil : FillElements [] :=
  ⟨[], rfl, fun done rest writeOffset _ => by simp [writeElements, elementsLength, zeros]⟩

/-- An element is written behind its length. -/
theorem FillElements.cons {anObj : OSCElement} {elements : List OSCElement} (hobj : anObj.Fills)
    (h : FillElements elements) : FillElements (anObj :: elements) := by
  obtain ⟨objBytes, hobjLength, hobj⟩ := hobj
  obtain ⟨bytes, hlength, helements⟩ := h
  have hsplit : elementsLength (anObj :: elements)
      = 4 + (anObj.bufferLength + elementsLength elements) := by
    rw [elementsLength]
    omega
  refine ⟨lengthBytes anObj.bufferLength ++ objBytes ++ bytes, ?_, ?_⟩
  · simp only [List.length_append, hobjLength, hlength, hsplit, lengthBytes, length_leBytes]
    omega
  · intro done rest writeOffset hdone
    set size := lengthBytes anObj.bufferLength with hsize
    have hsizeLength : size.length = 4 := rfl
    have hpoke : poke (done ++ zeros 4 ++ (zeros anObj.bufferLength ++
          (zeros (elementsLength elements) ++ rest))) writeOffset size
        = some (done ++ size ++ (zeros anObj.bufferLength ++
          (zeros (elementsLength elements) ++ rest))) := poke_append hdone.symm rfl
    have hbuffer : done ++ zeros (elementsLength (anObj :: elements)) ++ rest
        = done ++ zeros 4 ++ (zeros anObj.bufferLength ++
          (zeros (elementsLength elements) ++ rest)) := by
      rw [hsplit, zeros_add, zeros_add]
      simp only [List.append_assoc]
    have hhead : (done ++ size).length = writeOffset + 4 := by
      rw [List.length_append, hdone, hsizeLength]
    have hrest := helements (done ++ size ++ objBytes) rest
      (writeOffset + 4 + anObj.bufferLength) (by rw [List.length_append, hhead, hobjLength])
    rw [writeElements]
    simp only [Option.bind_eq_bind, ← hsize, hbuffer, hpoke, Option.bind_some]
    rw [← hhead, List.drop_left, List.take_left, hobj, Option.bind_some, hhead]
    simp only [List.append_assoc] at hrest ⊢
    rw [hrest, hsplit]
    simp only [Option.some.injEq, Prod.mk.injEq, true_and]
    omega

theorem fills_message (m : BuiltMessage) : (OSCElement.message m).Fills := by
  obtain ⟨m, a, vs, rfl⟩ := m
  refine ⟨padded (OSCMessage.slashed a).bytes ++ tagBlock vs ++ dataBlock vs, ?_, ?_⟩
  · simp only [OSCElement.bufferLength, OSCMessage.bufferLength_ofValues, List.length_append,
      length_padded, length_tagBlock, roundUp4_eq]
  · exact fun rest => writeToBuffer_frame (payload_ofValues a vs) rest

theorem fills_bundle (timeStamp : Option ℚ) {elementArray : List OSCElement}
    (h : FillElements elementArray) : (OSCElement.bundle timeStamp elementArray).Fills := by
  obtain ⟨bytes, hlength, helements⟩ := h
  refine ⟨bundleHead timeStamp ++ bytes, ?_, ?_⟩
  · rw [List.length_append, length_bundleHead, hlength, OSCElement.bufferLength]
  · intro rest
    rw [OSCElement.bufferLength, zeros_add, List.append_assoc, writeToBuffer_bundle,
      beginBundle_zeros, Option.bind_some, ← List.append_assoc,
      helements _ rest 16 (length_bundleHead timeStamp)]
    rfl

mutual

theorem fills : ∀ c : OSCElement, c.Fills
  | .message m => fills_message m
  | .bundle timeStamp elementArray => fills_bundle timeStamp (fillElements elementArray)

theorem fillElements : ∀ elements : List OSCElement, FillElements elements
  | [] => fillElements_nil
  | anObj :: rest => (fillElements rest).cons (fills anObj)

end

mutual

theorem OSCElement.bufferLength_mod : ∀ c : OSCElement, c.bufferLength % 4 = 0
  | .message ⟨_, a, vs, rfl⟩ => OSCMessage.bufferLength_mod a vs
  | .bundle _ elementArray => by
    have h := elementsLength_mod elementArray
    rw [OSCElement.bufferLength]
    omega

theorem elementsLength_mod : ∀ elements : List OSCElement, elementsLength elements % 4 = 0
  | [] => rfl
  | anObj :: rest => by
    have hobj := OSCElement.bufferLength_mod anObj
    have hrest := elementsLength_mod rest
    rw [elementsLength]
    omega

end

theorem elementsLength_append (before after : List OSCElement) :
    elementsLength (before ++ after) = elementsLength before + elementsLength after := by
  induction before with
  | nil => simp [elementsLength]
  | cons anObj before ih =>
    rw [List.cons_append, elementsLength, elementsLength, ih]
    omega

/-- The elements are written from the first to the last, each with its length at a multiple of
four in front of it, and end where the buffer ends. -/
def ElementsFit (timeStamp : Option ℚ) (elementArray : List OSCElement) : Prop :=
  ∃ start last, beginBundle timeStamp (zeros (16 + elementsLength elementArray)) = some start ∧
    writeElements elementArray start 16 = some (last, 16 + elementsLength elementArray) ∧
    ∀ before anObj after, elementArray = before ++ anObj :: after →
      ∃ b writeOffset, writeElements before start 16 = some (b, writeOffset) ∧
        writeOffset % 4 = 0 ∧ 16 ≤ writeOffset

theorem elementsFit (timeStamp : Option ℚ) (elementArray : List OSCElement) :
    ElementsFit timeStamp elementArray := by
  obtain ⟨bytes, -, helements⟩ := fillElements elementArray
  have hstart := beginBundle_zeros timeStamp (zeros (elementsLength elementArray))
  have hlast := helements (bundleHead timeStamp) [] 16 (length_bundleHead timeStamp)
  rw [← zeros_add] at hstart
  rw [List.append_nil] at hlast
  refine ⟨_, _, hstart, hlast, fun before anObj after hsplit => ?_⟩
  obtain ⟨bytes', -, hbefore⟩ := fillElements before
  have hrest := hbefore (bundleHead timeStamp) (zeros (elementsLength (anObj :: after))) 16
    (length_bundleHead timeStamp)
  have hmod := elementsLength_mod before
  rw [List.append_assoc, ← zeros_add, ← elementsLength_append, ← hsplit] at hrest
  exact ⟨_, _, hrest, by omega, by omega⟩

namespace OSCElement

/-- What is written stands at multiples of four, and ends where the buffer ends. -/
def Fits : OSCElement → Prop
  | message m => m.1.ValuesFit
  | bundle timeStamp elementArray => ElementsFit timeStamp elementArray

end OSCElement

/-- Every message and every bundle has a packet, of the length it announces. -/
theorem initWithContent_eq_some (c : OSCElement) :
    ∃ payload, OSCPacket.initWithContent c = some payload ∧ payload.length = c.bufferLength := by
  obtain ⟨bytes, hlength, hwrite⟩ := fills c
  have hpos : ¬ c.bufferLength < 1 := by
    cases c with
    | message m =>
      obtain ⟨m, a, vs, rfl⟩ := m
      have hs := roundUp4_eq (OSCMessage.slashed a).bytes.length
      rw [OSCElement.bufferLength, OSCMessage.bufferLength_ofValues]
      omega
    | bundle timeStamp elementArray =>
      rw [OSCElement.bufferLength]
      omega
  have hexact := hwrite []
  simp only [List.append_nil] at hexact
  refine ⟨bytes, ?_, hlength⟩
  rw [OSCPacket.initWithContent, if_neg hpos]
  exact hexact

end PoopWorms.Osc
