import PoopWorms.Server.ScPacket

/-!
# What a reply packet contains

The tags move one cursor and the items another. As long as the tags stay in front of the first
item, and the items fit, the packet is the message of both; whether a packet is overrun depends
on the tags only.
-/

namespace PoopWorms.Server

open Octets Osc FlatMemory Tiling

namespace ScPacket

variable {packet : ScPacket} {x : Item} {ops : List Op} {w : ℤ}

/-! ## One call -/

theorem kBufSize_eq : kBufSize = 16379 := rfl

/-- The zeros of the last word and the string on them are the padded string. -/
theorem storeAt_padded (buf : ℤ → Byte) (a : ℤ) (src : List Byte) :
    storeAt (storeAt buf (a + 4 * ((src.length / 4 : ℕ) : ℤ)) (List.replicate 4 0#8)) a src =
      storeAt buf a (padded src) := by
  have hzeros : List.replicate 4 0#8 =
      List.replicate (src.length % 4) 0#8 ++ List.replicate (4 - src.length % 4) 0#8 := by
    rw [List.replicate_append_replicate]
    congr 1
    omega
  have hend : a + 4 * ((src.length / 4 : ℕ) : ℤ) + (src.length % 4 : ℕ) = a + src.length := by
    omega
  -- the first zeros are covered by the string, and the others stand behind it
  have hcover : storeAt (storeAt buf (a + 4 * ((src.length / 4 : ℕ) : ℤ))
      (List.replicate (src.length % 4) 0#8)) a src = storeAt buf a src := by
    apply storeAt_cover
    · omega
    · rw [List.length_replicate]
      omega
  rw [padded, storeAt_append, hzeros, storeAt_append, List.length_replicate, hend,
    storeAt_comm (.inr (le_refl _)), hcover]

theorem adds_fits {src : List Byte} (h : packet.wrpos + ((src.length + 4) / 4 : ℕ) ≤ kBufSize) :
    packet.adds src = { packet with
      buf := storeAt packet.buf (4 * packet.wrpos) (padded src)
      wrpos := packet.wrpos + ((src.length + 4) / 4 : ℕ) } := by
  have hlast : 4 * (packet.wrpos + ((src.length + 4) / 4 : ℕ) - 1) =
      4 * packet.wrpos + 4 * ((src.length / 4 : ℕ) : ℤ) := by omega
  unfold adds
  simp only [if_neg (not_lt.mpr h)]
  rw [hlast, storeAt_padded]

theorem addItem_fits (h : packet.wrpos + x.words ≤ kBufSize) :
    packet.addItem x = { packet with
      buf := storeAt packet.buf (4 * packet.wrpos) x.data
      wrpos := packet.wrpos + x.words } := by
  cases x with
  | int i =>
    have hlt : ¬ (kBufSize : ℤ) ≤ packet.wrpos := by
      change packet.wrpos + 1 ≤ kBufSize at h
      omega
    exact if_neg hlt
  | float f =>
    have hlt : ¬ (kBufSize : ℤ) ≤ packet.wrpos := by
      change packet.wrpos + 1 ≤ kBufSize at h
      omega
    exact if_neg hlt
  | string src => exact adds_fits h

/-- An item that does not fit is dropped. -/
theorem addItem_full (h : kBufSize < packet.wrpos + x.words) : packet.addItem x = packet := by
  cases x with
  | int i =>
    have hle : (kBufSize : ℤ) ≤ packet.wrpos := by
      change (kBufSize : ℤ) < packet.wrpos + 1 at h
      omega
    exact if_pos hle
  | float f =>
    have hle : (kBufSize : ℤ) ≤ packet.wrpos := by
      change (kBufSize : ℤ) < packet.wrpos + 1 at h
      omega
    exact if_pos hle
  | string src => exact if_pos h

@[simp] theorem addItem_tagwrpos (packet : ScPacket) (x : Item) :
    (packet.addItem x).tagwrpos = packet.tagwrpos := by
  by_cases h : packet.wrpos + x.words ≤ kBufSize
  · rw [addItem_fits h]
  · rw [addItem_full (by omega)]

/-- Only places of the words that are added change. -/
theorem addItem_buf (h : w < 4 * packet.wrpos ∨ 4 * kBufSize ≤ w) :
    (packet.addItem x).buf w = packet.buf w := by
  by_cases hfits : packet.wrpos + x.words ≤ kBufSize
  · rw [addItem_fits hfits]
    refine storeAt_of_out ?_
    rw [x.length_data]
    omega
  · rw [addItem_full (by omega)]

/-- Where the words are behind an item. -/
theorem wrpos_addItem (packet : ScPacket) (x : Item) :
    (packet.addItem x).wrpos =
      if packet.wrpos + x.words ≤ kBufSize then packet.wrpos + x.words else packet.wrpos := by
  by_cases h : packet.wrpos + x.words ≤ kBufSize
  · rw [addItem_fits h, if_pos h]
  · rw [addItem_full (by omega), if_neg h]

theorem le_wrpos_addItem (packet : ScPacket) (x : Item) :
    packet.wrpos ≤ (packet.addItem x).wrpos := by
  rw [wrpos_addItem]
  split_ifs <;> omega

theorem addtag_buf {c : Byte} (h : w ≠ packet.tagwrpos) : (packet.addtag c).buf w = packet.buf w := by
  refine storeAt_of_out ?_
  rw [List.length_singleton]
  omega

/-! ## All calls -/

@[simp] theorem opTags_cons_tag (c : Byte) (ops : List Op) :
    opTags (.tag c :: ops) = c :: opTags ops := rfl

@[simp] theorem opTags_cons_item (x : Item) (ops : List Op) :
    opTags (.item x :: ops) = opTags ops := rfl

@[simp] theorem opItems_cons_tag (c : Byte) (ops : List Op) :
    opItems (.tag c :: ops) = opItems ops := rfl

@[simp] theorem opItems_cons_item (x : Item) (ops : List Op) :
    opItems (.item x :: ops) = x :: opItems ops := rfl

theorem opTags_append (ops ops' : List Op) : opTags (ops ++ ops') = opTags ops ++ opTags ops' :=
  List.flatMap_append

theorem opItems_append (ops ops' : List Op) :
    opItems (ops ++ ops') = opItems ops ++ opItems ops' := List.flatMap_append

@[simp] theorem performAll_nil (packet : ScPacket) : packet.performAll [] = packet := rfl

@[simp] theorem performAll_cons (packet : ScPacket) (op : Op) (ops : List Op) :
    packet.performAll (op :: ops) = (packet.perform op).performAll ops := rfl

theorem performAll_append (packet : ScPacket) (ops ops' : List Op) :
    packet.performAll (ops ++ ops') = (packet.performAll ops).performAll ops' :=
  List.foldl_append

theorem itemBytes_cons (x : Item) (items : List Item) :
    itemBytes (x :: items) = x.data ++ itemBytes items := rfl

theorem itemWords_cons (x : Item) (items : List Item) :
    itemWords (x :: items) = x.words + itemWords items := total_cons _ _ _

theorem length_itemBytes (items : List Item) :
    (itemBytes items).length = 4 * itemWords items := by
  induction items with
  | nil => rfl
  | cons x items ih =>
    rw [itemBytes_cons, List.length_append, x.length_data, ih, itemWords_cons]
    omega

/-- The words move on, within the buffer. -/
theorem wrpos_performAll (packet : ScPacket) (ops : List Op) :
    packet.wrpos ≤ (packet.performAll ops).wrpos ∧
      (packet.wrpos ≤ kBufSize → (packet.performAll ops).wrpos ≤ kBufSize) ∧
      (packet.performAll ops).wrpos ≤ packet.wrpos + itemWords (opItems ops) := by
  induction ops generalizing packet with
  | nil => exact ⟨le_refl _, id, by simp [itemWords, opItems]⟩
  | cons op ops ih =>
    obtain ⟨hle, hend, hmost⟩ := ih (packet.perform op)
    rw [performAll_cons]
    cases op with
    | tag c => exact ⟨hle, hend, hmost⟩
    | item x =>
      have hword := wrpos_addItem packet x
      rw [opItems_cons_item, itemWords_cons]
      change (packet.addItem x).wrpos ≤ _ at hle
      change (packet.addItem x).wrpos ≤ _ → _ at hend
      change _ ≤ (packet.addItem x).wrpos + _ at hmost
      split_ifs at hword with hfits
      · refine ⟨by omega, fun _ => hend (by omega), by omega⟩
      · refine ⟨by omega, fun h => hend (by omega), by omega⟩

/-- Where the items do not all fit, some words are missing. -/
theorem wrpos_performAll_lt (hle : packet.wrpos ≤ kBufSize)
    (h : kBufSize < packet.wrpos + itemWords (opItems ops)) :
    (packet.performAll ops).wrpos < packet.wrpos + itemWords (opItems ops) := by
  have hend := (wrpos_performAll packet ops).2.1 hle
  omega

/-- The places in front of the words, but for those of the tags, stay. -/
theorem performAll_untouched (hwords : w < 4 * packet.wrpos)
    (htags : w < packet.tagwrpos ∨ packet.tagwrpos + (opTags ops).length ≤ w) :
    (packet.performAll ops).buf w = packet.buf w := by
  induction ops generalizing packet with
  | nil => rfl
  | cons op ops ih =>
    rw [performAll_cons]
    cases op with
    | tag c =>
      rw [opTags_cons_tag, List.length_cons] at htags
      have hrest : w < (packet.addtag c).tagwrpos ∨
          (packet.addtag c).tagwrpos + (opTags ops).length ≤ w := by
        show w < packet.tagwrpos + 1 ∨ packet.tagwrpos + 1 + _ ≤ w
        omega
      have hfront : w < 4 * (packet.addtag c).wrpos := hwords
      exact (ih hfront hrest).trans (addtag_buf (by omega))
    | item x =>
      have hmore := le_wrpos_addItem packet x
      have hrest : w < (packet.addItem x).tagwrpos ∨
          (packet.addItem x).tagwrpos + (opTags ops).length ≤ w := by
        rw [addItem_tagwrpos]
        exact htags
      have hfront : w < 4 * (packet.addItem x).wrpos := by omega
      exact (ih hfront hrest).trans (addItem_buf (.inl hwords))

/-- The places outside of the buffer stay if the tags end in it. -/
theorem performAll_inside (hwords : 0 ≤ packet.wrpos) (htags : 0 ≤ packet.tagwrpos)
    (hend : packet.tagwrpos + (opTags ops).length ≤ maxPacketSize) :
    Inside packet.buf (packet.performAll ops).buf := by
  induction ops generalizing packet with
  | nil => exact fun w _ => rfl
  | cons op ops ih =>
    intro w hw
    have hsize : (4 * kBufSize : ℤ) = maxPacketSize := rfl
    rw [performAll_cons]
    cases op with
    | tag c =>
      rw [opTags_cons_tag, List.length_cons] at hend
      have hrest : Inside (packet.addtag c).buf ((packet.addtag c).performAll ops).buf := by
        refine ih hwords ?_ ?_
        · show 0 ≤ packet.tagwrpos + 1
          omega
        · show packet.tagwrpos + 1 + _ ≤ _
          omega
      exact (hrest w hw).trans (addtag_buf (by omega))
    | item x =>
      have hmore := le_wrpos_addItem packet x
      have hrest : Inside (packet.addItem x).buf ((packet.addItem x).performAll ops).buf := by
        refine ih (by omega) ?_ ?_
        · rw [addItem_tagwrpos]
          exact htags
        · rw [addItem_tagwrpos]
          exact hend
      exact (hrest w hw).trans (addItem_buf (by omega))

/-- Behind the buffer, the tags that are in front of the cursor stay. -/
theorem performAll_passed (hw : maxPacketSize ≤ w) (hlt : w < packet.tagwrpos) :
    (packet.performAll ops).buf w = packet.buf w := by
  induction ops generalizing packet with
  | nil => rfl
  | cons op ops ih =>
    have hsize : (4 * kBufSize : ℤ) = maxPacketSize := rfl
    rw [performAll_cons]
    cases op with
    | tag c =>
      have hrest : w < (packet.addtag c).tagwrpos := by
        show w < packet.tagwrpos + 1
        omega
      exact (ih hrest).trans (addtag_buf (by omega))
    | item x =>
      have hrest : w < (packet.addItem x).tagwrpos := by
        rw [addItem_tagwrpos]
        exact hlt
      exact (ih hrest).trans (addItem_buf (.inr (by omega)))

/-- Behind the buffer stand the tags that do not end in it. -/
theorem performAll_overrun (hw : maxPacketSize ≤ w) (hle : packet.tagwrpos ≤ w)
    (hlt : w < packet.tagwrpos + (opTags ops).length) :
    (packet.performAll ops).buf w ∈ opTags ops := by
  induction ops generalizing packet with
  | nil =>
    have hnone : (opTags []).length = 0 := rfl
    omega
  | cons op ops ih =>
    rw [performAll_cons]
    cases op with
    | tag c =>
      rw [opTags_cons_tag, List.length_cons] at hlt
      by_cases heq : w = packet.tagwrpos
      · -- no other call reaches this place
        have htag : (packet.addtag c).buf w = c := by
          subst heq
          have hlast : packet.tagwrpos < packet.tagwrpos + [c].length := by
            rw [List.length_singleton]
            omega
          have hin := storeAt_of_in (m := packet.buf) (le_refl packet.tagwrpos) hlast
          rw [sub_self] at hin
          exact (Option.some.inj hin).symm
        have hpassed : w < (packet.addtag c).tagwrpos := by
          show w < packet.tagwrpos + 1
          omega
        rw [opTags_cons_tag, show packet.perform (.tag c) = packet.addtag c from rfl,
          performAll_passed hw hpassed, htag]
        exact List.mem_cons_self
      · have hle' : (packet.addtag c).tagwrpos ≤ w := by
          show packet.tagwrpos + 1 ≤ w
          omega
        have hlt' : w < (packet.addtag c).tagwrpos + (opTags ops).length := by
          show w < packet.tagwrpos + 1 + _
          omega
        exact List.mem_cons_of_mem _ (ih hle' hlt')
    | item x =>
      have hle' : (packet.addItem x).tagwrpos ≤ w := by
        rw [addItem_tagwrpos]
        exact hle
      have hlt' : w < (packet.addItem x).tagwrpos + (opTags ops).length := by
        rw [addItem_tagwrpos]
        exact hlt
      exact ih hle' hlt'

/-- Tags in front of the first item, and items that fit, are all there. -/
theorem performAll_fits (htags : packet.tagwrpos + (opTags ops).length ≤ 4 * packet.wrpos)
    (hwords : packet.wrpos + itemWords (opItems ops) ≤ kBufSize) :
    (packet.performAll ops).buf = storeAt (storeAt packet.buf packet.tagwrpos (opTags ops))
        (4 * packet.wrpos) (itemBytes (opItems ops)) ∧
      (packet.performAll ops).wrpos = packet.wrpos + itemWords (opItems ops) := by
  induction ops generalizing packet with
  | nil => simp [opTags, opItems, itemBytes, itemWords]
  | cons op ops ih =>
    rw [performAll_cons]
    cases op with
    | tag c =>
      rw [opTags_cons_tag, List.length_cons] at htags
      rw [opItems_cons_tag] at hwords
      have hbehind : (packet.addtag c).tagwrpos + (opTags ops).length ≤
          4 * (packet.addtag c).wrpos := by
        show packet.tagwrpos + 1 + _ ≤ 4 * packet.wrpos
        omega
      have hroom : (packet.addtag c).wrpos + itemWords (opItems ops) ≤ kBufSize := hwords
      obtain ⟨hbuf, hwrpos⟩ := ih hbehind hroom
      refine ⟨hbuf.trans ?_, hwrpos⟩
      rw [opTags_cons_tag, opItems_cons_tag, ← List.singleton_append, storeAt_append]
      rfl
    | item x =>
      rw [opItems_cons_item, itemWords_cons] at hwords
      rw [opTags_cons_item] at htags
      have hfits : packet.wrpos + x.words ≤ kBufSize := by omega
      have hadd := addItem_fits hfits
      have hbehind : (packet.addItem x).tagwrpos + (opTags ops).length ≤
          4 * (packet.addItem x).wrpos := by
        rw [hadd]
        show packet.tagwrpos + _ ≤ 4 * (packet.wrpos + x.words)
        omega
      have hroom : (packet.addItem x).wrpos + itemWords (opItems ops) ≤ kBufSize := by
        rw [hadd]
        show packet.wrpos + x.words + _ ≤ _
        omega
      obtain ⟨hbuf, hwrpos⟩ := ih hbehind hroom
      -- the tags that follow are stored in front of the item
      have hplace : 4 * (packet.wrpos + (x.words : ℤ)) = 4 * packet.wrpos + x.data.length := by
        rw [x.length_data]
        omega
      rw [hadd] at hbuf hwrpos
      change _ = storeAt (storeAt (storeAt packet.buf (4 * packet.wrpos) x.data) packet.tagwrpos
        (opTags ops)) (4 * (packet.wrpos + x.words)) (itemBytes (opItems ops)) at hbuf
      change _ = packet.wrpos + x.words + itemWords (opItems ops) at hwrpos
      rw [← hadd] at hbuf hwrpos
      rw [opTags_cons_item, opItems_cons_item, itemBytes_cons, itemWords_cons, storeAt_append,
        ← hplace, storeAt_comm (.inl htags)]
      exact ⟨hbuf, by rw [show packet.perform (.item x) = packet.addItem x from rfl]; omega⟩

/-! ## A whole reply -/

/-- How a reply begins. -/
def beginReply (stack : ℤ → Byte) (address : List Byte) (numtags : Word) : ScPacket :=
  ((reset stack).adds address).maketags numtags

section Reply

variable {stack : ℤ → Byte} {address : List Byte} {numtags : Word}

/-- The words of the address. -/
def addressWords (address : List Byte) : ℕ := (address.length + 4) / 4

theorem addressWords_pos (address : List Byte) : 1 ≤ addressWords address := by
  unfold addressWords
  omega

/-- The first word behind those for the tags; where there is no room for them, it is the one
behind the address. -/
def firstWord (address : List Byte) (numtags : Word) : ℤ :=
  if kBufSize < addressWords address + tagWords numtags then addressWords address
  else addressWords address + tagWords numtags

theorem beginReply_eq (haddress : addressWords address ≤ kBufSize) :
    beginReply stack address numtags =
      ⟨storeAt (storeAt stack 0 (padded address)) (4 * (firstWord address numtags - 1))
        (List.replicate 4 0#8), firstWord address numtags, 4 * addressWords address⟩ := by
  have hadds : (reset stack).adds address =
      ⟨storeAt stack 0 (padded address), addressWords address, 0⟩ := by
    rw [adds_fits]
    · simp [reset, addressWords]
    · show (0 : ℤ) + addressWords address ≤ kBufSize
      omega
  unfold beginReply firstWord
  rw [hadds]
  unfold maketags skip
  simp only
  split_ifs <;> rfl

theorem beginReply_wrpos (haddress : addressWords address ≤ kBufSize) :
    (beginReply stack address numtags).wrpos = firstWord address numtags := by
  rw [beginReply_eq haddress]

theorem beginReply_tagwrpos (haddress : addressWords address ≤ kBufSize) :
    (beginReply stack address numtags).tagwrpos = 4 * addressWords address := by
  rw [beginReply_eq haddress]

theorem beginReply_buf (haddress : addressWords address ≤ kBufSize) :
    (beginReply stack address numtags).buf = storeAt (storeAt stack 0 (padded address))
      (4 * (firstWord address numtags - 1)) (List.replicate 4 0#8) := by
  rw [beginReply_eq haddress]

theorem firstWord_le (haddress : addressWords address ≤ kBufSize) (numtags : Word) :
    firstWord address numtags ≤ kBufSize := by
  unfold firstWord
  split_ifs <;> omega

/-- No reply leaves the buffer if the word behind the address that `maketags` clears and all tags
are in it. -/
theorem beginReply_inside_iff (haddress : addressWords address ≤ kBufSize) (numtags : Word)
    (hnul : ∀ c ∈ opTags ops, c ≠ 0#8) :
    (∀ stack, Inside stack ((beginReply stack address numtags).performAll ops).buf) ↔
      1 ≤ firstWord address numtags ∧
        4 * addressWords address + (opTags ops).length ≤ maxPacketSize := by
  have hsize : 4 * kBufSize = maxPacketSize := rfl
  have hlast := firstWord_le haddress numtags
  constructor
  · intro hall
    constructor
    · -- the word that is cleared stands in front of all that is added
      by_contra hneg
      have hplace := hall (fun _ => 1#8) (4 * (firstWord address numtags - 1)) (.inl (by omega))
      rw [performAll_untouched, beginReply_buf haddress] at hplace
      · have hlt : 4 * (firstWord address numtags - 1) < 4 * (firstWord address numtags - 1) +
            (List.replicate 4 0#8).length := by
          rw [List.length_replicate]
          omega
        have hzero := storeAt_of_in (m := storeAt (fun _ => 1#8) 0 (padded address))
          (Int.le_refl _) hlt
        rw [sub_self, hplace] at hzero
        have hsame : (0#8 : Byte) = 1#8 := Option.some.inj hzero
        exact absurd hsame (by decide)
      · rw [beginReply_wrpos haddress]
        omega
      · rw [beginReply_tagwrpos haddress]
        omega
    · by_contra hover
      have hplace := hall (fun _ => 0#8) maxPacketSize (.inr (le_refl _))
      have hle : (beginReply (fun _ => 0#8) address numtags).tagwrpos ≤ maxPacketSize := by
        rw [beginReply_tagwrpos haddress]
        omega
      have hlt : (maxPacketSize : ℤ) <
          (beginReply (fun _ => 0#8) address numtags).tagwrpos + (opTags ops).length := by
        rw [beginReply_tagwrpos haddress]
        omega
      have hmem := performAll_overrun (le_refl _) hle hlt
      rw [hplace] at hmem
      exact hnul _ hmem rfl
  · intro hcond stack w hw
    rw [performAll_inside (by rw [beginReply_wrpos haddress]; omega)
      (by rw [beginReply_tagwrpos haddress]; omega)
      (by rw [beginReply_tagwrpos haddress]; omega) w hw, beginReply_buf haddress, storeAt_of_out,
      storeAt_of_out]
    · rw [length_padded]
      unfold addressWords at haddress
      omega
    · rw [List.length_replicate]
      omega

/-- A packet with a word in it is sent. -/
theorem beginReply_sends (haddress : addressWords address ≤ kBufSize)
    (hfirst : 1 ≤ firstWord address numtags) (stack : ℤ → Byte) (ops : List Op) :
    ∃ bytes, ((beginReply stack address numtags).performAll ops).sendReply = some bytes := by
  have hle := (wrpos_performAll (beginReply stack address numtags) ops).1
  rw [beginReply_wrpos haddress] at hle
  refine ⟨_, if_neg ?_⟩
  unfold size
  omega

theorem length_encode (address tags : List Byte) (items : List Item) :
    (encode address tags items).length =
      4 * (addressWords address + (tags.length / 4 + 1) + itemWords items) := by
  unfold encode addressWords
  rw [List.length_append, List.length_append, length_padded, length_padded, length_itemBytes]
  omega

/-- Behind the tags stands a NUL. -/
theorem getElem?_encode (address tags : List Byte) (items : List Item) :
    (encode address tags items)[4 * addressWords address + tags.length]? = some 0#8 := by
  have haddr : (padded address).length = 4 * addressWords address := by
    rw [length_padded]
    unfold addressWords
    omega
  obtain ⟨k, hk⟩ : ∃ k, 4 - tags.length % 4 = k + 1 := ⟨3 - tags.length % 4, by omega⟩
  unfold encode
  rw [List.append_assoc, List.getElem?_append_right (by omega), haddr, Nat.add_sub_cancel_left,
    padded, List.append_assoc, List.getElem?_append_right (le_refl _), Nat.sub_self, hk]
  rfl

/-- The words that are reserved are those of the tags, and the items fit: then the reply is the
message. -/
theorem beginReply_complete (haddress : addressWords address ≤ kBufSize)
    (htags : tagWords numtags = ((opTags ops).length / 4 : ℕ) + 1)
    (hroom : addressWords address + tagWords numtags + itemWords (opItems ops) ≤ kBufSize) :
    ((beginReply stack address numtags).performAll ops).sendReply =
      some (encode address (opTags ops) (opItems ops)) := by
  have hfirst : firstWord address numtags = addressWords address + tagWords numtags := by
    unfold firstWord
    rw [if_neg (by omega)]
  have hpos := addressWords_pos address
  have hfront : (beginReply stack address numtags).tagwrpos + (opTags ops).length ≤
      4 * (beginReply stack address numtags).wrpos := by
    rw [beginReply_wrpos haddress, beginReply_tagwrpos haddress, hfirst]
    omega
  have hend : (beginReply stack address numtags).wrpos + itemWords (opItems ops) ≤ kBufSize := by
    rw [beginReply_wrpos haddress, hfirst]
    exact hroom
  obtain ⟨hbuf, hwrpos⟩ := performAll_fits hfront hend
  rw [beginReply_buf haddress, beginReply_wrpos haddress, beginReply_tagwrpos haddress,
    hfirst] at hbuf
  rw [beginReply_wrpos haddress, hfirst] at hwrpos
  have hclear : 4 * ((addressWords address : ℤ) + tagWords numtags - 1) =
      4 * addressWords address + 4 * (((opTags ops).length / 4 : ℕ) : ℤ) := by omega
  have haddr : (0 : ℤ) + (padded address).length = 4 * addressWords address := by
    rw [length_padded]
    unfold addressWords
    omega
  have htag : (0 : ℤ) + (padded address ++ padded (opTags ops)).length =
      4 * (addressWords address + tagWords numtags) := by
    rw [List.length_append, length_padded, length_padded]
    unfold addressWords
    omega
  -- the three parts lie one behind the other
  rw [hclear, storeAt_padded, ← haddr, ← storeAt_append, ← htag, ← storeAt_append] at hbuf
  have hlength := length_encode address (opTags ops) (opItems ops)
  have hnat : (4 * ((addressWords address : ℤ) + tagWords numtags +
      itemWords (opItems ops))).toNat = (encode address (opTags ops) (opItems ops)).length := by
    omega
  unfold sendReply size
  rw [hwrpos, if_neg (by omega), hbuf, hnat]
  exact congrArg some readAt_storeAt

/-- A reply is complete, and in its buffer, whatever the stack holds, exactly if the words that
are reserved are those of the tags and the items fit. -/
theorem beginReply_complete_iff (haddress : addressWords address ≤ kBufSize) (numtags : Word)
    (hnul : ∀ c ∈ opTags ops, c ≠ 0#8) :
    (∀ stack, Inside stack ((beginReply stack address numtags).performAll ops).buf ∧
        ((beginReply stack address numtags).performAll ops).sendReply =
          some (encode address (opTags ops) (opItems ops))) ↔
      tagWords numtags = ((opTags ops).length / 4 : ℕ) + 1 ∧
        addressWords address + tagWords numtags + itemWords (opItems ops) ≤ kBufSize := by
  have hsize : 4 * kBufSize = maxPacketSize := rfl
  have hpos := addressWords_pos address
  have hlast := firstWord_le haddress numtags
  constructor
  · intro hall
    obtain ⟨-, hsent⟩ := hall fun _ => 1#8
    have hlength := length_encode address (opTags ops) (opItems ops)
    obtain ⟨-, hend, hmost⟩ :=
      wrpos_performAll (beginReply (fun _ => 1#8) address numtags) ops
    rw [beginReply_wrpos haddress] at hend hmost
    have hend := hend hlast
    -- the lengths agree, so that at least as many words are reserved as the tags need
    unfold sendReply at hsent
    split_ifs at hsent with hnone
    have hbytes := Option.some.inj hsent
    have hsame := congrArg List.length hbytes
    rw [length_readAt, hlength] at hsame
    unfold size at hsame hnone hbytes
    have hmore : addressWords address + ((opTags ops).length / 4 + 1 : ℕ) ≤
        firstWord address numtags := by omega
    have hfirst : firstWord address numtags = addressWords address + tagWords numtags := by
      unfold firstWord at hmore ⊢
      split_ifs at hmore ⊢ with hfull
      · omega
      · rfl
    by_cases hexact : tagWords numtags = ((opTags ops).length / 4 : ℕ) + 1
    · exact ⟨hexact, by omega⟩
    · -- the byte behind the tags is still that of the stack
      have hplace : ((beginReply (fun _ => 1#8) address numtags).performAll ops).buf
          (4 * addressWords address + (opTags ops).length) = 1#8 := by
        rw [performAll_untouched, beginReply_buf haddress, storeAt_of_out, storeAt_of_out]
        · rw [length_padded]
          unfold addressWords
          omega
        · omega
        · rw [beginReply_wrpos haddress]
          omega
        · rw [beginReply_tagwrpos haddress]
          omega
      have hget := getElem?_readAt (a := 0)
        (m := ((beginReply (fun _ => 1#8) address numtags).performAll ops).buf)
        (i := 4 * addressWords address + (opTags ops).length)
        (n := (4 * ((beginReply (fun _ => 1#8) address numtags).performAll ops).wrpos).toNat)
        (by omega)
      rw [hbytes, getElem?_encode] at hget
      have hsame : (0#8 : Byte) = 1#8 := by
        rw [← hplace]
        exact (Option.some.inj hget).trans (congrArg _ (by omega))
      exact absurd hsame (by decide)
  · intro hcond stack
    have hfirst : firstWord address numtags = addressWords address + tagWords numtags := by
      unfold firstWord
      rw [if_neg (by omega)]
    refine ⟨(beginReply_inside_iff haddress numtags hnul).mpr ?_ stack,
      beginReply_complete haddress hcond.1 hcond.2⟩
    rw [hfirst]
    omega

end Reply

end ScPacket

end PoopWorms.Server
