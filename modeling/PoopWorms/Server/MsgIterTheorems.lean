import PoopWorms.Osc.MessageTheorems
import PoopWorms.Server.MsgIter

/-!
# Reading a message back

`It.At vs` says that an iterator stands in front of the arguments `vs` of a message that
the client wrote. Each read takes the first of them and leaves the iterator in front of
the others; from this follows what the server reads from a whole message.
-/

namespace PoopWorms.Server

open Octets Osc

/-- A padded string is skipped whole. -/
theorem oscStrskip_padded {s : List Byte} (hs : ∀ b ∈ s, b ≠ 0#8) (str : List Byte) :
    oscStrskip (padded s ++ str) = some (padded s).length := by
  match s with
  | [] => rfl
  | [a] => rfl
  | [a, b] => rfl
  | [a, b, c] => rfl
  | a :: b :: c :: d :: s =>
    have hd : d ≠ 0#8 := hs d (by simp)
    have ih := oscStrskip_padded (s := s) (fun b hb => hs b (by simp [hb])) str
    rw [padded_cons₄, List.cons_append, List.cons_append, List.cons_append, List.cons_append,
      oscStrskip, if_pos hd, ih]
    simp only [Option.map_some, List.length_cons]
    congr 1
    omega

theorem oscInt_append {bs : List Byte} (h : bs.length = 4) (rest : List Byte) :
    oscInt (bs ++ rest) = some (swap32 (wordOf bs)) := by
  match bs, h with
  | [a, b, c, d], _ => rfl

theorem oscInt_eq_some {bs : List Byte} {u : Word} (h : oscInt bs = some u) :
    ∃ x y z w rest, bs = x :: y :: z :: w :: rest ∧ u = swap32 (leWord x y z w) := by
  unfold oscInt at h
  split at h
  · exact ⟨_, _, _, _, _, rfl, (Option.some.inj h).symm⟩
  · exact absurd h (by simp)

/-- An argument that is read as a float. -/
inductive NumberArg
  | int (n : Word)
  | float (bits : Word)

namespace NumberArg

def tag : NumberArg → Byte
  | int _ => chr 'i'
  | float _ => chr 'f'

def data : NumberArg → List Byte
  | int n => OSCValue.beBytes n
  | float bits => OSCValue.beBytes bits

theorem length_data (v : NumberArg) : v.data.length = 4 := by
  cases v <;> rfl

/-- The value as it is read. -/
def read (fpu : FloatUnit) : NumberArg → Word
  | int n => fpu.floatOfInt32 n
  | float bits => bits

end NumberArg

/-- Zero and one as floats. -/
def zeroOne : FloatUnit :=
  ⟨fun _ => 0#32, fun n => if n = 0#32 then 0#32 else 0x3f800000#32, fun _ => 0#32⟩

/-! ## One read -/

namespace MsgIter

/-- The iterator stands in front of the type tags `tags` and the bytes `data`. -/
structure Before (it : MsgIter) (tags data : List Byte) : Prop where
  tags : ∃ t, it.tags = some t ∧ ∃ pad, it.data.drop (t + it.count) = tags ++ 0#8 :: pad
  data : it.rest = data
  size : it.size = it.data.length
  rdpos : it.rdpos ≤ it.size

section Before

variable {it : MsgIter} {tag : Byte} {tags data bs : List Byte}

theorem Before.remain_eq (h : it.Before tags data) : it.remain = data.length := by
  have hlen := congrArg List.length h.data
  have hsize := h.size
  have hrdpos := h.rdpos
  simp only [rest, List.length_drop] at hlen
  unfold remain
  omega

theorem Before.isSome_tags (h : it.Before tags data) : it.tags.isSome := by
  rcases h.tags with ⟨t, ht, -⟩
  simp [ht]

/-- Behind the last tag stands a NUL. -/
theorem Before.nextTag_head (h : it.Before tags data) :
    it.nextTag = some (tags.headD 0#8) := by
  rcases h.tags with ⟨t, ht, pad, hdrop⟩
  have hget : (it.data.drop (t + it.count))[0]? = some (tags.headD 0#8) := by
    rw [hdrop]
    cases tags with
    | nil => rfl
    | cons tag tags => rfl
  rw [List.getElem?_drop, add_zero] at hget
  unfold nextTag
  rw [ht]
  exact hget

theorem Before.nextTag_eq (h : it.Before (tag :: tags) data) : it.nextTag = some tag :=
  h.nextTag_head

/-- After the bytes `bs` of one tag have been read. -/
theorem Before.advance (h : it.Before (tag :: tags) (bs ++ data)) :
    ((it.skip bs.length).next).Before tags data := by
  have hremain := h.remain_eq
  rw [List.length_append] at hremain
  refine ⟨?_, ?_, h.size, ?_⟩
  · rcases h.tags with ⟨t, ht, pad, hdrop⟩
    refine ⟨t, ht, pad, ?_⟩
    have hcount : t + (it.count + 1) = t + it.count + 1 := by omega
    change it.data.drop (t + (it.count + 1)) = _
    rw [hcount, ← List.drop_drop, hdrop]
    rfl
  · have hdata := h.data
    unfold rest at hdata ⊢
    change it.data.drop (it.rdpos + bs.length) = _
    rw [← List.drop_drop, hdata, List.drop_left]
  · unfold remain at hremain
    change it.rdpos + bs.length ≤ it.size
    omega

/-- A tag without bytes is stepped over. -/
theorem Before.next (h : it.Before (tag :: tags) data) : it.next.Before tags data := by
  have hnil : it.Before (tag :: tags) ([] ++ data) := h
  exact hnil.advance

theorem Before.remain_pos (h : it.Before tags (bs ++ data)) (hbs : 0 < bs.length) :
    ¬ it.remain ≤ 0 := by
  have hremain := h.remain_eq
  rw [List.length_append] at hremain
  omega

theorem Before.oscInt_eq (h : it.Before tags (bs ++ data)) (hbs : bs.length = 4) :
    oscInt it.rest = some (swap32 (wordOf bs)) := by
  rw [h.data, oscInt_append hbs]

theorem swap32_wordOf_beBytes (n : Word) : swap32 (wordOf (OSCValue.beBytes n)) = n := by
  rw [OSCValue.beBytes, wordOf_leBytes, swap32_swap32]

/-- Reading a word with the tag `'i'` as an integer. -/
theorem Before.geti {fpu : FloatUnit} (h : it.Before (chr 'i' :: tags) (bs ++ data))
    (hbs : bs.length = 4) (d : Word) :
    it.geti fpu d = some (swap32 (wordOf bs), (it.skip 4).next) := by
  unfold MsgIter.geti
  rw [if_neg (h.remain_pos (by omega)), if_pos h.isSome_tags, h.nextTag_eq, h.oscInt_eq hbs]
  rfl

/-- Reading a word with the tag `'f'` as a float. -/
theorem Before.getf {fpu : FloatUnit} (h : it.Before (chr 'f' :: tags) (bs ++ data))
    (hbs : bs.length = 4) (d : Word) :
    it.getf fpu d = some (swap32 (wordOf bs), (it.skip 4).next) := by
  unfold MsgIter.getf
  rw [if_neg (h.remain_pos (by omega)), if_pos h.isSome_tags, h.nextTag_eq, h.oscInt_eq hbs]
  rfl

/-- Reading a word with the tag `'i'` as a float. -/
theorem Before.getf_int {fpu : FloatUnit} (h : it.Before (chr 'i' :: tags) (bs ++ data))
    (hbs : bs.length = 4) (d : Word) :
    it.getf fpu d = some (fpu.floatOfInt32 (swap32 (wordOf bs)), (it.skip 4).next) := by
  unfold MsgIter.getf
  rw [if_neg (h.remain_pos (by omega)), if_pos h.isSome_tags, h.nextTag_eq, h.oscInt_eq hbs]
  rfl

/-- Reading a number of either kind as a float. -/
theorem Before.getf_number {fpu : FloatUnit} {v : NumberArg}
    (h : it.Before (v.tag :: tags) (v.data ++ data)) :
    it.getf fpu 0#32 = some (v.read fpu, (it.skip v.data.length).next) := by
  cases v with
  | int n =>
    rw [h.getf_int rfl, NumberArg.data, swap32_wordOf_beBytes]
    rfl
  | float bits =>
    rw [h.getf rfl, NumberArg.data, swap32_wordOf_beBytes]
    rfl

/-- Reading a string with the tag `'s'`. -/
theorem Before.gets {s : List Byte} (hs : ∀ b ∈ s, b ≠ 0#8)
    (h : it.Before (chr 's' :: tags) (padded s ++ data)) (d : Option (List Byte)) :
    it.gets d = some (some s, (it.skip (padded s).length).next) := by
  have hskip : oscStrskip it.rest = some (padded s).length := by
    rw [h.data, oscStrskip_padded hs]
  have hstring : it.cString = s := by
    rw [cString, h.data, takeWhile_padded hs]
  have hpos : 0 < (padded s).length := by
    rw [length_padded]
    omega
  unfold MsgIter.gets
  rw [if_neg (h.remain_pos hpos), if_pos h.isSome_tags, h.nextTag_eq, hskip, hstring]
  rfl

end Before

/-- The iterator stands in front of the arguments `vs`. -/
structure At (it : MsgIter) (vs : List OSCValue) : Prop where
  tags : ∃ t, it.tags = some t ∧
    ∃ pad, it.data.drop (t + it.count) = tagString vs ++ 0#8 :: pad
  data : it.rest = dataBlock vs
  size : it.size = it.data.length
  rdpos : it.rdpos ≤ it.size

variable {it : MsgIter} {v : OSCValue} {vs : List OSCValue}

theorem At.before (h : it.At vs) : it.Before (tagString vs) (dataBlock vs) :=
  ⟨h.tags, h.data, h.size, h.rdpos⟩

theorem At.before_cons (h : it.At (v :: vs)) (tag : Byte) (hv : v.tags = [tag]) :
    it.Before (tag :: tagString vs) (v.data ++ dataBlock vs) := by
  have hbefore := h.before
  rw [tagString_cons, hv, dataBlock_cons] at hbefore
  exact hbefore

theorem At.remain_eq (h : it.At vs) : it.remain = (dataBlock vs).length := h.before.remain_eq

theorem At.isSome_tags (h : it.At vs) : it.tags.isSome := h.before.isSome_tags

theorem At.nextTag_eq (h : it.At (v :: vs)) (tag : Byte) (hv : v.tags = [tag]) :
    it.nextTag = some tag := (h.before_cons tag hv).nextTag_eq

/-- After a value with one tag has been read. -/
theorem At.advance (h : it.At (v :: vs)) (tag : Byte) (hv : v.tags = [tag]) :
    ((it.skip v.bufferLength).next).At vs := by
  have hnext := (h.before_cons tag hv).advance
  rw [v.length_data] at hnext
  exact ⟨hnext.tags, hnext.data, hnext.size, hnext.rdpos⟩

theorem At.remain_pos (h : it.At (v :: vs)) (hv : 0 < v.bufferLength) : ¬ it.remain ≤ 0 := by
  have hremain := h.remain_eq
  simp only [dataBlock_cons, List.length_append, OSCValue.length_data] at hremain
  omega

/-- Reading an integer that was written as one. -/
theorem At.geti {fpu : FloatUnit} {n : Word} (h : it.At (.int n :: vs)) (d : Word) :
    it.geti fpu d = some (n, (it.skip 4).next) := by
  rw [(h.before_cons (chr 'i') rfl).geti rfl, OSCValue.data, swap32_wordOf_beBytes]

/-- Reading a float that was written as one. -/
theorem At.getf {fpu : FloatUnit} {bits : Word} (h : it.At (.float bits :: vs)) (d : Word) :
    it.getf fpu d = some (asSent bits, (it.skip 4).next) :=
  (h.before_cons (chr 'f') rfl).getf (by simp [OSCValue.data]) d

/-- Reading a string that was written as one. -/
theorem At.gets {s : CString} (h : it.At (.string s :: vs)) (d : Option (List Byte)) :
    it.gets d = some (some s.bytes, (it.skip (roundUp4 s.bytes.length)).next) := by
  have hlen : (padded s.bytes).length = roundUp4 s.bytes.length := by
    rw [length_padded, roundUp4_eq]
  rw [← hlen]
  exact (h.before_cons (chr 's') rfl).gets s.ne_zero d

end MsgIter

/-! ## All reads -/

/-- The arguments that `addInt:`, `addFloat:` and `addString:` add. -/
inductive Argument
  | int (n : Word)
  | float (bits : Word)
  | string (s : CString)
deriving DecidableEq

namespace Argument

/-- The value an argument is stored as. -/
def value : Argument → OSCValue
  | int n => .int n
  | float bits => .float bits
  | string s => .string s

/-- The argument as the server should read it. -/
def arg : Argument → MsgIter.Arg
  | int n => .int n
  | float bits => .float bits
  | string s => .string s.bytes

/-- The argument as the server does read it. -/
def argAsSent : Argument → MsgIter.Arg
  | int n => .int n
  | float bits => .float (asSent bits)
  | string s => .string s.bytes

/-- The argument is not a float that `strncpy` cuts short. -/
def Safe : Argument → Prop
  | float bits => StrncpySafe bits
  | int _ | string _ => True

theorem argAsSent_eq_arg_iff (x : Argument) : x.argAsSent = x.arg ↔ x.Safe := by
  cases x with
  | int n => simp [argAsSent, arg, Safe]
  | float bits => simp [argAsSent, arg, Safe, asSent_eq_self_iff]
  | string s => simp [argAsSent, arg, Safe]

theorem length_tagString (xs : List Argument) :
    (tagString (xs.map value)).length = xs.length := by
  induction xs with
  | nil => rfl
  | cons x xs ih =>
    have hx : x.value.tags.length = 1 := by cases x <;> rfl
    rw [List.map_cons, tagString_cons, List.length_append, hx, ih, List.length_cons]
    omega

end Argument

namespace MsgIter

/-- One typed read takes the next argument. -/
theorem At.getArg {it : MsgIter} {x : Argument} {xs : List Argument}
    (h : it.At ((x :: xs).map Argument.value)) (fpu : FloatUnit) :
    ∃ it', it.getArg fpu = some (x.argAsSent, it') ∧ it'.At (xs.map Argument.value) := by
  rw [List.map_cons] at h
  unfold MsgIter.getArg
  cases x with
  | int n =>
    have htag := h.nextTag_eq (chr 'i') rfl
    refine ⟨_, ?_, h.advance (chr 'i') rfl⟩
    rw [htag]
    simp only [Option.bind_eq_bind, Option.bind_some, if_true, h.geti]
    rfl
  | float bits =>
    have htag := h.nextTag_eq (chr 'f') rfl
    have hne : chr 'f' ≠ chr 'i' := by decide
    refine ⟨_, ?_, h.advance (chr 'f') rfl⟩
    rw [htag]
    simp only [Option.bind_eq_bind, Option.bind_some, if_neg hne, if_true, h.getf]
    rfl
  | string s =>
    have htag := h.nextTag_eq (chr 's') rfl
    have hne : chr 's' ≠ chr 'i' := by decide
    have hne' : chr 's' ≠ chr 'f' := by decide
    refine ⟨_, ?_, h.advance (chr 's') rfl⟩
    rw [htag]
    simp only [Option.bind_eq_bind, Option.bind_some, if_neg hne, if_neg hne', if_true, h.gets]
    rfl

/-- The typed reads take all the arguments, first to last. -/
theorem At.getArgs {it : MsgIter} {xs : List Argument} (h : it.At (xs.map Argument.value))
    (fpu : FloatUnit) :
    ∃ it', it.getArgs fpu xs.length = some (xs.map Argument.argAsSent, it') ∧ it'.At [] := by
  induction xs generalizing it with
  | nil => exact ⟨it, rfl, h⟩
  | cons x xs ih =>
    rcases h.getArg fpu with ⟨it₁, hx, h₁⟩
    rcases ih h₁ with ⟨it₂, hxs, h₂⟩
    refine ⟨it₂, ?_, h₂⟩
    rw [List.length_cons, MsgIter.getArgs, hx]
    simp only [Option.bind_eq_bind, Option.bind_some, hxs]
    rfl

theorem At.tagsLeft_eq {it : MsgIter} {vs : List OSCValue} (h : it.At vs) :
    it.tagsLeft = tagString vs := by
  rcases h.tags with ⟨t, ht, pad, hdrop⟩
  have hnz : ∀ b ∈ tagString vs, decide (b ≠ 0#8) = true := by
    simpa using tagString_ne_zero vs
  simp only [tagsLeft, ht, hdrop]
  rw [List.takeWhile_append_of_pos hnz]
  simp

/-- In front of no argument, the message has been read to its end. -/
theorem At.rdpos_eq {it : MsgIter} (h : it.At []) : it.rdpos = it.size := by
  have hremain := h.remain_eq
  unfold remain at hremain
  simp only [dataBlock_nil, List.length_nil] at hremain
  omega

end MsgIter

/-- The payload of a command: its type tags, padded, and its bytes. -/
def taggedPayload (tags data : List Byte) : List Byte := padded (chr ',' :: tags) ++ data

/-- An iterator is made in front of all arguments. -/
theorem init_taggedPayload {tags : List Byte} (htags : ∀ b ∈ tags, b ≠ 0#8) (data : List Byte) :
    ∃ it, MsgIter.init (taggedPayload tags data).length (taggedPayload tags data) = some it ∧
      it.Before tags data := by
  have hnz : ∀ b ∈ chr ',' :: tags, b ≠ 0#8 := by
    intro b hb
    rcases List.mem_cons.mp hb with rfl | hb
    · decide
    · exact htags b hb
  obtain ⟨k, hk⟩ : ∃ k, 4 - (chr ',' :: tags).length % 4 = k + 1 :=
    ⟨3 - (chr ',' :: tags).length % 4, by omega⟩
  have hpadded : padded (chr ',' :: tags) = chr ',' :: (tags ++ 0#8 :: List.replicate k 0#8) := by
    rw [padded, hk, List.replicate_succ, List.cons_append]
  refine ⟨⟨taggedPayload tags data, (taggedPayload tags data).length,
    (padded (chr ',' :: tags)).length, some 1, 0⟩, ?_, ?_⟩
  · have hhead : (taggedPayload tags data).head? = some (chr ',') := by
      rw [taggedPayload, hpadded]
      rfl
    unfold MsgIter.init
    rw [hhead, taggedPayload, oscStrskip_padded hnz]
    rfl
  · refine ⟨⟨1, rfl, List.replicate k 0#8 ++ data, ?_⟩, List.drop_left, rfl, ?_⟩
    · show (taggedPayload tags data).drop 1 = _
      rw [taggedPayload, hpadded, List.cons_append, List.drop_one, List.tail_cons,
        List.append_assoc, List.cons_append]
    · show (padded (chr ',' :: tags)).length ≤ (taggedPayload tags data).length
      rw [taggedPayload, List.length_append]
      omega

/-- The iterator of a message that the client wrote stands in front of its values. -/
theorem openMessage_payload (a : CString) (vs : List OSCValue)
    (hvs : (tagString vs).length = vs.length) :
    ∃ packet it, (OSCMessage.ofValues a vs).payload = some packet ∧
      openMessage packet = some it ∧ it.At vs := by
  -- the tag block is a padded string when every value has its tag
  have hpad : tagBlock vs ++ dataBlock vs = taggedPayload (tagString vs) (dataBlock vs) := by
    have hround := roundUp4_eq (vs.length + 1)
    simp only [tagBlock, taggedPayload, padded, List.length_cons, hvs]
    congr 3
    omega
  obtain ⟨it, hinit, hbefore⟩ := init_taggedPayload (tagString_ne_zero vs) (dataBlock vs)
  refine ⟨_, it, payload_ofValues a vs, ?_,
    ⟨hbefore.tags, hbefore.data, hbefore.size, hbefore.rdpos⟩⟩
  unfold openMessage oscStrlen
  rw [List.append_assoc, oscStrskip_padded (OSCMessage.slashed a).ne_zero]
  simp only [Option.bind_eq_bind, Option.bind_some, List.drop_left, List.length_append,
    Nat.add_sub_cancel_left]
  rw [← List.length_append, hpad]
  exact hinit

/-- The typed reads of a whole message: the arguments as sent, and the packet to its end. -/
theorem getAll_payload (fpu : FloatUnit) (a : CString) (xs : List Argument) :
    ∃ packet it it', (OSCMessage.ofValues a (xs.map Argument.value)).payload = some packet ∧
      openMessage packet = some it ∧
      it.getAll fpu = some (xs.map Argument.argAsSent, it') ∧ it'.rdpos = it'.size := by
  have htags : (tagString (xs.map Argument.value)).length
      = (xs.map Argument.value).length := by
    rw [Argument.length_tagString, List.length_map]
  rcases openMessage_payload a (xs.map Argument.value) htags with ⟨packet, it, hp, hopen, hat⟩
  rcases hat.getArgs fpu with ⟨it', hget, hat'⟩
  refine ⟨packet, it, it', hp, hopen, ?_, hat'.rdpos_eq⟩
  rw [MsgIter.getAll, hat.tagsLeft_eq, Argument.length_tagString]
  exact hget

/-! ## The round trip -/

/-- The server reads from the payload exactly the arguments of the message, in order, and
consumes the packet exactly. -/
def ReadsBack (fpu : FloatUnit) (a : CString) (xs : List Argument) : Prop :=
  ∃ packet it it', (OSCMessage.ofValues a (xs.map Argument.value)).payload = some packet ∧
    openMessage packet = some it ∧ it.getAll fpu = some (xs.map Argument.arg, it') ∧
    it'.rdpos = it'.size

/-- Reading back exactly means that every argument is read as it should be. -/
theorem readsBack_iff_map (fpu : FloatUnit) (a : CString) (xs : List Argument) :
    ReadsBack fpu a xs ↔ xs.map Argument.argAsSent = xs.map Argument.arg := by
  rcases getAll_payload fpu a xs with ⟨packet, it, it', hp, hopen, hget, hend⟩
  constructor
  · intro hread
    rcases hread with ⟨packet', it₁, it₁', hp', hopen', hget', -⟩
    have hpacket : packet = packet' := Option.some.inj (hp.symm.trans hp')
    subst hpacket
    have hit : it = it₁ := Option.some.inj (hopen.symm.trans hopen')
    subst hit
    exact (Prod.mk.inj (Option.some.inj (hget.symm.trans hget'))).1
  · intro hsent
    exact ⟨packet, it, it', hp, hopen, hsent ▸ hget, hend⟩

/-- A message is read back exactly if and only if none of its floats has a zero byte in
front of a nonzero one. -/
theorem readsBack_iff_safe (fpu : FloatUnit) (a : CString) (xs : List Argument) :
    ReadsBack fpu a xs ↔ ∀ x ∈ xs, x.Safe := by
  rw [readsBack_iff_map, List.map_inj_left]
  simp only [Argument.argAsSent_eq_arg_iff]

/-- The float `128.5` has the big-endian bytes `43 00 80 00`: it arrives as `128.0`. -/
theorem not_readsBack_float :
    ¬ ∀ (fpu : FloatUnit) (a : CString) (xs : List Argument), ReadsBack fpu a xs := by
  intro h
  have hread := h ⟨id, id, fun w => w.setWidth 32⟩ (.ofString "/s_new") [.float 0x43008000#32]
  rw [readsBack_iff_map] at hread
  have hcut : ¬ [Argument.float 0x43008000#32].map Argument.argAsSent
      = [Argument.float 0x43008000#32].map Argument.arg := by decide
  exact hcut hread

end PoopWorms.Server
