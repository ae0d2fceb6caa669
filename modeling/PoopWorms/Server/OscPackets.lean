import PoopWorms.Server.BundleLoop
import PoopWorms.Server.CommandsTheorems

/-!
# Packets on the node tree

`PerformOSCPacket` on the bytes of a packet: a message is performed at once, a bundle at once or
when its time has come. A bundle of whole messages performs them from the first to the last.
-/

namespace PoopWorms.Server

open Octets Osc Loops Live BundleLoop

variable (fpu : FloatUnit)

/-- `gIsBundle.checkIsBundle`. -/
def checkIsBundle (mData : List Byte) : Bool := mData.take 8 == bundleString ++ [0#8]

/-- One turn of the loop of `PerformOSCBundle`, on the nodes. A message that reads behind its size
has no result. -/
def bundleMessage (mData : List Byte) (s : World × ℤ) : Option (Turn (World × ℤ) World) :=
  if s.2 < mData.length then do
    let msgSize ← intAt mData s.2
    let data := s.2 + 4
    let (w, _) ← performOSCMessage fpu s.1 ((mData.drop data.toNat).take msgSize.toInt.toNat)
    return .again (w, data + msgSize.toInt)
  else some (.stop s.1)

/-- `PerformOSCBundle`. Sizes that lead back to an element before have no result. -/
def performOSCBundle (w : World) (mData : List Byte) : Option World :=
  loop (bundleMessage fpu mData) (mData.length + 1) (w, 16)

/-- What `PerformOSCPacket` does with a packet. -/
inductive PacketStatus
  | packetPerformed (w : World)
  | packetScheduled (time : ℤ)

/-- `PerformOSCPacket`. -/
def performOSCPacket (w : World) (mData : List Byte) : Option PacketStatus :=
  if checkIsBundle mData then do
    let time ← oscDouble (mData.drop 8)
    if time.toInt = 0 ∨ time.toInt = 1 then
      let w ← performOSCBundle fpu w mData
      return .packetPerformed w
    else return .packetScheduled time.toInt
  else do
    let (w, _) ← performOSCMessage fpu w mData
    return .packetPerformed w

variable {fpu} {w w' : World} {mData : List Byte} {done : List Byte} {messages : List (List Byte)}

/-- The messages of a bundle, from the first to the last. -/
def performMessages (fpu : FloatUnit) (w : World) (messages : List (List Byte)) : Option World :=
  messages.foldlM (fun w m => (performOSCMessage fpu w m).map Prod.fst) w

theorem toInt_ofNat_of_lt {n : ℕ} (h : n < 2 ^ 31) : (BitVec.ofNat 32 n).toInt = n := by
  have hnat : (BitVec.ofNat 32 n).toNat = n := by
    rw [BitVec.toNat_ofNat, Nat.mod_eq_of_lt (by omega)]
  rw [BitVec.toInt_eq_toNat_of_lt (by omega), hnat]

theorem loop_bundleMessage (hdata : mData = done ++ messages.flatMap element)
    (hsmall : ∀ m ∈ messages, m.length < 2 ^ 31)
    (hperform : performMessages fpu w messages = some w') {n : ℕ} (hn : messages.length < n) :
    loop (bundleMessage fpu mData) n (w, done.length) = some w' := by
  induction messages generalizing w done n with
  | nil =>
    obtain ⟨n, rfl⟩ : ∃ m, n = m + 1 := ⟨n - 1, by omega⟩
    have hlength : ¬ (done.length : ℤ) < mData.length := by
      rw [hdata]
      simp
    obtain rfl := Option.some.inj hperform
    exact loop_stop (if_neg hlength)
  | cons m messages ih =>
    obtain ⟨n, rfl⟩ : ∃ m, n = m + 1 := ⟨n - 1, by omega⟩
    rw [performMessages, List.foldlM_cons] at hperform
    obtain ⟨w₁, hfirst, hrest⟩ := Option.bind_eq_some_iff.mp hperform
    obtain ⟨⟨w₂, err⟩, hmessage, rfl⟩ := Option.map_eq_some_iff.mp hfirst
    rw [List.flatMap_cons, element, List.append_assoc] at hdata
    have hlt := hsmall m List.mem_cons_self
    have hlength : (done.length : ℤ) < mData.length := by
      rw [hdata, List.length_append, List.length_append, length_lengthBytes]
      omega
    have hint : intAt mData done.length = some (BitVec.ofNat 32 m.length) :=
      intAt_lengthBytes hdata rfl
    have hhead : (done ++ lengthBytes m.length).length = done.length + 4 := List.length_append
    -- the bytes behind the size are those of the message
    have hbytes : (mData.drop ((done.length : ℤ) + 4).toNat).take m.length = m := by
      have hat : ((done.length : ℤ) + 4).toNat = (done ++ lengthBytes m.length).length := by
        rw [hhead]
        omega
      rw [hat, hdata, ← List.append_assoc, List.drop_left, List.take_left]
    have hturn : bundleMessage fpu mData (w, done.length) =
        some (.again (w₂, ((done ++ element m).length : ℕ))) := by
      have hdone : (done.length : ℤ) + 4 + m.length = ((done ++ element m).length : ℕ) := by
        rw [element, ← List.append_assoc, List.length_append, hhead]
        push_cast
        ring
      rw [bundleMessage, if_pos hlength, hint]
      simp only [Option.bind_eq_bind, Option.bind_some, toInt_ofNat_of_lt hlt, Int.toNat_natCast,
        hbytes, hmessage, hdone]
      rfl
    rw [loop_again hturn]
    apply ih _ (fun b hb => hsmall b (List.mem_cons_of_mem _ hb)) hrest
    · rw [List.length_cons] at hn
      omega
    · rw [hdata, element, List.append_assoc, List.append_assoc]

/-- A bundle of whole messages performs them one after the other. -/
theorem performOSCBundle_eq (hdone : done.length = 16)
    (hsmall : ∀ m ∈ messages, m.length < 2 ^ 31)
    (hperform : performMessages fpu w messages = some w') :
    performOSCBundle fpu w (done ++ messages.flatMap element) = some w' := by
  have hcount : messages.length ≤ (messages.flatMap element).length := by
    clear hsmall hperform
    induction messages with
    | nil => exact Nat.zero_le _
    | cons m messages ih =>
      rw [List.flatMap_cons, List.length_append, element, List.length_append, length_lengthBytes,
        List.length_cons]
      omega
  have hstart : (16 : ℤ) = (done.length : ℕ) := by omega
  rw [performOSCBundle, hstart]
  apply loop_bundleMessage rfl hsmall hperform
  rw [List.length_append]
  omega

/-! ## Time tags -/

theorem beBytes_eq (w : Word) : OSCValue.beBytes w =
    [w.extractLsb' 24 8, w.extractLsb' 16 8, w.extractLsb' 8 8, w.extractLsb' 0 8] :=
  leBytes_leWord ..

/-- The bytes of a time tag are the big-endian bytes of its two words. -/
theorem longLongBytes_eq (t : BitVec 64) :
    longLongBytes t = OSCValue.beBytes (t.extractLsb' 32 32) ++
      OSCValue.beBytes (t.extractLsb' 0 32) := by
  have hextract : ∀ start off, off + 8 ≤ 32 →
      (t.extractLsb' start 32).extractLsb' off 8 = t.extractLsb' (start + off) 8 := by
    intro start off hoff
    ext i hi
    rw [BitVec.getElem_extractLsb', BitVec.getElem_extractLsb', BitVec.getLsbD_extractLsb',
      Nat.add_assoc]
    simp only [show off + i < 32 by omega, decide_true, Bool.true_and]
  simp only [beBytes_eq, hextract, Nat.reduceAdd, Nat.reduceLeDiff]
  rfl

theorem oscDouble_longLongBytes (t : BitVec 64) (rest : List Byte) :
    oscDouble (longLongBytes t ++ rest) = some t := by
  have hhi : oscInt (longLongBytes t ++ rest) = some (t.extractLsb' 32 32) := by
    rw [longLongBytes_eq, List.append_assoc, oscInt_append rfl, MsgIter.swap32_wordOf_beBytes]
  have hlo : oscInt ((longLongBytes t ++ rest).drop 4) = some (t.extractLsb' 0 32) := by
    rw [longLongBytes_eq, List.append_assoc]
    change oscInt (OSCValue.beBytes (t.extractLsb' 0 32) ++ rest) = _
    rw [oscInt_append rfl, MsgIter.swap32_wordOf_beBytes]
  rw [oscDouble, hhi, hlo]
  simp only [Option.bind_eq_bind, Option.bind_some, Option.pure_def, Option.some.injEq]
  exact BitVec.extractLsb'_append_extractLsb'_eq_extractLsb' (by omega) |>.trans
    (BitVec.extractLsb'_eq_self)

end PoopWorms.Server
