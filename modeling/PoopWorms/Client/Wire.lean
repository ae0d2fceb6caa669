import PoopWorms.Client.AKSCSynth
import PoopWorms.Osc.BundleTheorems
import PoopWorms.Server.OscPackets
import Mathlib.Algebra.Order.Floor.Ring
import Mathlib.Data.Rat.Floor

/-!
# The client's packets

What each call of the client asks of the server, the packets that it sends for that, and what the
server reads in them: the time tag as a signed number, and one message, which it carries out.
-/

namespace PoopWorms.Client

open Octets Osc Server BundleLoop

/-- What a message of the client asks for. -/
inductive Order
  | sNew (synthName : CString) (nodeID : Word) (addAction : AKAddAction) (targetNodeID : Word)
      (arguments : List OSCValue)
  | gNew (groupID : Word)
  | gFreeAll (groupNodeID : Word)
  | nFree (groupNodeID : Word)

namespace Order

def address : Order → CString
  | sNew .. => .ofString "/s_new"
  | gNew _ => .ofString "/g_new"
  | gFreeAll _ => .ofString "/g_freeAll"
  | nFree _ => .ofString "/n_free"

def values : Order → List OSCValue
  | sNew synthName nodeID addAction targetNodeID arguments =>
    .string synthName :: .int nodeID :: .int addAction.toInt :: .int targetNodeID :: arguments
  | gNew groupID => [.int groupID, .int 1#32, .int 0#32]
  | gFreeAll groupNodeID => [.int groupNodeID]
  | nFree groupNodeID => [.int groupNodeID]

def message (o : Order) : BuiltMessage :=
  ⟨.ofValues o.address o.values, o.address, o.values, rfl⟩

/-- What becomes of the nodes, in terms of the values. -/
def carryOut (w : World) : Order → World
  | sNew synthName nodeID addAction targetNodeID _ =>
    (Server.sNew w synthName.bytes nodeID addAction.toInt targetNodeID).1
  | gNew groupID => ((gNewTail w groupID 0#32).map Prod.fst).getD w
  | gFreeAll groupNodeID => (Server.gFreeAll w groupNodeID).1
  | nFree groupNodeID => (Server.nFree w groupNodeID).1

/-- Every argument has a type tag. -/
def Tagged : Order → Prop
  | sNew _ _ _ _ arguments => (tagString arguments).length = arguments.length
  | _ => True

/-- The bytes of the message. -/
def payload (o : Order) : List Byte :=
  padded (OSCMessage.slashed o.address).bytes ++ tagBlock o.values ++ dataBlock o.values

/-- The packet of `sendMessageInBundle:`, which the client sends on the date. -/
def packet (o : Order) (date : ℚ) : Option (List Byte) :=
  OSCPacket.initWithContent (.bundle (some (date + 1 / 10)) [.message o.message])

/-- The bytes of the packet. -/
def packetBytes (o : Order) (date : ℚ) : List Byte :=
  bundleHead (some (date + 1 / 10)) ++ element o.payload

end Order

/-- What a call asks for, in the order of its messages. -/
def AKSCSynth.orders (synth : AKSCSynth) : AKSCSynth.Call → List Order
  | .synthWithName synthName arguments addAction targetID =>
    [.sNew synthName (synth.lastNodeID + 1#32) addAction targetID arguments]
  | .group => [.gNew (synth.lastGroupID + 1#32)]
  | .freeAllInGroup groupNodeID => [.gFreeAll groupNodeID, .nFree groupNodeID]
  | .bus => []

/-- A call sends the messages of its orders. -/
theorem oscPort_call (synth : AKSCSynth) (c : AKSCSynth.Call) :
    (synth.call c).oscPort = synth.oscPort ++ (synth.orders c).map fun o => o.message.1 := by
  cases c with
  | synthWithName synthName arguments addAction targetID => rfl
  | group => rfl
  | freeAllInGroup groupNodeID => exact List.append_assoc ..
  | bus => exact (List.append_nil _).symm

/-! ## The bytes -/

namespace Order

variable (o : Order) (date : ℚ)

theorem payload_message : o.message.1.payload = some o.payload :=
  payload_ofValues o.address o.values

theorem length_payload : o.payload.length = o.message.1.bufferLength := by
  rw [message, OSCMessage.bufferLength_ofValues, payload, List.length_append, List.length_append,
    length_padded, length_tagBlock, roundUp4_eq, roundUp4_eq]

/-- The bundle of one message is the message behind its length. -/
theorem packet_eq : o.packet date = some (o.packetBytes date) := by
  have hlength : (OSCElement.message o.message).bufferLength = o.payload.length := by
    rw [OSCElement.bufferLength, length_payload]
  have hsum : elementsLength [.message o.message] = 4 + o.payload.length := by
    rw [elementsLength, elementsLength, hlength]
    rfl
  have hbundle : (OSCElement.bundle (some (date + 1 / 10)) [.message o.message]).bufferLength =
      16 + (4 + o.payload.length) := by
    rw [OSCElement.bufferLength, hsum]
  have hzeros : List.replicate (16 + (4 + o.payload.length)) (0#8 : Byte) =
      zeros 16 ++ (zeros 4 ++ zeros o.payload.length) := by
    rw [← zeros_add, ← zeros_add]
    rfl
  have hpayload : o.message.1.writeToBuffer (zeros o.payload.length) = some o.payload := by
    have hwrite := o.payload_message
    rw [OSCMessage.payload, ← length_payload] at hwrite
    exact hwrite
  set head := bundleHead (some (date + 1 / 10)) with hhead
  have hsixteen : head.length = 16 := length_bundleHead _
  have hpoke : poke (head ++ zeros 4 ++ zeros o.payload.length) 16 (lengthBytes o.payload.length) =
      some (head ++ lengthBytes o.payload.length ++ zeros o.payload.length) :=
    poke_append hsixteen.symm rfl
  have htwenty : (head ++ lengthBytes o.payload.length).length = 16 + 4 := by
    rw [List.length_append, hsixteen, length_lengthBytes]
  unfold packet OSCPacket.initWithContent
  rw [hbundle, if_neg (by omega), hzeros, writeToBuffer_bundle, beginBundle_zeros,
    Option.bind_some, ← hhead, ← List.append_assoc, writeElements, hlength]
  simp only [Option.bind_eq_bind, hpoke, Option.bind_some]
  rw [← htwenty, List.drop_left, List.take_left, OSCElement.writeToBuffer, hpayload,
    Option.bind_some, writeElements, packetBytes, element, ← hhead, List.append_assoc]
  rfl

theorem checkIsBundle_packetBytes : checkIsBundle (o.packetBytes date) = true := by
  unfold checkIsBundle packetBytes bundleHead
  rw [List.append_assoc, List.append_assoc]
  rfl

/-- The server reads the time tag. -/
theorem oscDouble_packetBytes :
    oscDouble ((o.packetBytes date).drop 8) = some (theTimeStamp (some (date + 1 / 10))) := by
  have hdrop : (o.packetBytes date).drop 8 =
      longLongBytes (theTimeStamp (some (date + 1 / 10))) ++ element o.payload := by
    unfold packetBytes bundleHead
    rw [List.append_assoc, List.append_assoc]
    rfl
  rw [hdrop, oscDouble_longLongBytes]

theorem packetBytes_ne_nil : o.packetBytes date ≠ [] := by
  apply List.ne_nil_of_length_pos
  rw [packetBytes, List.length_append, length_bundleHead]
  omega

end Order

/-! ## The nodes -/

/-- The server answers every `/g_new` at the tail of a group. -/
theorem exists_gNewTail (w : World) (newGroupID target : Word) :
    ∃ r, gNewTail w newGroupID target = some r := by
  unfold gNewTail gNewAt
  split
  · exact ⟨_, rfl⟩
  · split
    · exact ⟨_, rfl⟩
    · split
      · exact ⟨_, rfl⟩
      · split
        · exact ⟨_, rfl⟩
        · exact ⟨_, rfl⟩
    · exact ⟨_, rfl⟩

/-- The server does with the bytes of a message what the order asks for. -/
theorem performOSCMessage_payload (fpu : FloatUnit) (w : World) {o : Order} (ho : o.Tagged) :
    (performOSCMessage fpu w o.payload).map Prod.fst = some (o.carryOut w) := by
  have hperform : perform fpu w o.message.1 = performOSCMessage fpu w o.payload := by
    unfold perform
    rw [o.payload_message]
    rfl
  rw [← hperform]
  cases o with
  | sNew synthName nodeID addAction targetNodeID arguments =>
    exact congrArg (Option.map Prod.fst) (perform_s_new fpu w synthName nodeID addAction.toInt
      targetNodeID arguments ho)
  | gNew groupID =>
    obtain ⟨r, hr⟩ := exists_gNewTail w groupID 0#32
    have hnew := perform_g_new fpu w groupID 0#32 r hr
    rw [Order.carryOut, hr]
    exact congrArg (Option.map Prod.fst) hnew
  | gFreeAll groupNodeID =>
    exact congrArg (Option.map Prod.fst) (perform_g_freeAll fpu w groupNodeID)
  | nFree groupNodeID => exact congrArg (Option.map Prod.fst) (perform_n_free fpu w groupNodeID)

/-- The packet of an order carries it out. -/
theorem performOSCBundle_packetBytes (fpu : FloatUnit) (w : World) {o : Order} (ho : o.Tagged)
    (date : ℚ) (hsmall : o.payload.length < 2 ^ 31) :
    performOSCBundle fpu w (o.packetBytes date) = some (o.carryOut w) := by
  have hpacket : o.packetBytes date =
      bundleHead (some (date + 1 / 10)) ++ [o.payload].flatMap element := by
    rw [List.flatMap_singleton]
    rfl
  rw [hpacket]
  apply performOSCBundle_eq (length_bundleHead _)
  · intro m hm
    rw [List.mem_singleton.mp hm]
    exact hsmall
  · rw [performMessages, List.foldlM_cons, performOSCMessage_payload fpu w ho]
    rfl

/-! ## The time tags -/

/-- The time tag of a packet that is sent on the date, as the server compares it. -/
def stampOf (date : ℚ) : ℤ := (theTimeStamp (some (date + 1 / 10))).toInt

/-- A date between 1970 and the end of the era of the time tags, in 2036. -/
def InEra (date : ℚ) : Prop := 0 ≤ date ∧ date + 1 / 10 < 2085978496

/-- Time tags count from 1900 in units of `2 ^ -32` seconds, and have their top bit set. -/
theorem stampOf_eq {date : ℚ} (h : InEra date) :
    stampOf date = ⌊(date + 1 / 10) * 4294967296⌋ + 2208988800 * 4294967296 -
      18446744073709551616 := by
  obtain ⟨hpos, hera⟩ := h
  unfold stampOf theTimeStamp
  rw [Option.getD_some]
  generalize hd : date + 1 / 10 = d at hera ⊢
  have hd0 : 0 ≤ d := by linarith
  have hfloor : 0 ≤ ⌊d⌋ := Int.floor_nonneg.mpr hd0
  have hfloor' : ⌊d⌋ < 2085978496 := Int.floor_lt.mpr (by exact_mod_cast hera)
  have hfract : 0 ≤ (d - ⌊d⌋) * 4294967296 :=
    mul_nonneg (sub_nonneg.mpr (Int.floor_le d)) (by norm_num)
  have hfract' : (d - ⌊d⌋) * 4294967296 < 4294967296 := by
    have hlt := Int.lt_floor_add_one d
    nlinarith
  have hunits : ⌊d * 4294967296⌋ = ⌊d⌋ * 4294967296 + ⌊(d - ⌊d⌋) * 4294967296⌋ := by
    rw [← Int.floor_intCast_add]
    congr 1
    push_cast
    ring
  have hlow : 0 ≤ ⌊(d - ⌊d⌋) * 4294967296⌋ := Int.floor_nonneg.mpr hfract
  have hlow' : ⌊(d - ⌊d⌋) * 4294967296⌋ < 4294967296 := Int.floor_lt.mpr (by exact_mod_cast hfract')
  rw [hunits]
  simp only [trunc, if_pos hd0, if_pos hfract]
  generalize ⌊(d - ⌊d⌋) * 4294967296⌋ = f at hlow hlow' ⊢
  generalize ⌊d⌋ = n at hfloor hfloor' ⊢
  have hnat : (BitVec.ofNat 64 (n + 2208988800).toNat <<< 32 + BitVec.ofNat 64 f.toNat).toNat =
      (n + 2208988800).toNat * 4294967296 + f.toNat := by
    rw [BitVec.toNat_add, BitVec.toNat_shiftLeft, BitVec.toNat_ofNat, BitVec.toNat_ofNat,
      Nat.shiftLeft_eq]
    omega
  rw [BitVec.toInt_eq_toNat_cond, hnat, if_neg (by omega)]
  push_cast
  omega

/-- Ticks of the clock are no shorter than the units of the time tags. -/
theorem stampOf_lt {date date' : ℚ} (h : InEra date) (h' : InEra date')
    (htick : date + 1 / 4294967296 ≤ date') : stampOf date < stampOf date' := by
  rw [stampOf_eq h, stampOf_eq h']
  have hle : ⌊(date + 1 / 10) * 4294967296⌋ + 1 ≤ ⌊(date' + 1 / 10) * 4294967296⌋ := by
    rw [← Int.floor_add_one]
    apply Int.floor_le_floor
    linarith
  omega

theorem stampOf_neg {date : ℚ} (h : InEra date) : stampOf date < 0 := by
  rw [stampOf_eq h]
  have hlt : ⌊(date + 1 / 10) * 4294967296⌋ < 2085978496 * 4294967296 := by
    apply Int.floor_lt.mpr
    push_cast
    linarith [h.2]
  omega

/-- A packet in its era is put into the queue of the scheduler. -/
theorem performOSCPacket_packetBytes (fpu : FloatUnit) (w : World) (o : Order) {date : ℚ}
    (h : InEra date) :
    performOSCPacket fpu w (o.packetBytes date) = some (.packetScheduled (stampOf date)) := by
  have hneg := stampOf_neg h
  have hne : ¬ (stampOf date = 0 ∨ stampOf date = 1) := by omega
  unfold performOSCPacket
  rw [if_pos (o.checkIsBundle_packetBytes date), o.oscDouble_packetBytes date]
  exact if_neg hne

end PoopWorms.Client
