import PoopWorms.Server.Packets
import Mathlib.Data.Multiset.Bind

/-!
# Every block is freed exactly once

As long as no hand-over is refused and the scheduler is not cleared, a block that has not been
freed is owned by exactly one place of the engine, which will free it. A refused hand-over
loses its block.
-/

namespace PoopWorms.Server

open BinaryHeap MsgFifo

/-- What `mPacketFreeFunc` frees. -/
def ScheduledPacket.blocks : ScheduledPacket → List MemBlock
  | freeInNRT packet => [packet]
  | freeInRT packet data => [packet, data]

def FromEngineMsg.block : FromEngineMsg → Option MemBlock
  | freeOSCPacket mData => mData
  | other => none

def ToEngineMsg.block : ToEngineMsg → Option MemBlock
  | nodeReplyRTFree mData => some mData
  | other => none

namespace PacketDriver

variable {k N : ℕ}

/-! ## The owners -/

def scheduled (queue : PriorityQueue ScheduledPacket N) : Multiset MemBlock :=
  (contents queue.mEvents queue.mSize).bind fun event => event.mPacket.blocks

/-- The blocks that the engine has still to free, each as often as something refers to it. -/
def owned (s : PacketDriver k N) : Multiset MemBlock :=
  oscBlocks s.mOscPacketsToEngine.unfreed + scheduled s.mScheduler +
    s.inHand.elim [] ScheduledPacket.blocks +
    s.mFromEngine.unread.filterMap FromEngineMsg.block +
    (waiting s.performingToEngine s.mToEngine.unread).filterMap ToEngineMsg.block +
    waiting s.performingNodeMsgs s.mNodeMsgs.unread + s.mMsgData

/-- The condition on a step: it hands nothing to a full fifo or a full queue, and does not clear
a queue with events. -/
def HandsOver (s : PacketDriver k N) : PacketStep → Prop
  | .sendPacketWithContext _ => (MsgFifo.free (2 ^ k) s.mOscPacketsToEngine).HasRoom
  | .performOscPackets => ∀ packet, s.mOscPacketsToEngine.next = some (some packet) →
      isScheduled packet.time ≠ none → s.mScheduler.mSize < N
  | .sendCompletionMsg _ time => isScheduled time ≠ none → s.mScheduler.mSize < N
  | .packetFreeFunc => ∀ packet, s.inHand = some (.freeInNRT packet) → s.mFromEngine.HasRoom
  | .clearSched => s.mScheduler.mSize = 0
  | .nodeSendReply => s.mNodeMsgs.HasRoom
  | .performNodeMsgs => (MsgFifo.free (2 ^ k) s.mToEngine).HasRoom
  | _ => True

/-- Every step of the run meets the condition. -/
def Guarded : PacketDriver k N → List PacketStep → Prop
  | _, [] => True
  | s, step :: rest => s.HandsOver step ∧ ∀ s' ∈ s.step step, s'.Guarded rest

/-- Every block that was allocated is freed once, or owned once. -/
def Balanced (s : PacketDriver k N) : Prop :=
  ∀ block, s.freed.count block + s.owned.count block = (List.range s.allocated).count block

structure Sound (s : PacketDriver k N) : Prop where
  osc : s.mOscPacketsToEngine.Tidy
  fromEngine : s.mFromEngine.Tidy
  toEngine : s.mToEngine.Tidy
  nodeMsgs : s.mNodeMsgs.Tidy
  oscBusy : s.performingOscPackets → s.mOscPacketsToEngine.unread ≠ []
  fromBusy : s.performingFromEngine → s.mFromEngine.unread ≠ []
  toBusy : s.performingToEngine → s.mToEngine.unread ≠ []
  nodeBusy : s.performingNodeMsgs → s.mNodeMsgs.unread ≠ []
  /-- the message that has been performed has nothing left to free -/
  fromPerformed : s.performingFromEngine →
    ∀ msg ∈ s.mFromEngine.unread.head?, FromEngineMsg.block msg = none
  balanced : s.Balanced

/-! ## Counting -/

theorem count_owned (s : PacketDriver k N) (block : MemBlock) :
    s.owned.count block = (oscBlocks s.mOscPacketsToEngine.unfreed).count block +
      (scheduled s.mScheduler).count block +
      (s.inHand.elim [] ScheduledPacket.blocks).count block +
      (s.mFromEngine.unread.filterMap FromEngineMsg.block).count block +
      ((waiting s.performingToEngine s.mToEngine.unread).filterMap ToEngineMsg.block).count block +
      (waiting s.performingNodeMsgs s.mNodeMsgs.unread).count block + s.mMsgData.count block := by
  unfold owned
  simp only [Multiset.count_add, Multiset.coe_count]

@[simp] theorem oscBlocks_append (l l' : List (Option OSCPacket)) :
    oscBlocks (l ++ l') = oscBlocks l ++ oscBlocks l' := List.filterMap_append

/-- A block more. -/
theorem count_range_succ (block n : ℕ) :
    (List.range (n + 1)).count block = (List.range n).count block + [n].count block := by
  rw [List.range_succ, List.count_append]

theorem scheduled_add {queue : PriorityQueue ScheduledPacket N} (hroom : queue.mSize < N)
    (time : ℤ) (packet : ScheduledPacket) (block : MemBlock) :
    (scheduled (queue.add ⟨time, packet⟩).1).count block =
      packet.blocks.count block + (scheduled queue).count block := by
  unfold scheduled
  rw [PriorityQueue.add_contents hroom, Multiset.cons_bind, Multiset.count_add,
    Multiset.coe_count]

theorem scheduled_remove {queue queue' : PriorityQueue ScheduledPacket N}
    {event : ScheduledEvent ScheduledPacket} (hremove : queue.remove = some (event, queue'))
    (block : MemBlock) :
    (scheduled queue).count block =
      event.mPacket.blocks.count block + (scheduled queue').count block := by
  unfold scheduled
  rw [(PriorityQueue.remove_contents hremove).2.1, Multiset.cons_bind, Multiset.count_add,
    Multiset.coe_count]

theorem scheduled_empty {queue : PriorityQueue ScheduledPacket N} (hsize : queue.mSize = 0) :
    scheduled queue = 0 := by
  unfold scheduled
  rw [hsize]
  rfl

/-! ## Every step keeps the balance -/

theorem sound_new (events : ℕ → ScheduledEvent ScheduledPacket) :
    (new events : PacketDriver k N).Sound := by
  have hosc := MsgFifo.tidy_new (k := k) fun _ => (none : Option OSCPacket)
  have hfrom := MsgFifo.tidy_new (k := k) fun _ => FromEngineMsg.other
  have hto := MsgFifo.tidy_new (k := k) fun _ => ToEngineMsg.other
  have hnode := MsgFifoNoFree.tidy_new (k := k) fun _ => (0 : MemBlock)
  refine ⟨hosc.1, hfrom.1, hto.1, hnode.1, nofun, nofun, nofun, nofun, nofun, ?_⟩
  intro block
  rw [count_owned]
  unfold new
  simp only [hosc.2.1, hfrom.2.2, hto.2.2, hnode.2]
  rw [scheduled_empty rfl]
  rfl

variable {s s' : PacketDriver k N}

/-- `SendOscPacketMsgToEngine` changes the log of freed blocks and its ring. -/
theorem sendOscPacketMsgToEngine_spec (h : s.mOscPacketsToEngine.Tidy) (packet : OSCPacket) :
    ∃ freed fifo accepted, s.sendOscPacketMsgToEngine packet =
        ({ s with freed := freed, mOscPacketsToEngine := fifo }, accepted) ∧ fifo.Tidy ∧
      (∃ more, fifo.unread = s.mOscPacketsToEngine.unread ++ more) ∧
      (∀ block, freed.count block + (oscBlocks fifo.unfreed).count block =
        s.freed.count block + (oscBlocks s.mOscPacketsToEngine.unfreed).count block +
          if accepted then [packet.block].count block else 0) ∧
      ((MsgFifo.free (2 ^ k) s.mOscPacketsToEngine).HasRoom → accepted) := by
  obtain ⟨htidy, hunread, hunfreed⟩ := h.free
  have hcount : ∀ block, (oscBlocks s.mOscPacketsToEngine.unfreed).count block =
      (oscBlocks (MsgFifo.reclaimed (2 ^ k) s.mOscPacketsToEngine)).count block +
        (oscBlocks (MsgFifo.free (2 ^ k) s.mOscPacketsToEngine).unfreed).count block := by
    intro block
    rw [hunfreed, oscBlocks_append, List.count_append]
  unfold sendOscPacketMsgToEngine
  simp only
  cases hwrite : (MsgFifo.free (2 ^ k) s.mOscPacketsToEngine).write (some packet) with
  | some fifo =>
    obtain ⟨htidy', hunfreed', hunread'⟩ := htidy.write hwrite
    refine ⟨_, fifo, true, rfl, htidy', ⟨[some packet], by rw [hunread', hunread]⟩, ?_,
      fun _ => rfl⟩
    intro block
    rw [hunfreed', oscBlocks_append, List.count_append, hcount, if_pos rfl]
    show (s.freed ++ _).count block + (_ + [packet.block].count block) = _
    rw [List.count_append]
    omega
  | none =>
    refine ⟨_, _, false, rfl, htidy, ⟨[], by rw [hunread, List.append_nil]⟩, ?_, ?_⟩
    · intro block
      show (s.freed ++ _).count block + _ = _ + 0
      rw [List.count_append, hcount]
      omega
    · intro hroom
      obtain ⟨fifo', hsome⟩ := MsgFifo.write_of_hasRoom hroom (some packet)
      rw [hsome] at hwrite
      cases hwrite

/-- `SendMsgFromEngine` changes its ring. -/
theorem sendMsgFromEngine_spec (h : s.mFromEngine.Tidy) (msg : FromEngineMsg) :
    ∃ fifo accepted, s.sendMsgFromEngine msg = ({ s with mFromEngine := fifo }, accepted) ∧
      fifo.Tidy ∧ fifo.unread = s.mFromEngine.unread ++ (if accepted then [msg] else []) ∧
      (s.mFromEngine.HasRoom → accepted) := by
  unfold sendMsgFromEngine
  cases hwrite : s.mFromEngine.write msg with
  | some fifo =>
    obtain ⟨htidy, -, hunread⟩ := h.write hwrite
    exact ⟨fifo, true, rfl, htidy, hunread, fun _ => rfl⟩
  | none =>
    refine ⟨s.mFromEngine, false, rfl, h, (List.append_nil _).symm, ?_⟩
    intro hroom
    obtain ⟨fifo', hsome⟩ := MsgFifo.write_of_hasRoom hroom msg
    rw [hsome] at hwrite
    cases hwrite

/-- `SendMsgToEngine` changes its ring. -/
theorem sendMsgToEngine_spec (h : s.mToEngine.Tidy) (msg : ToEngineMsg) :
    ∃ fifo accepted, s.sendMsgToEngine msg = ({ s with mToEngine := fifo }, accepted) ∧
      fifo.Tidy ∧ fifo.unread = s.mToEngine.unread ++ (if accepted then [msg] else []) ∧
      ((MsgFifo.free (2 ^ k) s.mToEngine).HasRoom → accepted) := by
  obtain ⟨htidy, hunread, -⟩ := h.free
  unfold sendMsgToEngine
  simp only
  cases hwrite : (MsgFifo.free (2 ^ k) s.mToEngine).write msg with
  | some fifo =>
    obtain ⟨htidy', -, hunread'⟩ := htidy.write hwrite
    refine ⟨fifo, true, rfl, htidy', ?_, fun _ => rfl⟩
    rw [hunread', hunread]
    rfl
  | none =>
    refine ⟨_, false, rfl, htidy, ?_, ?_⟩
    · rw [hunread]
      exact (List.append_nil _).symm
    · intro hroom
      obtain ⟨fifo', hsome⟩ := MsgFifo.write_of_hasRoom hroom msg
      rw [hsome] at hwrite
      cases hwrite

namespace Sound

variable (h : s.Sound)

include h

/-- The balance, owner by owner. -/
theorem balance (block : MemBlock) :
    s.freed.count block + ((oscBlocks s.mOscPacketsToEngine.unfreed).count block +
      (scheduled s.mScheduler).count block +
      (s.inHand.elim [] ScheduledPacket.blocks).count block +
      (s.mFromEngine.unread.filterMap FromEngineMsg.block).count block +
      ((waiting s.performingToEngine s.mToEngine.unread).filterMap ToEngineMsg.block).count block +
      (waiting s.performingNodeMsgs s.mNodeMsgs.unread).count block +
      s.mMsgData.count block) = (List.range s.allocated).count block := by
  have hbalanced := h.balanced block
  rw [count_owned] at hbalanced
  exact hbalanced

theorem portReceive (time : Option ℤ) : (s.portReceive time).Sound := by
  obtain ⟨freed, fifo, accepted, hsend, htidy, ⟨more, hunread⟩, hcount, -⟩ :=
    sendOscPacketMsgToEngine_spec (s := s.alloc) h.osc ⟨s.allocated, time⟩
  have hbusy : s.performingOscPackets → fifo.unread ≠ [] := by
    intro hperforming hnil
    rw [hunread] at hnil
    exact h.oscBusy hperforming (List.append_eq_nil_iff.mp hnil).1
  unfold PacketDriver.portReceive
  simp only [hsend]
  cases accepted with
  | true =>
    refine ⟨htidy, h.fromEngine, h.toEngine, h.nodeMsgs, hbusy, h.fromBusy, h.toBusy, h.nodeBusy,
      h.fromPerformed, ?_⟩
    intro block
    have hbalance := h.balance block
    have hnew := hcount block
    rw [count_owned]
    simp only [if_true, alloc] at hnew ⊢
    rw [count_range_succ]
    omega
  | false =>
    refine ⟨htidy, h.fromEngine, h.toEngine, h.nodeMsgs, hbusy, h.fromBusy, h.toBusy, h.nodeBusy,
      h.fromPerformed, ?_⟩
    intro block
    have hbalance := h.balance block
    have hnew := hcount block
    rw [count_owned]
    simp only [Bool.false_eq_true, if_false, alloc, free, List.count_append] at hnew ⊢
    rw [count_range_succ]
    omega

theorem sendPacketWithContext {time : Option ℤ}
    (hroom : s.HandsOver (.sendPacketWithContext time)) : (s.sendPacketWithContext time).Sound := by
  obtain ⟨freed, fifo, accepted, hsend, htidy, ⟨more, hunread⟩, hcount, haccepted⟩ :=
    sendOscPacketMsgToEngine_spec (s := s.alloc) h.osc ⟨s.allocated, time⟩
  have hbusy : s.performingOscPackets → fifo.unread ≠ [] := by
    intro hperforming hnil
    rw [hunread] at hnil
    exact h.oscBusy hperforming (List.append_eq_nil_iff.mp hnil).1
  unfold PacketDriver.sendPacketWithContext
  simp only [hsend]
  refine ⟨htidy, h.fromEngine, h.toEngine, h.nodeMsgs, hbusy, h.fromBusy, h.toBusy, h.nodeBusy,
    h.fromPerformed, ?_⟩
  intro block
  have hbalance := h.balance block
  have hnew := hcount block
  rw [if_pos (haccepted hroom)] at hnew
  rw [count_owned]
  simp only [alloc] at hnew ⊢
  rw [count_range_succ]
  omega

theorem freeFromEngine : Sound { s with mFromEngine := MsgFifo.free (2 ^ k) s.mFromEngine } := by
  obtain ⟨htidy, hunread, -⟩ := h.fromEngine.free
  refine ⟨h.osc, htidy, h.toEngine, h.nodeMsgs, h.oscBusy, ?_, h.toBusy, h.nodeBusy, ?_, ?_⟩
  · show s.performingFromEngine → (MsgFifo.free (2 ^ k) s.mFromEngine).unread ≠ []
    rw [hunread]
    exact h.fromBusy
  · show s.performingFromEngine →
      ∀ msg ∈ (MsgFifo.free (2 ^ k) s.mFromEngine).unread.head?, FromEngineMsg.block msg = none
    rw [hunread]
    exact h.fromPerformed
  · intro block
    rw [count_owned]
    simp only [hunread]
    exact h.balance block

theorem performToEngine (hidle : s.performingToEngine = false) {msg : ToEngineMsg}
    (hnext : s.mToEngine.next = some msg) :
    Sound { s.performToEngineMsg msg with performingToEngine := true } := by
  rw [h.toEngine.next_eq, List.head?_eq_some_iff] at hnext
  obtain ⟨rest, hrest⟩ := hnext
  have hbusy : s.mToEngine.unread ≠ [] := by simp [hrest]
  cases msg with
  | nodeReplyRTFree mData =>
    refine ⟨h.osc, h.fromEngine, h.toEngine, h.nodeMsgs, h.oscBusy, h.fromBusy, fun _ => hbusy,
      h.nodeBusy, h.fromPerformed, ?_⟩
    intro block
    have hbalance := h.balance block
    rw [count_owned]
    simp only [hidle, hrest, waiting, Bool.toNat_false, Bool.toNat_true, List.drop_zero,
      List.drop_one, List.tail_cons, List.filterMap_cons, ToEngineMsg.block, performToEngineMsg,
      free, List.count_append, List.count_cons, List.count_nil] at hbalance ⊢
    omega
  | other =>
    refine ⟨h.osc, h.fromEngine, h.toEngine, h.nodeMsgs, h.oscBusy, h.fromBusy, fun _ => hbusy,
      h.nodeBusy, h.fromPerformed, ?_⟩
    intro block
    have hbalance := h.balance block
    rw [count_owned]
    simp only [hidle, hrest, waiting, Bool.toNat_false, Bool.toNat_true, List.drop_zero,
      List.drop_one, List.tail_cons, List.filterMap_cons, ToEngineMsg.block,
      performToEngineMsg] at hbalance ⊢
    omega

theorem advanceToEngine (hbusy : s.performingToEngine = true) :
    Sound { s with mToEngine := s.mToEngine.advance, performingToEngine := false } := by
  obtain ⟨msg, rest, hrest⟩ := List.exists_cons_of_ne_nil (h.toBusy hbusy)
  obtain ⟨htidy, -, hunread⟩ := h.toEngine.advance hrest
  refine ⟨h.osc, h.fromEngine, htidy, h.nodeMsgs, h.oscBusy, h.fromBusy, nofun, h.nodeBusy,
    h.fromPerformed, ?_⟩
  intro block
  have hbalance := h.balance block
  rw [count_owned]
  simp only [hbusy, hrest, hunread, waiting, Bool.toNat_false, Bool.toNat_true, List.drop_zero,
    List.drop_one, List.tail_cons] at hbalance ⊢
  exact hbalance

theorem performOscPackets {mData : Option OSCPacket} (hnext : s.mOscPacketsToEngine.next = some mData)
    (hroom : s.HandsOver .performOscPackets) :
    Sound { s.performOscPacket mData with performingOscPackets := true } := by
  have hhead := hnext
  rw [h.osc.next_eq, List.head?_eq_some_iff] at hhead
  obtain ⟨rest, hrest⟩ := hhead
  have hbusy : s.mOscPacketsToEngine.unread ≠ [] := by simp [hrest]
  have hkept : Sound { s with performingOscPackets := true } :=
    ⟨h.osc, h.fromEngine, h.toEngine, h.nodeMsgs, fun _ => hbusy, h.fromBusy, h.toBusy, h.nodeBusy,
      h.fromPerformed, h.balanced⟩
  cases mData with
  | none => exact hkept
  | some packet =>
    unfold performOscPacket
    simp only
    cases htime : isScheduled packet.time with
    | none => exact hkept
    | some time =>
      have hsize := hroom packet hnext (by simp [htime])
      obtain ⟨htidy, hunread, before, hbefore, hafter⟩ := h.osc.setNext hrest none
      refine ⟨htidy, h.fromEngine, h.toEngine, h.nodeMsgs, ?_, h.fromBusy, h.toBusy, h.nodeBusy,
        h.fromPerformed, ?_⟩
      · intro _
        show (s.mOscPacketsToEngine.setNext none).unread ≠ []
        simp [hunread]
      · intro block
        have hbalance := h.balance block
        have hadd := scheduled_add hsize time (.freeInNRT packet.block) block
        rw [count_owned]
        simp only [hbefore, hafter, addEvent, hadd, oscBlocks, List.filterMap_append,
          List.filterMap_cons, List.count_append, Option.map_some, Option.map_none,
          ScheduledPacket.blocks, List.count_cons, List.count_nil] at hbalance ⊢
        omega

theorem advanceOscPackets (hbusy : s.performingOscPackets = true) :
    Sound { s with
      mOscPacketsToEngine := s.mOscPacketsToEngine.advance
      performingOscPackets := false } := by
  obtain ⟨msg, rest, hrest⟩ := List.exists_cons_of_ne_nil (h.oscBusy hbusy)
  obtain ⟨htidy, hunfreed, -⟩ := h.osc.advance hrest
  refine ⟨htidy, h.fromEngine, h.toEngine, h.nodeMsgs, nofun, h.fromBusy, h.toBusy, h.nodeBusy,
    h.fromPerformed, ?_⟩
  intro block
  rw [count_owned]
  simp only [hunfreed]
  exact h.balance block

theorem removeEvent (hidle : s.inHand = none)
    {removed : ScheduledEvent ScheduledPacket × PriorityQueue ScheduledPacket N}
    (hremove : s.mScheduler.remove = some removed) :
    Sound { s with mScheduler := removed.2, inHand := some removed.1.mPacket } := by
  refine ⟨h.osc, h.fromEngine, h.toEngine, h.nodeMsgs, h.oscBusy, h.fromBusy, h.toBusy,
    h.nodeBusy, h.fromPerformed, ?_⟩
  intro block
  have hbalance := h.balance block
  have hcount := scheduled_remove hremove block
  rw [count_owned]
  simp only [hidle, Option.elim_none, Option.elim_some, List.count_nil] at hbalance ⊢
  omega

theorem packetFreeFunc {packet : ScheduledPacket} (hpacket : s.inHand = some packet)
    (hroom : s.HandsOver .packetFreeFunc) :
    Sound { s.packetFreeFunc packet with inHand := none } := by
  cases packet with
  | freeInNRT packet =>
    obtain ⟨fifo, accepted, hsend, htidy, hunread, haccepted⟩ :=
      sendMsgFromEngine_spec h.fromEngine (.freeOSCPacket (some packet))
    rw [if_pos (haccepted (hroom packet hpacket))] at hunread
    unfold PacketDriver.packetFreeFunc
    simp only [hsend]
    refine ⟨h.osc, htidy, h.toEngine, h.nodeMsgs, h.oscBusy, ?_, h.toBusy, h.nodeBusy, ?_, ?_⟩
    · intro _
      simp [hunread]
    · intro hperforming msg hmsg
      apply h.fromPerformed hperforming msg
      have hhead : fifo.unread.head? = s.mFromEngine.unread.head? := by
        obtain ⟨m, rest, hrest⟩ := List.exists_cons_of_ne_nil (h.fromBusy hperforming)
        rw [hunread, hrest]
        rfl
      rw [← hhead]
      exact hmsg
    · intro block
      have hbalance := h.balance block
      rw [count_owned]
      simp only [hpacket, hunread, Option.elim_none, Option.elim_some, ScheduledPacket.blocks,
        List.filterMap_append, List.filterMap_cons, List.filterMap_nil, FromEngineMsg.block,
        List.count_append, List.count_nil] at hbalance ⊢
      omega
  | freeInRT packet data =>
    refine ⟨h.osc, h.fromEngine, h.toEngine, h.nodeMsgs, h.oscBusy, h.fromBusy, h.toBusy,
      h.nodeBusy, h.fromPerformed, ?_⟩
    intro block
    have hbalance := h.balance block
    rw [count_owned]
    simp only [hpacket, PacketDriver.packetFreeFunc, free, Option.elim_none, Option.elim_some,
      ScheduledPacket.blocks, List.count_append, List.count_cons, List.count_nil] at hbalance ⊢
    omega

theorem clearSched (hempty : s.HandsOver .clearSched) :
    Sound { s with mScheduler := s.mScheduler.empty } := by
  have hsize : s.mScheduler.mSize = 0 := hempty
  refine ⟨h.osc, h.fromEngine, h.toEngine, h.nodeMsgs, h.oscBusy, h.fromBusy, h.toBusy,
    h.nodeBusy, h.fromPerformed, ?_⟩
  intro block
  have hbalance := h.balance block
  rw [scheduled_empty hsize] at hbalance
  have hempty' : scheduled s.mScheduler.empty = 0 := scheduled_empty rfl
  rw [count_owned, hempty']
  exact hbalance

theorem nodeSendReply (hroom : s.HandsOver .nodeSendReply) : s.nodeSendReply.Sound := by
  obtain ⟨fifo, hwrite⟩ := MsgFifoNoFree.write_of_hasRoom hroom s.allocated
  obtain ⟨htidy, hunread⟩ := h.nodeMsgs.write hwrite
  unfold PacketDriver.nodeSendReply
  rw [hwrite]
  refine ⟨h.osc, h.fromEngine, h.toEngine, htidy, h.oscBusy, h.fromBusy, h.toBusy, ?_,
    h.fromPerformed, ?_⟩
  · intro _
    show fifo.unread ≠ []
    simp [hunread]
  · intro block
    have hbalance := h.balance block
    have hwaiting : waiting s.performingNodeMsgs fifo.unread =
        waiting s.performingNodeMsgs s.mNodeMsgs.unread ++ [s.allocated] := by
      rw [hunread, waiting_append h.nodeBusy]
    rw [count_owned]
    simp only [hwaiting, alloc, List.count_append]
    rw [count_range_succ]
    omega

theorem getCompletionMsg : Sound { s.alloc with mMsgData := s.allocated :: s.mMsgData } := by
  refine ⟨h.osc, h.fromEngine, h.toEngine, h.nodeMsgs, h.oscBusy, h.fromBusy, h.toBusy,
    h.nodeBusy, h.fromPerformed, ?_⟩
  intro block
  have hbalance := h.balance block
  rw [count_owned]
  simp only [alloc, List.count_cons]
  rw [count_range_succ, List.count_singleton]
  omega

omit h in
/-- A completion message that is no longer in `mMsgData`. -/
theorem count_erase {data : MemBlock} (hdata : s.mMsgData.contains data) (block : MemBlock) :
    s.mMsgData.count block = [data].count block + (s.mMsgData.erase data).count block := by
  have hmem : data ∈ s.mMsgData := List.contains_iff_mem.mp hdata
  rw [(List.perm_cons_erase hmem).count_eq block, List.count_cons, List.count_singleton]
  omega

theorem sendCompletionMsg {data : MemBlock} {time : Option ℤ} (hdata : s.mMsgData.contains data)
    (hroom : s.HandsOver (.sendCompletionMsg data time)) :
    (s.sendCompletionMsg data time).Sound := by
  unfold PacketDriver.sendCompletionMsg
  simp only
  cases htime : isScheduled time with
  | none =>
    refine ⟨h.osc, h.fromEngine, h.toEngine, h.nodeMsgs, h.oscBusy, h.fromBusy, h.toBusy,
      h.nodeBusy, h.fromPerformed, ?_⟩
    intro block
    have hbalance := h.balance block
    rw [count_owned]
    simp only [alloc, free, List.count_append]
    rw [count_range_succ]
    omega
  | some t =>
    have hsize := hroom (by simp [htime])
    refine ⟨h.osc, h.fromEngine, h.toEngine, h.nodeMsgs, h.oscBusy, h.fromBusy, h.toBusy,
      h.nodeBusy, h.fromPerformed, ?_⟩
    intro block
    have hbalance := h.balance block
    have hadd := scheduled_add hsize t (.freeInRT s.allocated data) block
    have herase := count_erase hdata block
    rw [count_owned]
    simp only [alloc, addEvent, hadd, ScheduledPacket.blocks, List.count_cons, List.count_nil]
      at herase ⊢
    rw [count_range_succ, List.count_singleton]
    omega

theorem deleteCommand {data : MemBlock} (hdata : s.mMsgData.contains data) :
    Sound { s.free [data] with mMsgData := s.mMsgData.erase data } := by
  refine ⟨h.osc, h.fromEngine, h.toEngine, h.nodeMsgs, h.oscBusy, h.fromBusy, h.toBusy,
    h.nodeBusy, h.fromPerformed, ?_⟩
  intro block
  have hbalance := h.balance block
  have herase := count_erase hdata block
  rw [count_owned]
  simp only [free, List.count_append]
  omega

theorem sendOtherFromEngine : (s.sendMsgFromEngine .other).1.Sound := by
  obtain ⟨fifo, accepted, hsend, htidy, hunread, -⟩ := sendMsgFromEngine_spec h.fromEngine .other
  have hblocks : fifo.unread.filterMap FromEngineMsg.block =
      s.mFromEngine.unread.filterMap FromEngineMsg.block := by
    rw [hunread, List.filterMap_append]
    cases accepted <;> exact List.append_nil _
  rw [hsend]
  refine ⟨h.osc, htidy, h.toEngine, h.nodeMsgs, h.oscBusy, ?_, h.toBusy, h.nodeBusy, ?_, ?_⟩
  · intro hperforming hnil
    have hnil' : fifo.unread = [] := hnil
    rw [hunread] at hnil'
    exact h.fromBusy hperforming (List.append_eq_nil_iff.mp hnil').1
  · intro hperforming msg hmsg
    apply h.fromPerformed hperforming msg
    obtain ⟨m, rest, hrest⟩ := List.exists_cons_of_ne_nil (h.fromBusy hperforming)
    have hmsg' : msg ∈ fifo.unread.head? := hmsg
    rw [hunread, hrest] at hmsg'
    rw [hrest]
    exact hmsg'
  · intro block
    rw [count_owned]
    simp only [hblocks]
    exact h.balance block

theorem performFromEngine {msg : FromEngineMsg} (hnext : s.mFromEngine.next = some msg) :
    Sound { s.performFromEngineMsg msg with performingFromEngine := true } := by
  rw [h.fromEngine.next_eq, List.head?_eq_some_iff] at hnext
  obtain ⟨rest, hrest⟩ := hnext
  have hkept : FromEngineMsg.block msg = none →
      Sound { s with performingFromEngine := true } := by
    intro hblock
    refine ⟨h.osc, h.fromEngine, h.toEngine, h.nodeMsgs, h.oscBusy, ?_, h.toBusy, h.nodeBusy, ?_,
      h.balanced⟩
    · intro _
      show s.mFromEngine.unread ≠ []
      simp [hrest]
    · intro _ msg' hmsg'
      have hhead : msg' ∈ s.mFromEngine.unread.head? := hmsg'
      rw [hrest] at hhead
      obtain rfl : msg = msg' := Option.some.inj hhead
      exact hblock
  cases msg with
  | other => exact hkept rfl
  | freeOSCPacket mData =>
    cases mData with
    | none => exact hkept rfl
    | some packet =>
      obtain ⟨htidy, hunread, -⟩ := h.fromEngine.setNext hrest (.freeOSCPacket none)
      refine ⟨h.osc, htidy, h.toEngine, h.nodeMsgs, h.oscBusy, ?_, h.toBusy, h.nodeBusy, ?_, ?_⟩
      · intro _
        show (s.mFromEngine.setNext (.freeOSCPacket none)).unread ≠ []
        simp [hunread]
      · intro _ msg' hmsg'
        have hhead : msg' ∈ (s.mFromEngine.setNext (.freeOSCPacket none)).unread.head? := hmsg'
        rw [hunread] at hhead
        rw [← Option.some.inj hhead]
        rfl
      · intro block
        have hbalance := h.balance block
        rw [count_owned]
        simp only [performFromEngineMsg, hrest, hunread, free, List.filterMap_cons,
          FromEngineMsg.block, List.count_append, List.count_cons, List.count_nil] at hbalance ⊢
        omega

theorem advanceFromEngine (hbusy : s.performingFromEngine = true) :
    Sound { s with mFromEngine := s.mFromEngine.advance, performingFromEngine := false } := by
  obtain ⟨msg, rest, hrest⟩ := List.exists_cons_of_ne_nil (h.fromBusy hbusy)
  obtain ⟨htidy, -, hunread⟩ := h.fromEngine.advance hrest
  have hblock : FromEngineMsg.block msg = none := by
    apply h.fromPerformed hbusy
    rw [hrest]
    rfl
  refine ⟨h.osc, htidy, h.toEngine, h.nodeMsgs, h.oscBusy, nofun, h.toBusy, h.nodeBusy, nofun, ?_⟩
  intro block
  have hbalance := h.balance block
  rw [count_owned]
  simp only [hrest, hunread, List.filterMap_cons, hblock] at hbalance ⊢
  exact hbalance

theorem performNodeMsgs (hidle : s.performingNodeMsgs = false) {mRTMemory : MemBlock}
    (hnext : s.mNodeMsgs.next = some mRTMemory) (hroom : s.HandsOver .performNodeMsgs) :
    Sound { (s.sendMsgToEngine (.nodeReplyRTFree mRTMemory)).1 with
      performingNodeMsgs := true } := by
  rw [h.nodeMsgs.next_eq, List.head?_eq_some_iff] at hnext
  obtain ⟨rest, hrest⟩ := hnext
  obtain ⟨fifo, accepted, hsend, htidy, hunread, haccepted⟩ :=
    sendMsgToEngine_spec h.toEngine (.nodeReplyRTFree mRTMemory)
  rw [if_pos (haccepted hroom)] at hunread
  have hwaiting := hunread ▸ waiting_append h.toBusy _
  rw [hsend]
  refine ⟨h.osc, h.fromEngine, htidy, h.nodeMsgs, h.oscBusy, h.fromBusy, ?_, ?_,
    h.fromPerformed, ?_⟩
  · intro _
    show fifo.unread ≠ []
    simp [hunread]
  · intro _
    show s.mNodeMsgs.unread ≠ []
    simp [hrest]
  · intro block
    have hbalance := h.balance block
    rw [count_owned]
    simp only [hwaiting, List.filterMap_append, List.filterMap_cons, List.filterMap_nil,
      ToEngineMsg.block, List.count_append]
    simp only [waiting, hidle, hrest, Bool.toNat_false, Bool.toNat_true, List.drop_zero,
      List.drop_one, List.tail_cons, List.count_cons, List.count_nil] at hbalance ⊢
    omega

theorem advanceNodeMsgs (hbusy : s.performingNodeMsgs = true) :
    Sound { s with mNodeMsgs := s.mNodeMsgs.advance, performingNodeMsgs := false } := by
  obtain ⟨msg, rest, hrest⟩ := List.exists_cons_of_ne_nil (h.nodeBusy hbusy)
  obtain ⟨htidy, hunread⟩ := h.nodeMsgs.advance hrest
  refine ⟨h.osc, h.fromEngine, h.toEngine, htidy, h.oscBusy, h.fromBusy, h.toBusy, nofun,
    h.fromPerformed, ?_⟩
  intro block
  have hbalance := h.balance block
  rw [count_owned]
  simp only [hbusy, hrest, hunread, waiting, Bool.toNat_false, Bool.toNat_true, List.drop_zero,
    List.drop_one, List.tail_cons] at hbalance ⊢
  exact hbalance

theorem sendOtherToEngine : (s.sendMsgToEngine .other).1.Sound := by
  obtain ⟨fifo, accepted, hsend, htidy, hunread, -⟩ := sendMsgToEngine_spec h.toEngine .other
  have hwaiting := hunread ▸ waiting_append h.toBusy _
  have hblocks : (waiting s.performingToEngine fifo.unread).filterMap ToEngineMsg.block =
      (waiting s.performingToEngine s.mToEngine.unread).filterMap ToEngineMsg.block := by
    rw [hwaiting, List.filterMap_append]
    cases accepted <;> exact List.append_nil _
  rw [hsend]
  refine ⟨h.osc, h.fromEngine, htidy, h.nodeMsgs, h.oscBusy, h.fromBusy, ?_, h.nodeBusy,
    h.fromPerformed, ?_⟩
  · intro hperforming hnil
    have hnil' : fifo.unread = [] := hnil
    rw [hunread] at hnil'
    exact h.toBusy hperforming (List.append_eq_nil_iff.mp hnil').1
  · intro block
    rw [count_owned]
    simp only [hblocks]
    exact h.balance block

theorem step {step : PacketStep} (hover : s.HandsOver step) (hstep : s.step step = some s') :
    s'.Sound := by
  cases step with
  | portReceive time =>
    cases hstep
    exact h.portReceive time
  | sendPacketWithContext time =>
    cases hstep
    exact h.sendPacketWithContext hover
  | freeFromEngine =>
    cases hstep
    exact h.freeFromEngine
  | performToEngine =>
    unfold PacketDriver.step at hstep
    simp only [Option.ite_none_left_eq_some, Option.map_eq_some_iff, Bool.not_eq_true] at hstep
    obtain ⟨hidle, msg, hnext, rfl⟩ := hstep
    exact h.performToEngine hidle hnext
  | advanceToEngine =>
    unfold PacketDriver.step at hstep
    simp only [Option.ite_none_right_eq_some, Option.some.injEq] at hstep
    obtain ⟨hbusy, rfl⟩ := hstep
    exact h.advanceToEngine hbusy
  | performOscPackets =>
    unfold PacketDriver.step at hstep
    simp only [Option.ite_none_left_eq_some, Option.map_eq_some_iff] at hstep
    obtain ⟨-, mData, hnext, rfl⟩ := hstep
    exact h.performOscPackets hnext hover
  | advanceOscPackets =>
    unfold PacketDriver.step at hstep
    simp only [Option.ite_none_right_eq_some, Option.some.injEq] at hstep
    obtain ⟨hbusy, rfl⟩ := hstep
    exact h.advanceOscPackets hbusy
  | removeEvent nextTime =>
    unfold PacketDriver.step at hstep
    simp only [Option.ite_none_left_eq_some] at hstep
    obtain ⟨hidle, hstep⟩ := hstep
    split_ifs at hstep
    · rw [Option.map_eq_some_iff] at hstep
      obtain ⟨removed, hremove, rfl⟩ := hstep
      exact h.removeEvent (by simpa using hidle) hremove
    · cases hstep
      exact h
  | packetFreeFunc =>
    unfold PacketDriver.step at hstep
    simp only [Option.map_eq_some_iff] at hstep
    obtain ⟨packet, hpacket, rfl⟩ := hstep
    exact h.packetFreeFunc hpacket hover
  | clearSched =>
    cases hstep
    exact h.clearSched hover
  | nodeSendReply =>
    cases hstep
    exact h.nodeSendReply hover
  | getCompletionMsg =>
    cases hstep
    exact h.getCompletionMsg
  | sendCompletionMsg data time =>
    unfold PacketDriver.step at hstep
    simp only [Option.ite_none_right_eq_some, Option.some.injEq] at hstep
    obtain ⟨hdata, rfl⟩ := hstep
    exact h.sendCompletionMsg hdata hover
  | deleteCommand data =>
    unfold PacketDriver.step at hstep
    simp only [Option.ite_none_right_eq_some, Option.some.injEq] at hstep
    obtain ⟨hdata, rfl⟩ := hstep
    exact h.deleteCommand hdata
  | sendOtherFromEngine =>
    cases hstep
    exact h.sendOtherFromEngine
  | performFromEngine =>
    unfold PacketDriver.step at hstep
    simp only [Option.ite_none_left_eq_some, Option.map_eq_some_iff] at hstep
    obtain ⟨-, msg, hnext, rfl⟩ := hstep
    exact h.performFromEngine hnext
  | advanceFromEngine =>
    unfold PacketDriver.step at hstep
    simp only [Option.ite_none_right_eq_some, Option.some.injEq] at hstep
    obtain ⟨hbusy, rfl⟩ := hstep
    exact h.advanceFromEngine hbusy
  | performNodeMsgs =>
    unfold PacketDriver.step at hstep
    simp only [Option.ite_none_left_eq_some, Option.map_eq_some_iff, Bool.not_eq_true] at hstep
    obtain ⟨hidle, mRTMemory, hnext, rfl⟩ := hstep
    exact h.performNodeMsgs hidle hnext hover
  | advanceNodeMsgs =>
    unfold PacketDriver.step at hstep
    simp only [Option.ite_none_right_eq_some, Option.some.injEq] at hstep
    obtain ⟨hbusy, rfl⟩ := hstep
    exact h.advanceNodeMsgs hbusy
  | sendOtherToEngine =>
    cases hstep
    exact h.sendOtherToEngine

omit h in
theorem steps {run : List PacketStep} (h : s.Sound) (hguarded : s.Guarded run)
    (hrun : s.steps run = some s') : s'.Sound := by
  induction run generalizing s with
  | nil =>
    cases hrun
    exact h
  | cons step rest ih =>
    obtain ⟨s₁, hstep, hrest⟩ := Option.bind_eq_some_iff.mp hrun
    exact ih (h.step hguarded.1 hstep) (hguarded.2 s₁ hstep) hrest

end Sound

/-- Every block that was allocated has been freed once, and nothing refers to it any more, or it
has not been freed, and one place still refers to it. -/
def ExactlyOnce (s : PacketDriver k N) : Prop :=
  ∀ block < s.allocated, s.freed.count block + s.owned.count block = 1

/-- The next state of a run, as a term. -/
theorem eq_next {step : PacketStep} (hstep : s' ∈ s.step step) : s' = (s.step step).getD s := by
  rw [Option.mem_def.mp hstep, Option.getD_some]

end PacketDriver

end PoopWorms.Server
