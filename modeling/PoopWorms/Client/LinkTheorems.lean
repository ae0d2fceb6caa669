import PoopWorms.Client.Link

/-!
# Orders are carried out in the order in which they were sent

The items of the timetable are orders with their dates, and their stamps are the time tags. A step
of the link is a step of the timetable. Packets are not overtaken where none comes to the scheduler
when its time is over, and where the network keeps them in line.
-/

namespace PoopWorms.Client

open Octets Osc Server
open scoped List

/-- The time tag of an order that is sent on its date. -/
def stamp (x : Order × ℚ) : ℤ := stampOf x.2

/-- The packet of an order. -/
def bytes (x : Order × ℚ) : List Byte := x.1.packetBytes x.2

/-- The packet of an order in the queue of the scheduler. -/
def scheduledEvent (x : Order × ℚ) : ScheduledEvent (List Byte) := ⟨stamp x, bytes x⟩

namespace Link

variable {fpu : FloatUnit} {k N : ℕ}

/-- The packets of the link and the nodes are those of the timetable: `queued` waits in the fifo and
`network` behind it, and the orders of the history have departed. -/
structure CarriesWith (s : Link k N) (t : Timetable (Order × ℚ)) (world : World)
    (runs : List (World → World)) (queued network : List (Order × ℚ)) (history : List Act) :
    Prop where
  orderly : t.Orderly stamp
  line : t.underWay = queued ++ network
  network : s.network = network.map bytes
  fifo : s.mOscPacketsToEngine.Carries (queued.map bytes)
  scheduler : s.mScheduler.Stores (t.held.map scheduledEvent)
  world : s.world = history.foldl Act.on world
  runs : history.filterMap Act.run? = runs
  orders : history.filterMap Act.order? = t.departed.map Prod.fst
  lost : s.lost = t.lost.card
  sendable : ∀ x ∈ t.sent, Sendable x

def Carries (s : Link k N) (t : Timetable (Order × ℚ)) (world : World)
    (runs : List (World → World)) : Prop :=
  ∃ queued network history, s.CarriesWith t world runs queued network history

/-- What has departed was due at a time that the scheduler was asked for. -/
def DueBy (s : Link k N) (t : Timetable (Order × ℚ)) : Prop :=
  ∀ x ∈ t.departed, ∃ nextTime ∈ s.asked, stamp x ≤ nextTime

/-- What an event leaves: the orders sent so far and those to come are the same, and what keeps the
packets in order is kept. -/
structure Keeps (s s' : Link k N) (t t' : Timetable (Order × ℚ)) (e : LinkEvent) : Prop where
  sent : ∀ rest, t'.sent ++ issued s'.synth rest = t.sent ++ issued s.synth (e :: rest)
  due : s.DueBy t → s'.DueBy t'
  inLine : (∀ i, e = .receive i → i = 0) → t.InLine stamp → t'.InLine stamp

/-- The event is one of the timetable. -/
def Goes (fpu : FloatUnit) (s : Link k N) (t : Timetable (Order × ℚ)) (world : World)
    (runs : List (World → World)) (e : LinkEvent) : Prop :=
  ∃ s' t', s.step fpu e = some s' ∧ s'.Carries t' world (runs ++ e.run?.toList) ∧ s.Keeps s' t t' e

variable {s s' : Link k N} {t : Timetable (Order × ℚ)} {world : World} {runs : List (World → World)}
  {queued network : List (Order × ℚ)} {history : List Act} {x : Order × ℚ}

theorem carries_new (synth : AKSCSynth) (world : World) (items : ℕ → List Byte)
    (events : ℕ → ScheduledEvent (List Byte)) :
    (new synth world items events : Link k N).Carries .empty world [] :=
  ⟨[], [], [], Timetable.orderly_empty, rfl, rfl, MsgFifo.carries_new items,
    PriorityQueue.stores_empty _, rfl, rfl, rfl, rfl, nofun⟩

namespace CarriesWith

/-- Nothing happens. -/
theorem idle (h : s.CarriesWith t world runs queued network history) {e : LinkEvent}
    (hstep : s.step fpu e = some s) (hrun : e.run? = none)
    (hissued : ∀ rest, issued s.synth (e :: rest) = issued s.synth rest) :
    s.Goes fpu t world runs e := by
  refine ⟨s, t, hstep, ⟨queued, network, history, ?_⟩, ⟨fun rest => ?_, id, fun _ hline => hline⟩⟩
  · rw [hrun, Option.toList_none, List.append_nil]
    exact h
  · rw [hissued]

/-! ## The network -/

theorem call (h : s.CarriesWith t world runs queued network history) (c : AKSCSynth.Call)
    (dates : ℕ → ℚ)
    (hsorted : (t.sent ++ dated s.synth c dates).Pairwise fun a b => stamp a < stamp b)
    (hsendable : ∀ x ∈ dated s.synth c dates, Sendable x) :
    s.Goes fpu t world runs (.call c dates) := by
  have hpackets : (dated s.synth c dates).filterMap (fun x => x.1.packet x.2) =
      (dated s.synth c dates).map bytes := by
    simp only [Order.packet_eq]
    exact congrFun (List.filterMap_eq_map' (f := bytes)) _
  refine ⟨_, t.send (dated s.synth c dates), rfl,
    ⟨queued, network ++ dated s.synth c dates, history, h.orderly.send hsorted, ?_, ?_, h.fifo,
      h.scheduler, h.world, ?_, h.orders, h.lost, ?_⟩, fun rest => ?_, id,
    fun _ hline => hline.send h.orderly hsorted⟩
  · rw [Timetable.send, h.line, List.append_assoc]
  · rw [hpackets, h.network, List.map_append]
  · rw [h.runs]
    exact (List.append_nil _).symm
  · intro x hx
    rcases List.mem_append.mp hx with hx | hx
    · exact h.sendable x hx
    · exact hsendable x hx
  · exact List.append_assoc ..

/-- A packet in the middle of the line is taken out of it. -/
theorem perm_line (h : s.CarriesWith t world runs queued network history) {i : ℕ}
    (hi : i < network.length) : network[i] :: (queued ++ network.eraseIdx i) ~ t.underWay := by
  rw [h.line]
  exact List.perm_middle.symm.trans
    (List.Perm.append_left queued (List.getElem_cons_eraseIdx_perm hi))

theorem sublist_line (h : s.CarriesWith t world runs queued network history) (i : ℕ) :
    queued ++ network.eraseIdx i <+ t.underWay := by
  rw [h.line]
  exact List.Sublist.append_left (List.eraseIdx_sublist ..) queued

theorem length_network (h : s.CarriesWith t world runs queued network history) :
    s.network.length = network.length := by
  rw [h.network, List.length_map]

theorem eraseIdx_network (h : s.CarriesWith t world runs queued network history) (i : ℕ) :
    s.network.eraseIdx i = (network.eraseIdx i).map bytes := by
  rw [h.network, List.eraseIdx_map]

theorem lose (h : s.CarriesWith t world runs queued network history) (i : ℕ) :
    s.Goes fpu t world runs (.lose i) := by
  by_cases hi : i < network.length
  · refine ⟨_, t.lose network[i] (queued ++ network.eraseIdx i),
      if_pos (by rw [h.length_network]; exact hi),
      ⟨queued, network.eraseIdx i, history, h.orderly.lose (h.perm_line hi), rfl,
        h.eraseIdx_network i, h.fifo, h.scheduler, h.world, ?_, h.orders, ?_, h.sendable⟩,
      fun rest => rfl, id, fun _ hline => hline.lose (h.sublist_line i)⟩
    · rw [h.runs]
      exact (List.append_nil _).symm
    · rw [h.lost]
      exact (Multiset.card_cons ..).symm
  · exact h.idle (if_neg (by rw [h.length_network]; exact hi)) rfl fun rest => rfl

/-- The receive buffer holds a packet of an order. -/
theorem take_bytes (hx : Sendable x) : (bytes x).take kMaxUDPSize = bytes x :=
  List.take_of_length_le hx.short

theorem receive (h : s.CarriesWith t world runs queued network history) (i : ℕ) :
    s.Goes fpu t world runs (.receive i) := by
  by_cases hi : i < network.length
  · have hget : s.network[i]? = some (bytes network[i]) := by
      rw [h.network, List.getElem?_map, List.getElem?_eq_getElem hi, Option.map_some]
    have hmem : network[i] ∈ t.sent := by
      apply h.orderly.mem_sent (.inr (.inr _))
      rw [h.line]
      exact List.mem_append_right _ (List.getElem_mem hi)
    have hne : ¬ bytes network[i] = [] := network[i].1.packetBytes_ne_nil network[i].2
    have hfree := h.fifo.free (2 ^ k)
    have hstep : s.step fpu (.receive i) =
        some ({ s with network := s.network.eraseIdx i }.received (bytes network[i])) := by
      rw [step, hget]
    rw [received, take_bytes (h.sendable _ hmem), if_neg hne] at hstep
    dsimp only at hstep
    have hruns : history.filterMap Act.run? = runs ++ (LinkEvent.receive i).run?.toList := by
      rw [h.runs]
      exact (List.append_nil _).symm
    cases hwrite : (MsgFifo.free (2 ^ k) s.mOscPacketsToEngine).write (bytes network[i]) with
    | some fifo =>
      rw [hwrite] at hstep
      have hperm : queued ++ [network[i]] ++ network.eraseIdx i ~ t.underWay := by
        rw [List.append_assoc]
        exact List.perm_middle.trans (h.perm_line hi)
      refine ⟨_, t.turn (queued ++ [network[i]] ++ network.eraseIdx i), hstep,
        ⟨queued ++ [network[i]], network.eraseIdx i, history, h.orderly.turn hperm, rfl,
          h.eraseIdx_network i, ?_, h.scheduler, h.world, hruns, h.orders, h.lost, h.sendable⟩,
        fun rest => rfl, id, fun hfirst hline => ?_⟩
      · rw [List.map_append]
        exact hfree.write hwrite
      · -- the first packet on the network is behind the last in the fifo already
        obtain rfl := hfirst i rfl
        have hsame : queued ++ [network[0]] ++ network.eraseIdx 0 = t.underWay := by
          rw [h.line, List.append_assoc, List.eraseIdx_zero]
          congr 1
          rw [← List.drop_one]
          exact List.getElem_cons_drop hi
        rw [Timetable.turn, hsame]
        exact hline
    | none =>
      rw [hwrite] at hstep
      refine ⟨_, t.lose network[i] (queued ++ network.eraseIdx i), hstep,
        ⟨queued, network.eraseIdx i, history, h.orderly.lose (h.perm_line hi), rfl,
          h.eraseIdx_network i, hfree, h.scheduler, h.world, hruns, h.orders, ?_, h.sendable⟩,
        fun rest => rfl, id, fun _ hline => hline.lose (h.sublist_line i)⟩
      rw [h.lost]
      exact (Multiset.card_cons ..).symm
  · have hget : s.network[i]? = none := by
      rw [List.getElem?_eq_none_iff, h.length_network]
      omega
    exact h.idle (by rw [step, hget]) rfl fun rest => rfl

/-! ## The engine -/

theorem worldRun (h : s.CarriesWith t world runs queued network history) (f : World → World) :
    s.Goes fpu t world runs (.worldRun f) := by
  refine ⟨_, t, rfl, ⟨queued, network, history ++ [.run f], h.orderly, h.line, h.network, h.fifo,
    h.scheduler, ?_, ?_, ?_, h.lost, h.sendable⟩, fun rest => rfl, id, fun _ hline => hline⟩
  · rw [List.foldl_append, ← h.world]
    rfl
  · rw [List.filterMap_append, h.runs]
    rfl
  · rw [List.filterMap_append, h.orders]
    exact List.append_nil _

/-- The first packet of the fifo goes to the scheduler. -/
theorem performOSCPacket (h : s.CarriesWith t world runs queued network history)
    (hearly : ∀ x, s.mOscPacketsToEngine.next = some (bytes x) → Sendable x →
      t.underWay.head? = some x → t.NotOvertaken stamp x) :
    s.Goes fpu t world runs .performOSCPacket := by
  have hnext := h.fifo.next_eq
  cases queued with
  | nil => exact h.idle (by rw [step, hnext]; rfl) rfl fun rest => rfl
  | cons x queued =>
    have hline : t.underWay = x :: (queued ++ network) := h.line
    have hmem : x ∈ t.underWay := by
      rw [hline]
      exact List.mem_cons_self
    have hsendable := h.sendable x (h.orderly.mem_sent (.inr (.inr hmem)))
    have hruns : history.filterMap Act.run? = runs ++ LinkEvent.performOSCPacket.run?.toList := by
      rw [h.runs]
      exact (List.append_nil _).symm
    have hpacket := performOSCPacket_packetBytes fpu s.world x.1 hsendable.era
    have hstep : s.step fpu .performOSCPacket = (s.performToEngineMsg fpu (bytes x)).bind fun s =>
        some { s with mOscPacketsToEngine := s.mOscPacketsToEngine.advance } := by
      rw [step, hnext]
      rfl
    have hperform : s.performToEngineMsg fpu (bytes x) =
        some (s.scheduled (s.mScheduler.add (scheduledEvent x))) := by
      unfold performToEngineMsg bytes
      rw [hpacket]
      rfl
    by_cases hroom : s.mScheduler.mSize < N
    · have hearly' := hearly x hnext hsendable (by rw [hline]; rfl)
      have hstores := h.scheduler.add (e := scheduledEvent x) hroom
      rw [PriorityQueue.add_room hroom] at hperform hstores
      rw [hperform] at hstep
      refine ⟨_, t.arrive x (queued ++ network), hstep,
        ⟨queued, network, history, h.orderly.arrive (by rw [hline]) hearly', rfl, h.network,
          h.fifo.advance, ?_, h.world, hruns, h.orders, h.lost, h.sendable⟩, fun rest => rfl, id,
        fun _ hinline => hinline.arrive hline⟩
      rw [Timetable.arrive, Multiset.map_cons]
      exact hstores
    · rw [PriorityQueue.add_full (by omega)] at hperform
      rw [hperform] at hstep
      refine ⟨_, t.lose x (queued ++ network), hstep,
        ⟨queued, network, history, h.orderly.lose (by rw [hline]), rfl, h.network,
          h.fifo.advance, h.scheduler, h.world, hruns, h.orders, ?_, h.sendable⟩, fun rest => rfl,
        id, fun _ hinline => hinline.lose ?_⟩
      · show s.lost + 1 = _
        rw [h.lost]
        exact (Multiset.card_cons ..).symm
      · rw [hline]
        exact List.sublist_cons_self ..

/-- The payload is shorter than the packet. -/
theorem length_payload_lt (hx : Sendable x) : x.1.payload.length < 2 ^ 31 := by
  have hshort := hx.short
  rw [Order.packetBytes, List.length_append, length_bundleHead, BundleLoop.element,
    List.length_append, BundleLoop.length_lengthBytes, kMaxUDPSize] at hshort
  omega

/-- What is taken out of the queue is an order that is held. -/
theorem exists_cons_of_map {m : Multiset (ScheduledEvent (List Byte))}
    {held : Multiset (Order × ℚ)} {event : ScheduledEvent (List Byte)}
    (h : held.map scheduledEvent = event ::ₘ m) :
    ∃ x rest, held = x ::ₘ rest ∧ scheduledEvent x = event ∧ rest.map scheduledEvent = m := by
  have hmem : event ∈ held.map scheduledEvent := by
    rw [h]
    exact Multiset.mem_cons_self ..
  obtain ⟨x, hx, hevent⟩ := Multiset.mem_map.mp hmem
  obtain ⟨rest, rfl⟩ := Multiset.exists_cons_of_mem hx
  rw [Multiset.map_cons, hevent] at h
  exact ⟨x, rest, rfl, hevent, (Multiset.cons_inj_right event).mp h⟩

/-- An event that is due is carried out. -/
theorem schedule (h : s.CarriesWith t world runs queued network history) {nextTime : ℤ}
    (htime : nextTime < kMaxInt64) : s.Goes fpu t world runs (.schedule nextTime) := by
  have hruns : history.filterMap Act.run? = runs ++ (LinkEvent.schedule nextTime).run?.toList := by
    rw [h.runs]
    exact (List.append_nil _).symm
  by_cases hdue : s.mScheduler.nextTime ≤ nextTime
  · have hcard := h.scheduler.card
    have hheld : t.held.map scheduledEvent ≠ 0 := by
      intro hzero
      rw [hzero, Multiset.card_zero] at hcard
      have hsentinel := h.scheduler.sentinel hcard.symm
      omega
    obtain ⟨mScheduler, hremove⟩ := h.scheduler.exists_remove hheld
    obtain ⟨m, hcons, hstores, hleast⟩ := h.scheduler.remove hremove
    obtain ⟨x, rest, hx, hevent, rfl⟩ := exists_cons_of_map hcons
    have hmem : x ∈ t.held := by
      rw [hx]
      exact Multiset.mem_cons_self ..
    have hsendable := h.sendable x (h.orderly.mem_sent (.inr (.inl hmem)))
    have hleast' : ∀ y ∈ rest, stamp x ≤ stamp y := by
      intro y hy
      have hle := hleast (scheduledEvent y) (Multiset.mem_map_of_mem _ (by rw [hx]; simp [hy]))
      rw [← hevent] at hle
      exact hle
    have hat : stamp x ≤ nextTime := by
      have hhead : (s.mScheduler.mEvents 0).mTime = stamp x := by
        rw [← hevent]
        rfl
      rw [← hhead]
      exact hdue
    have hbundle := performOSCBundle_packetBytes fpu s.world hsendable.tagged x.2
      (length_payload_lt hsendable)
    have hpacket : (s.mScheduler.mEvents 0).mPacket = x.1.packetBytes x.2 := by
      rw [← hevent]
      rfl
    refine ⟨{ s with
        asked := nextTime :: s.asked
        mScheduler := mScheduler
        world := x.1.carryOut s.world }, t.depart x rest, ?_,
      ⟨queued, network, history ++ [.carryOut x.1], h.orderly.depart hx hleast', h.line, h.network,
        h.fifo, hstores, ?_, ?_, ?_, h.lost, h.sendable⟩, fun rest => rfl, fun hby y hy => ?_,
      fun _ hinline => hinline.depart hx⟩
    · rw [step]
      simp only [if_pos hdue, hremove, Option.bind_eq_bind, Option.bind_some, hpacket, hbundle]
      rfl
    · rw [List.foldl_append, ← h.world]
      rfl
    · rw [List.filterMap_append, hruns]
      exact List.append_nil _
    · rw [List.filterMap_append, h.orders, Timetable.depart, List.map_append]
      rfl
    · rcases List.mem_append.mp hy with hy | hy
      · obtain ⟨time, htime, hle⟩ := hby y hy
        exact ⟨time, List.mem_cons_of_mem _ htime, hle⟩
      · rw [List.mem_singleton.mp hy]
        exact ⟨nextTime, List.mem_cons_self, hat⟩
  · refine ⟨{ s with asked := nextTime :: s.asked }, t, if_neg hdue,
      ⟨queued, network, history, h.orderly, h.line, h.network, h.fifo, h.scheduler, h.world,
        hruns, h.orders, h.lost, h.sendable⟩, fun rest => rfl, fun hby y hy => ?_,
      fun _ hinline => hinline⟩
    obtain ⟨time, htime, hle⟩ := hby y hy
    exact ⟨time, List.mem_cons_of_mem _ htime, hle⟩

end CarriesWith

/-! ## Packets that are not overtaken -/

/-- A packet that is not late has a later time tag than all that have been performed. -/
theorem notOvertaken_of_punctual (h : s.Carries t world runs) (hby : s.DueBy t)
    (hpunctual : s.Punctual .performOSCPacket)
    (hnext : s.mOscPacketsToEngine.next = some (bytes x)) (hx : t.underWay.head? = some x) :
    t.NotOvertaken stamp x := by
  obtain ⟨queued, network, history, hcarries⟩ := h
  have hlate := hpunctual (bytes x) hnext _ (x.1.oscDouble_packetBytes x.2)
  intro y hy
  obtain ⟨time, htime, hle⟩ := hby y hy
  have hle := hle.trans (hlate time htime)
  exact lt_of_le_of_ne hle (hcarries.orderly.ne_of_underWay hy (List.mem_of_mem_head? hx))

theorem notOvertaken_of_inLine (h : t.InLine stamp) (hx : t.underWay.head? = some x) :
    t.NotOvertaken stamp x := by
  obtain ⟨line, hline⟩ := List.head?_eq_some_iff.mp hx
  exact h.notOvertaken hline

/-- Each packet is in time, or the network keeps all of them in line. -/
def InOrder (fpu : FloatUnit) (s : Link k N) (t : Timetable (Order × ℚ)) (run : List LinkEvent) :
    Prop :=
  s.DueBy t ∧ s.AllPunctual fpu run ∨ t.InLine stamp ∧ ∀ i, .receive i ∈ run → i = 0

/-! ## Runs -/

theorem Carries.goes (h : s.Carries t world runs) (e : LinkEvent)
    (hsorted : (t.sent ++ issued s.synth [e]).Pairwise fun a b => stamp a < stamp b)
    (hsendable : ∀ x ∈ issued s.synth [e], Sendable x)
    (htime : ∀ nextTime, e = .schedule nextTime → nextTime < kMaxInt64)
    (horder : s.InOrder fpu t [e]) : s.Goes fpu t world runs e := by
  obtain ⟨queued, network, history, hcarries⟩ := h
  cases e with
  | call c dates =>
    have hissued : issued s.synth [.call c dates] = dated s.synth c dates := List.append_nil _
    rw [hissued] at hsorted hsendable
    exact hcarries.call c dates hsorted hsendable
  | lose i => exact hcarries.lose i
  | receive i => exact hcarries.receive i
  | performOSCPacket =>
    apply hcarries.performOSCPacket
    intro x hnext _ hx
    rcases horder with ⟨hby, hpunctual⟩ | ⟨hline, -⟩
    · exact notOvertaken_of_punctual ⟨queued, network, history, hcarries⟩ hby hpunctual.1 hnext hx
    · exact notOvertaken_of_inLine hline hx
  | schedule nextTime => exact hcarries.schedule (htime nextTime rfl)
  | worldRun f => exact hcarries.worldRun f

theorem Carries.steps (run : List LinkEvent) (h : s.Carries t world runs)
    (hsorted : (t.sent ++ issued s.synth run).Pairwise fun a b => stamp a < stamp b)
    (hsendable : ∀ x ∈ issued s.synth run, Sendable x)
    (htimes : ∀ nextTime, .schedule nextTime ∈ run → nextTime < kMaxInt64)
    (horder : s.InOrder fpu t run) :
    ∃ s' t', s.steps fpu run = some s' ∧
      s'.Carries t' world (runs ++ run.filterMap LinkEvent.run?) ∧
      t'.sent = t.sent ++ issued s.synth run := by
  induction run generalizing s t runs with
  | nil =>
    refine ⟨s, t, rfl, ?_, (List.append_nil _).symm⟩
    rw [List.filterMap_nil, List.append_nil]
    exact h
  | cons e rest ih =>
    have hsplit : issued s.synth (e :: rest) = issued s.synth [e] ++
        (issued s.synth (e :: rest)).drop (issued s.synth [e]).length := by
      cases e with
      | call c dates => simp [issued]
      | _ => rfl
    have hfirst : s.Goes fpu t world runs e := by
      apply h.goes e
      · rw [hsplit, ← List.append_assoc] at hsorted
        exact (List.pairwise_append.mp hsorted).1
      · intro x hx
        apply hsendable x
        rw [hsplit]
        exact List.mem_append_left _ hx
      · rintro nextTime rfl
        exact htimes nextTime List.mem_cons_self
      · rcases horder with ⟨hby, hpunctual, -⟩ | ⟨hline, hfirst⟩
        · exact .inl ⟨hby, hpunctual, fun _ _ => trivial⟩
        · refine .inr ⟨hline, fun i hi => hfirst i ?_⟩
          rw [List.mem_singleton.mp hi]
          exact List.mem_cons_self
    obtain ⟨s₁, t₁, hstep, hcarries, hkeeps⟩ := hfirst
    have hsent := hkeeps.sent rest
    have hsendable' : ∀ x ∈ issued s₁.synth rest, Sendable x := by
      intro x hx
      have hmem : x ∈ t.sent ++ issued s.synth (e :: rest) := by
        rw [← hsent]
        exact List.mem_append_right _ hx
      rcases List.mem_append.mp hmem with hmem | hmem
      · obtain ⟨_, _, _, hall⟩ := h
        exact hall.sendable x hmem
      · exact hsendable x hmem
    obtain ⟨s', t', hsteps, hcarries', hsent'⟩ := ih hcarries (hsent ▸ hsorted) hsendable'
      (fun nextTime hmem => htimes nextTime (List.mem_cons_of_mem _ hmem)) (by
        rcases horder with ⟨hby, -, hpunctual⟩ | ⟨hline, hfirst⟩
        · exact .inl ⟨hkeeps.due hby, hpunctual s₁ hstep⟩
        · refine .inr ⟨hkeeps.inLine (fun i hi => ?_) hline, fun i hi => ?_⟩
          · exact hfirst i (hi ▸ List.mem_cons_self)
          · exact hfirst i (List.mem_cons_of_mem _ hi))
    refine ⟨s', t', ?_, ?_, hsent'.trans hsent⟩
    · rw [Link.steps, hstep]
      exact hsteps
    · rw [List.append_assoc] at hcarries'
      cases e <;> exact hcarries'

/-- What the timetable says of the link. -/
theorem Carries.delivers (h : s.Carries t world runs) :
    s.Delivers world (t.sent.map Prod.fst) runs := by
  obtain ⟨queued, network, history, hcarries⟩ := h
  have hcard := hcarries.orderly.card
  have hstored := hcarries.scheduler.card
  rw [Multiset.card_map] at hstored
  rw [hcarries.line, List.length_append, ← hcarries.lost, hstored] at hcard
  refine ⟨history, queued.map bytes, hcarries.world, hcarries.runs, ?_, hcarries.fifo, ?_⟩
  · rw [hcarries.orders]
    exact hcarries.orderly.departed_sublist.map Prod.fst
  · rw [hcarries.orders, List.length_map, List.length_map, List.length_map, hcarries.length_network]
    omega

/-- Dates that the clock can show have time tags that go up. -/
theorem sorted_of_ticking {xs : List (Order × ℚ)} (h : ∀ x ∈ xs, Sendable x)
    (hticking : Ticking xs) : xs.Pairwise fun a b => stamp a < stamp b :=
  List.Pairwise.imp_of_mem (fun ha hb htick => stampOf_lt (h _ ha).era (h _ hb).era htick) hticking

theorem delivers_of_inOrder (synth : AKSCSynth) (world : World) (items : ℕ → List Byte)
    (events : ℕ → ScheduledEvent (List Byte)) (run : List LinkEvent)
    (hsendable : ∀ x ∈ issued synth run, Sendable x) (hticking : Ticking (issued synth run))
    (htimes : ∀ nextTime, .schedule nextTime ∈ run → nextTime < kMaxInt64)
    (horder : (new synth world items events : Link k N).InOrder fpu .empty run) :
    ∃ s, (new synth world items events : Link k N).steps fpu run = some s ∧
      s.Delivers world ((issued synth run).map Prod.fst) (run.filterMap LinkEvent.run?) := by
  obtain ⟨s, t, hsteps, hcarries, hsent⟩ := (carries_new synth world items events).steps run
    (sorted_of_ticking hsendable hticking) hsendable htimes horder
  have hdelivers := hcarries.delivers
  rw [hsent] at hdelivers
  exact ⟨s, hsteps, hdelivers⟩

/-- Where no packet comes to the scheduler when its time is over, the orders are carried out in the
order in which they were sent, however the network has shuffled them. -/
theorem delivers_of_punctual (fpu : FloatUnit) (synth : AKSCSynth) (world : World)
    (items : ℕ → List Byte) (events : ℕ → ScheduledEvent (List Byte)) (run : List LinkEvent)
    (hsendable : ∀ x ∈ issued synth run, Sendable x) (hticking : Ticking (issued synth run))
    (htimes : ∀ nextTime, .schedule nextTime ∈ run → nextTime < kMaxInt64)
    (hpunctual : (new synth world items events : Link k N).AllPunctual fpu run) :
    ∃ s, (new synth world items events : Link k N).steps fpu run = some s ∧
      s.Delivers world ((issued synth run).map Prod.fst) (run.filterMap LinkEvent.run?) :=
  delivers_of_inOrder synth world items events run hsendable hticking htimes
    (.inl ⟨nofun, hpunctual⟩)

/-- Only the loop over the scheduled events asks the scheduler. -/
theorem asked_step {e : LinkEvent} (h : s.step fpu e = some s')
    (he : ∀ nextTime, e ≠ .schedule nextTime) : s'.asked = s.asked := by
  cases e with
  | call c dates => rw [← Option.some.inj h]
  | lose i =>
    rw [step] at h
    split_ifs at h
    · rw [← Option.some.inj h]
    · rw [← Option.some.inj h]
  | receive i =>
    rw [step] at h
    split at h
    · obtain rfl := Option.some.inj h
      unfold received
      dsimp only
      split
      · rfl
      · split
        · rfl
        · rfl
    · rw [← Option.some.inj h]
  | performOSCPacket =>
    rw [step] at h
    split at h
    · obtain ⟨s₁, hperform, hs'⟩ := Option.bind_eq_some_iff.mp h
      obtain rfl := Option.some.inj hs'
      obtain ⟨status, -, hstatus⟩ := Option.bind_eq_some_iff.mp hperform
      cases status with
      | packetPerformed w => rw [← Option.some.inj hstatus]
      | packetScheduled time =>
        rw [← Option.some.inj hstatus]
        unfold scheduled
        split
        · rfl
        · rfl
    · rw [← Option.some.inj h]
  | schedule nextTime => exact absurd rfl (he nextTime)
  | worldRun f => rw [← Option.some.inj h]

/-- Packets are in time that come before the scheduler has been asked for events. -/
theorem allPunctual_append {before after : List LinkEvent} (hs : s.asked = [])
    (hbefore : ∀ nextTime, .schedule nextTime ∉ before) (hafter : .performOSCPacket ∉ after) :
    s.AllPunctual fpu (before ++ after) := by
  induction before generalizing s with
  | nil =>
    clear hs
    rw [List.nil_append]
    induction after generalizing s with
    | nil => trivial
    | cons e after ih =>
      rw [List.mem_cons, not_or] at hafter
      refine ⟨?_, fun s' _ => ih hafter.2⟩
      cases e with
      | performOSCPacket => exact absurd rfl hafter.1
      | _ => trivial
  | cons e before ih =>
    refine ⟨?_, fun s' hs' => ih ?_ fun nextTime hmem =>
      hbefore nextTime (List.mem_cons_of_mem _ hmem)⟩
    · cases e with
      | performOSCPacket =>
        intro packet _ time _ nextTime hasked
        rw [hs] at hasked
        exact absurd hasked List.not_mem_nil
      | _ => trivial
    · rw [asked_step hs' fun nextTime he => hbefore nextTime (he ▸ List.mem_cons_self), hs]

/-- Three packets that arrive in another order. -/
def shuffled : List LinkEvent :=
  [.call .group fun _ => 1, .call (.freeAllInGroup 501#32) fun i => 2 + i, .receive 2, .receive 0,
    .performOSCPacket, .receive 0, .performOSCPacket, .performOSCPacket]

theorem delivers_of_punctual_shuffled :
    ∃ s, (new .init (.new kDefaultWorldOptions []) (fun _ => []) (fun _ => ⟨0, []⟩) :
        Link 2 4).steps zeroOne (shuffled ++ [.schedule 0, .schedule 0, .schedule 0]) = some s ∧
      s.Delivers (.new kDefaultWorldOptions []) [.gNew 501#32, .gFreeAll 501#32, .nFree 501#32]
        [] := by
  have hissued : issued .init (shuffled ++ [.schedule 0, .schedule 0, .schedule 0]) =
      [(Order.gNew 501#32, (1 : ℚ)), (Order.gFreeAll 501#32, 2 + (0 : ℕ)),
        (Order.nFree 501#32, 2 + (1 : ℕ))] := rfl
  have hsent := delivers_of_punctual zeroOne .init (.new kDefaultWorldOptions []) (fun _ => [])
    (fun _ => ⟨0, []⟩) (shuffled ++ [.schedule 0, .schedule 0, .schedule 0]) (k := 2) (N := 4) (by
      rw [hissued]
      intro x hx
      simp only [List.mem_cons, List.not_mem_nil, or_false] at hx
      rcases hx with rfl | rfl | rfl
      · exact ⟨trivial, by norm_num [InEra], by decide⟩
      · exact ⟨trivial, by norm_num [InEra], by decide⟩
      · exact ⟨trivial, by norm_num [InEra], by decide⟩) (by
      rw [hissued, Ticking]
      norm_num) (by simp [shuffled, kMaxInt64])
    (allPunctual_append rfl (by simp [shuffled]) (by simp))
  rw [hissued] at hsent
  exact hsent

/-- Where the network keeps the packets in line, the orders are carried out in the order in which
they were sent, however late the packets are. -/
theorem delivers_of_inLine (fpu : FloatUnit) (synth : AKSCSynth) (world : World)
    (items : ℕ → List Byte) (events : ℕ → ScheduledEvent (List Byte)) (run : List LinkEvent)
    (hsendable : ∀ x ∈ issued synth run, Sendable x) (hticking : Ticking (issued synth run))
    (htimes : ∀ nextTime, .schedule nextTime ∈ run → nextTime < kMaxInt64)
    (hline : ∀ i, .receive i ∈ run → i = 0) :
    ∃ s, (new synth world items events : Link k N).steps fpu run = some s ∧
      s.Delivers world ((issued synth run).map Prod.fst) (run.filterMap LinkEvent.run?) :=
  delivers_of_inOrder synth world items events run hsendable hticking htimes
    (.inr ⟨Timetable.inLine_empty, hline⟩)

/-- A packet that comes when its time is over. -/
def late : List LinkEvent :=
  [.call .group fun _ => 1, .schedule 0, .receive 0, .performOSCPacket, .schedule 1]

theorem delivers_of_inLine_late :
    ∃ s, (new .init (.new kDefaultWorldOptions []) (fun _ => []) (fun _ => ⟨0, []⟩) :
        Link 2 4).steps zeroOne late = some s ∧
      s.Delivers (.new kDefaultWorldOptions []) [.gNew 501#32] [] := by
  have hissued : issued .init late = [(Order.gNew 501#32, (1 : ℚ))] := rfl
  have hsent := delivers_of_inLine zeroOne .init (.new kDefaultWorldOptions []) (fun _ => [])
    (fun _ => ⟨0, []⟩) late (k := 2) (N := 4) (by
      rw [hissued]
      intro x hx
      rw [List.mem_singleton.mp hx]
      exact ⟨trivial, by norm_num [InEra], by decide⟩) (by
      rw [hissued]
      exact List.pairwise_singleton ..) (by simp [late, kMaxInt64]) (by simp [late])
  rw [hissued] at hsent
  exact hsent

end Link

end PoopWorms.Client
