import PoopWorms.Lib.Relay
import PoopWorms.Server.SequencedCommandTheorems

/-!
# Sequenced commands keep their order

The two fifos are the lines of a relay, in which no command overtakes one that started before
it. What `/sync` promises follows: when its last stage comes, every command that started before
it has done all its stages.
-/

namespace PoopWorms.Server

open scoped List

namespace MsgFifo

variable {MsgType : Type} {k : ℕ} {fifo : MsgFifo MsgType (2 ^ k)} {q q' : List MsgType}

/-- What was written and not yet read is no other list. -/
theorem Carries.unique (h : fifo.Carries q) (h' : fifo.Carries q') : q = q' := by
  obtain ⟨read, h⟩ := h
  obtain ⟨read', h'⟩ := h'
  have hroom := h.room
  have hroom' := h'.room
  have hread : read = read' :=
    eq_of_mod_eq (by omega) (by omega) (h.readHead.symm.trans h'.readHead)
  subst hread
  have hwrite := h.writeHead.symm.trans h'.writeHead
  rw [Nat.add_assoc, Nat.add_assoc] at hwrite
  have hlength := eq_of_mod_eq hroom hroom' hwrite
  apply List.ext_getElem (by omega)
  intro i hi hi'
  rw [← h.item i hi, ← h'.item i hi']

end MsgFifo

/-! ## The fifos as lines -/

/-- The command that a message passes on. -/
def FifoMsg.command : FifoMsg → Option CommandID
  | .doSequencedCommand cmd => some cmd
  | .freeSequencedCommand _ => none
  | .other => none

/-- The commands that wait in a queue. -/
def commands (q : List FifoMsg) : List CommandID := q.filterMap FifoMsg.command

/-- The commands that wait for a thread. -/
def commandsOf (qf qt : List FifoMsg) : Thread → List CommandID
  | .realTime => commands qt
  | .nonRealTime => commands qf

/-- The stage that an event is. -/
def Event.stage (e : Event) : Option (CommandID × ℕ) :=
  match e.effect with
  | .stage n => some (e.cmd, n)
  | .delete => none

/-- The thread that performs stage `n`. -/
def stageThread (n : ℕ) : Thread := (Effect.stage n).thread

namespace Driver

variable {k : ℕ} {stage : CommandID → ℕ → Bool} {s s' : Driver k} {qf qt q q' : List FifoMsg}
  {thread : Thread} {cmd a b : CommandID} {fifo : MsgFifo FifoMsg (2 ^ k)} {n : ℕ}

/-- The stages that have been performed, in order. -/
def stages (s : Driver k) : List (CommandID × ℕ) := s.log.filterMap Event.stage

/-- The driver as a relay of commands. -/
def relay (s : Driver k) (qf qt : List FifoMsg) : Relay CommandID Thread where
  next := s.mNextStage
  line := commandsOf qf qt
  done := s.stages

theorem Waiting.unique {performing : Bool} (h : Waiting performing fifo q)
    (h' : Waiting performing fifo q') : q = q' := by
  obtain ⟨now, hcarries, hlen⟩ := h
  obtain ⟨now', hcarries', hlen'⟩ := h'
  exact (List.append_inj (hcarries.unique hcarries') (hlen.trans hlen'.symm)).2

theorem stages_stage (cmd : CommandID) (n : ℕ) :
    (s.record thread cmd (.stage n)).stages = s.stages ++ [(cmd, n)] :=
  List.filterMap_append ..

theorem stages_delete (cmd : CommandID) : (s.record thread cmd .delete).stages = s.stages := by
  show List.filterMap _ (s.log ++ _) = _
  rw [List.filterMap_append]
  exact List.append_nil _

theorem commands_append (q q' : List FifoMsg) : commands (q ++ q') = commands q ++ commands q' :=
  List.filterMap_append ..

/-- A stage is performed: the command goes to the other thread, or leaves. -/
theorem callNextStage_relay (hf : Waiting s.performingFromEngine s.mFromEngine qf)
    (ht : Waiting s.performingToEngine s.mToEngine qt) (hstage : s.mNextStage cmd = n)
    (hn : 1 ≤ n) (hn' : n ≤ 4) (hcall : s.callNextStage stage thread cmd = some s') :
    ∃ qf' qt', Waiting s'.performingFromEngine s'.mFromEngine qf' ∧
      Waiting s'.performingToEngine s'.mToEngine qt' ∧
      s'.relay qf' qt' = (s.relay qf qt).pass stageThread cmd n (n < 4 ∧ stage cmd n) := by
  rw [callNextStage_eq hstage hn hn'] at hcall
  simp only at hcall
  set s₁ : Driver k := { s.record thread cmd (.stage n) with
      mNextStage := Function.update s.mNextStage cmd (n + 1) } with hs₁
  have hstages : s₁.stages = s.stages ++ [(cmd, n)] := stages_stage cmd n
  have hf₁ : Waiting s₁.performingFromEngine s₁.mFromEngine qf := hf
  have ht₁ : Waiting s₁.performingToEngine s₁.mToEngine qt := ht
  by_cases hagain : n < 4 ∧ stage cmd n
  · rw [if_pos hagain] at hcall
    by_cases hodd : n % 2 = 1
    · rw [if_pos hodd] at hcall
      obtain ⟨fifo, hwrite, rfl⟩ := Option.map_eq_some_iff.mp hcall
      refine ⟨qf ++ [.doSequencedCommand cmd], qt, hf₁.write hwrite, ht, ?_⟩
      have hthread : stageThread (n + 1) = .nonRealTime := if_neg (by omega)
      apply Relay.ext
      · rfl
      · funext thread
        simp only [Relay.pass, hagain, and_self, decide_true, if_true, hthread]
        cases thread with
        | realTime => rfl
        | nonRealTime =>
          rw [Function.update_self]
          exact commands_append ..
      · exact hstages
    · rw [if_neg hodd] at hcall
      obtain ⟨fifo, hwrite, rfl⟩ := Option.map_eq_some_iff.mp hcall
      refine ⟨qf, qt ++ [.doSequencedCommand cmd], hf, (ht₁.free _).write hwrite, ?_⟩
      have hthread : stageThread (n + 1) = .realTime := if_pos (by omega)
      apply Relay.ext
      · rfl
      · funext thread
        simp only [Relay.pass, hagain, and_self, decide_true, if_true, hthread]
        cases thread with
        | nonRealTime => rfl
        | realTime =>
          rw [Function.update_self]
          exact commands_append ..
      · exact hstages
  · rw [if_neg hagain] at hcall
    by_cases hodd : n % 2 = 1
    · rw [if_pos hodd] at hcall
      cases hcall
      refine ⟨qf, qt, hf, ht, ?_⟩
      apply Relay.ext
      · rfl
      · simp only [Relay.pass, hagain, decide_false, Bool.false_eq_true, if_false]
        rfl
      · exact (stages_delete cmd).trans hstages
    · rw [if_neg hodd] at hcall
      obtain ⟨fifo, hwrite, rfl⟩ := Option.map_eq_some_iff.mp hcall
      refine ⟨qf, qt ++ [.freeSequencedCommand cmd], hf, (ht₁.free _).write hwrite, ?_⟩
      apply Relay.ext
      · rfl
      · funext thread
        simp only [Relay.pass, hagain, decide_false, Bool.false_eq_true, if_false]
        cases thread with
        | nonRealTime => rfl
        | realTime =>
          show commands _ = commands _
          rw [commands_append]
          exact List.append_nil _
      · exact hstages

/-! ## Steps -/

/-- How the relay moves in a step that leaves the queues `qf'` and `qt'`. -/
def Moves (s : Driver k) (qf qt : List FifoMsg) (s' : Driver k) : Prop :=
  ∃ qf' qt', Waiting s'.performingFromEngine s'.mFromEngine qf' ∧
    Waiting s'.performingToEngine s'.mToEngine qt' ∧
    (s'.relay qf' qt' = s.relay qf qt ∨ (s.relay qf qt).Step stageThread (s'.relay qf' qt'))

/-- The next stage of a command that waits. -/
theorem Inv.stage_of_waiting (h : Inv stage s qf qt) :
    (FifoMsg.doSequencedCommand cmd ∈ qf → s.mNextStage cmd = 2 ∨ s.mNextStage cmd = 4) ∧
      (FifoMsg.doSequencedCommand cmd ∈ qt → s.mNextStage cmd = 3) := by
  have hmail : ∀ q : List FifoMsg, FifoMsg.doSequencedCommand cmd ∈ q →
      FifoMsg.doSequencedCommand cmd ∈ mail cmd q := fun q hq =>
    List.mem_filter.mpr ⟨hq, by simp [FifoMsg.about]⟩
  have hprogress := h.progress cmd
  generalize s.mNextStage cmd = n at hprogress
  generalize s.effects cmd = done at hprogress
  generalize hmailf : mail cmd qf = mailf at hprogress
  generalize hmailt : mail cmd qt = mailt at hprogress
  constructor
  · intro hq
    have hmem := hmail qf hq
    rw [hmailf] at hmem
    cases hprogress with
    | toNonRealTime hn _ => exact hn
    | _ => cases hmem
  · intro hq
    have hmem := hmail qt hq
    rw [hmailt] at hmem
    cases hprogress with
    | toRealTime hn _ => exact hn
    | toDelete _ _ => simp at hmem
    | _ => cases hmem

theorem moves_performToEngine (h : Inv stage s qf qt) {msg : FifoMsg}
    (hidle : s.performingToEngine = false) (hnext : s.mToEngine.next = some msg)
    (hperform : { s with performingToEngine := true }.perform stage .realTime msg = some s') :
    Moves s qf qt s' := by
  have hto := h.toEngine
  rw [hidle] at hto
  obtain ⟨qt, rfl, hwaiting⟩ := hto.next hnext
  cases msg with
  | other =>
    cases hperform
    exact ⟨qf, qt, h.fromEngine, hwaiting, .inl rfl⟩
  | freeSequencedCommand cmd =>
    cases hperform
    refine ⟨qf, qt, h.fromEngine, hwaiting, .inl ?_⟩
    apply Relay.ext
    · rfl
    · funext thread
      cases thread with
      | realTime => rfl
      | nonRealTime => rfl
    · exact stages_delete cmd
  | doSequencedCommand cmd =>
    have hstage : s.mNextStage cmd = 3 := h.stage_of_waiting.2 List.mem_cons_self
    obtain ⟨qf', qt', hf', ht', hrelay⟩ := callNextStage_relay
      (s := { s with performingToEngine := true }) h.fromEngine hwaiting hstage (by omega)
      (by omega) hperform
    refine ⟨qf', qt', hf', ht', .inr ?_⟩
    rw [hrelay]
    have hleave : ({ s with performingToEngine := true } : Driver k).relay qf qt =
        (s.relay qf (.doSequencedCommand cmd :: qt)).leave (stageThread 3) (commands qt) := by
      apply Relay.ext
      · rfl
      · funext thread
        cases thread with
        | realTime => rfl
        | nonRealTime => rfl
      · rfl
    rw [hleave]
    exact .serve rfl (by omega) hstage

theorem moves_performFromEngine (h : Inv stage s qf qt) {msg : FifoMsg}
    (hidle : s.performingFromEngine = false) (hnext : s.mFromEngine.next = some msg)
    (hperform : { s with performingFromEngine := true }.perform stage .nonRealTime msg = some s') :
    Moves s qf qt s' := by
  have hfrom := h.fromEngine
  rw [hidle] at hfrom
  obtain ⟨qf, rfl, hwaiting⟩ := hfrom.next hnext
  cases msg with
  | other =>
    cases hperform
    exact ⟨qf, qt, hwaiting, h.toEngine, .inl rfl⟩
  | freeSequencedCommand cmd =>
    cases hperform
    refine ⟨qf, qt, hwaiting, h.toEngine, .inl ?_⟩
    apply Relay.ext
    · rfl
    · funext thread
      cases thread with
      | realTime => rfl
      | nonRealTime => rfl
    · exact stages_delete cmd
  | doSequencedCommand cmd =>
    have hstage : s.mNextStage cmd = 2 ∨ s.mNextStage cmd = 4 :=
      h.stage_of_waiting.1 List.mem_cons_self
    obtain ⟨n, hn⟩ : ∃ n, s.mNextStage cmd = n := ⟨_, rfl⟩
    rw [hn] at hstage
    have hthread : stageThread n = .nonRealTime := if_neg (by omega)
    obtain ⟨qf', qt', hf', ht', hrelay⟩ := callNextStage_relay
      (s := { s with performingFromEngine := true }) hwaiting h.toEngine hn (by omega) (by omega)
      hperform
    refine ⟨qf', qt', hf', ht', .inr ?_⟩
    rw [hrelay]
    have hleave : ({ s with performingFromEngine := true } : Driver k).relay qf qt =
        (s.relay (.doSequencedCommand cmd :: qf) qt).leave (stageThread n) (commands qf) := by
      rw [hthread]
      apply Relay.ext
      · rfl
      · funext thread
        cases thread with
        | realTime => rfl
        | nonRealTime => rfl
      · rfl
    rw [hleave]
    exact .serve (by rw [hthread]; rfl) (by omega) hn

/-- Every step of the driver is a step of the relay, or leaves it as it is. -/
theorem moves_act (h : Inv stage s qf qt) {act : DriverAct} (hact : s.act stage act = some s') :
    Moves s qf qt s' := by
  cases act with
  | start cmd =>
    rw [Driver.act] at hact
    split at hact
    · rename_i hstage
      obtain ⟨qf', qt', hf', ht', hrelay⟩ :=
        callNextStage_relay h.fromEngine h.toEngine hstage (by omega) (by omega) hact
      refine ⟨qf', qt', hf', ht', .inr ?_⟩
      rw [hrelay]
      exact .start hstage
    · cases hact
  | performToEngine =>
    rw [Driver.act] at hact
    split at hact
    · cases hact
    · rename_i hidle
      obtain ⟨msg, hnext, hperform⟩ := Option.bind_eq_some_iff.mp hact
      exact moves_performToEngine h (by simpa using hidle) hnext hperform
  | advanceToEngine =>
    rw [Driver.act] at hact
    split at hact
    · rename_i hbusy
      cases hact
      exact ⟨qf, qt, h.fromEngine, (h.advanceToEngine hbusy).toEngine, .inl rfl⟩
    · cases hact
  | freeFromEngine =>
    cases hact
    exact ⟨qf, qt, h.fromEngine.free _, h.toEngine, .inl rfl⟩
  | sendOtherFromEngine =>
    have hinv := h.sendMsgFromEngine_other hact
    obtain ⟨fifo, hwrite, rfl⟩ := Option.map_eq_some_iff.mp hact
    refine ⟨_, _, hinv.fromEngine, hinv.toEngine, .inl ?_⟩
    apply Relay.ext
    · rfl
    · funext thread
      cases thread with
      | realTime => rfl
      | nonRealTime =>
        show commands _ = commands _
        rw [commands_append]
        exact List.append_nil _
    · rfl
  | performFromEngine =>
    rw [Driver.act] at hact
    split at hact
    · cases hact
    · rename_i hidle
      obtain ⟨msg, hnext, hperform⟩ := Option.bind_eq_some_iff.mp hact
      exact moves_performFromEngine h (by simpa using hidle) hnext hperform
  | advanceFromEngine =>
    rw [Driver.act] at hact
    split at hact
    · rename_i hbusy
      cases hact
      exact ⟨qf, qt, (h.advanceFromEngine hbusy).fromEngine, h.toEngine, .inl rfl⟩
    · cases hact
  | sendOtherToEngine =>
    have hinv := h.sendMsgToEngine_other hact
    obtain ⟨fifo, hwrite, rfl⟩ := Option.map_eq_some_iff.mp hact
    refine ⟨_, _, hinv.fromEngine, hinv.toEngine, .inl ?_⟩
    apply Relay.ext
    · rfl
    · funext thread
      cases thread with
      | nonRealTime => rfl
      | realTime =>
        show commands _ = commands _
        rw [commands_append]
        exact List.append_nil _
    · rfl

/-! ## Runs -/

/-- The commands are in their progress, and in order. -/
structure InOrder (stage : CommandID → ℕ → Bool) (s : Driver k) (qf qt : List FifoMsg) : Prop where
  inv : Inv stage s qf qt
  ordered : (s.relay qf qt).Ordered stageThread

theorem InOrder.act (h : InOrder stage s qf qt) {act : DriverAct}
    (hact : s.act stage act = some s') : ∃ qf' qt', InOrder stage s' qf' qt' := by
  obtain ⟨qf', qt', hinv, -⟩ := h.inv.act hact
  obtain ⟨qf₁, qt₁, hf, ht, hmoves⟩ := moves_act h.inv hact
  -- what waits in a fifo is no other queue
  obtain rfl := hf.unique hinv.fromEngine
  obtain rfl := ht.unique hinv.toEngine
  refine ⟨qf₁, qt₁, hinv, ?_⟩
  rcases hmoves with hsame | hstep
  · rw [hsame]
    exact h.ordered
  · exact h.ordered.step hstep

theorem inOrder_new : InOrder stage (new : Driver k) [] [] where
  inv := inv_new
  ordered := by
    apply Relay.ordered_of_idle
    · intro thread
      cases thread with
      | realTime => rfl
      | nonRealTime => rfl
    · rfl

theorem InOrder.acts (h : InOrder stage s qf qt) {as : List DriverAct}
    (hacts : s.acts stage as = some s') : ∃ qf' qt', InOrder stage s' qf' qt' := by
  induction as generalizing s qf qt with
  | nil =>
    cases hacts
    exact ⟨qf, qt, h⟩
  | cons a as ih =>
    obtain ⟨s₁, hact, hrest⟩ := Option.bind_eq_some_iff.mp hacts
    obtain ⟨qf', qt', h'⟩ := h.act hact
    exact ih h' hrest

/-! ## What `/sync` promises -/

/-- What a command has done is what the log says. -/
theorem mem_stages (hdone : .stage n ∈ s.effects cmd) : (cmd, n) ∈ s.stages := by
  unfold effects at hdone
  obtain ⟨e, he, heffect⟩ := List.mem_map.mp hdone
  obtain ⟨hlog, hcmd⟩ := List.mem_filter.mp he
  apply List.mem_filterMap.mpr
  refine ⟨e, hlog, ?_⟩
  unfold Event.stage
  rw [heffect, ← of_decide_eq_true hcmd]

theorem mem_commands (q : List FifoMsg) (hq : .doSequencedCommand cmd ∈ mail cmd q) :
    cmd ∈ commands q :=
  List.mem_filterMap.mpr ⟨_, (List.mem_filter.mp hq).1, rfl⟩

/-- When `b` has performed its last stage, all that started before it have performed theirs. -/
theorem InOrder.barrier (h : InOrder stage s qf qt) (hab : [a, b] <+ Relay.starts s.stages)
    (hb : (b, 4) ∈ s.stages) {i : ℕ} (hi : .stage i ∈ callEveryStage (stage a) 1) :
    (a, i) ∈ s.stages := by
  have hlast : 4 < s.mNextStage b := (h.ordered.past (b, 4) hb).2
  have hstarted : 2 ≤ s.mNextStage a := h.ordered.started a (Relay.mem_of_pair hab).1
  have hbehind := h.ordered.behind a b hab
  apply mem_stages
  have hprogress := h.inv.progress a
  generalize hnext : s.mNextStage a = n at hprogress
  generalize s.effects a = done at hprogress ⊢
  generalize hmailf : mail a qf = mailf at hprogress
  generalize hmailt : mail a qt = mailt at hprogress
  cases hprogress with
  | created => omega
  | toNonRealTime hn _ =>
    -- the last stage of `b` cannot come while `a` waits for one
    have hle := (hbehind .nonRealTime (mem_commands qf (by simp [hmailf]))).1
    have hle' : s.mNextStage b ≤ s.mNextStage a := hle
    omega
  | toRealTime hn _ =>
    have hle := (hbehind .realTime (mem_commands qt (by simp [hmailt]))).1
    have hle' : s.mNextStage b ≤ s.mNextStage a := hle
    omega
  | toDelete _ hrest =>
    rw [← hrest] at hi
    simpa using hi
  | deleted _ hrest => exact hrest ▸ hi

/-- However the two threads are interleaved: after stage `j` of a command no command that started
before it performs a stage up to `j`, and when a command has performed stage 4, as `/sync` does to
send `/synced`, every command that started before it has performed all its stages. -/
theorem commands_in_order (stage : CommandID → ℕ → Bool) (as : List DriverAct) (s : Driver k)
    (hacts : (new : Driver k).acts stage as = some s) (a b : CommandID)
    (hab : [a, b] <+ Relay.starts s.stages) :
    (∀ i j, [(b, j), (a, i)] <+ s.stages → j < i) ∧
      ((b, 4) ∈ s.stages → ∀ i, .stage i ∈ callEveryStage (stage a) 1 → (a, i) ∈ s.stages) := by
  obtain ⟨qf, qt, h⟩ := inOrder_new.acts hacts
  exact ⟨h.ordered.order a b hab, fun hb i hi => h.barrier hab hb hi⟩

/-- Two commands with all their stages, the second of which catches up with the first. -/
theorem commands_in_order_two : ∃ s : Driver 3,
    (new : Driver 3).acts (fun _ _ => true)
      [.start 0, .start 1, .performFromEngine, .advanceFromEngine, .performFromEngine,
        .performToEngine, .advanceToEngine, .performToEngine] = some s ∧
      ∀ i j, [(1, j), (0, i)] <+ s.stages → j < i := by
  obtain ⟨s, hs⟩ := Option.isSome_iff_exists.mp
    (show ((new : Driver 3).acts (fun _ _ => true)
      [.start 0, .start 1, .performFromEngine, .advanceFromEngine, .performFromEngine,
        .performToEngine, .advanceToEngine, .performToEngine]).isSome by decide)
  have hstarts : ((new : Driver 3).acts (fun _ _ => true)
      [.start 0, .start 1, .performFromEngine, .advanceFromEngine, .performFromEngine,
        .performToEngine, .advanceToEngine, .performToEngine]).map
      (fun s => Relay.starts s.stages) = some [0, 1] := by decide
  rw [hs] at hstarts
  refine ⟨s, hs, (commands_in_order (fun _ _ => true) _ s hs 0 1 ?_).1⟩
  rw [show Relay.starts s.stages = [0, 1] from Option.some.inj hstarts]

end Driver

end PoopWorms.Server
