import PoopWorms.Server.CommandMemory
import PoopWorms.Lib.Raising

/-!
# When a command gives its memory back
-/

namespace PoopWorms.Server

open Lifetimes Raising

/-! ## What the stages do -/

namespace SequencedCommand

/-- What the second stage returns. -/
def returns2 (cmd : SequencedCommand) (a : StageAnswers) : Bool :=
  match cmd.cls with
  | .sync | .bufAlloc | .bufGen | .bufFree | .bufZero | .bufClose | .audioQuit | .recvSynthDef
  | .loadSynthDef | .loadSynthDefDir => true
  | .bufAllocRead | .bufAllocReadChannel | .bufWrite | .asyncPlugIn => a.result
  | .bufRead | .bufReadChannel => !a.opens || a.result
  | .audioStatus | .notify | .sendFailure | .sendReply => false

/-- What the third stage returns. -/
def returns3 (cmd : SequencedCommand) (a : StageAnswers) : Bool :=
  match cmd.cls with
  | .asyncPlugIn => a.result
  | .audioStatus | .notify | .sendFailure | .sendReply => false
  | _ => true

/-- The third stage comes to `SEND_COMPLETION_MSG`. -/
def sends (cmd : SequencedCommand) (a : StageAnswers) : Bool :=
  match cmd.cls with
  | .sync | .bufGen | .audioQuit | .audioStatus | .notify | .sendFailure | .sendReply => false
  | .asyncPlugIn => a.result
  | _ => true

/-- The third stage performs a completion message. -/
def completes (cmd : SequencedCommand) (a : StageAnswers) : Bool :=
  cmd.sends a && cmd.mMsgSize ≠ 0

/-- Performing the completion message throws. -/
def throwsMsg (cmd : SequencedCommand) (mRealTime : Bool) (a : StageAnswers) : Bool :=
  !a.packet || if cmd.timed then !mRealTime else a.raises

/-- The third stage throws. -/
def throws3 (cmd : SequencedCommand) (mRealTime : Bool) (a : StageAnswers) : Bool :=
  cmd.completes a && cmd.throwsMsg mRealTime a

/-- What a stage returns, by its number. -/
def returns (cmd : SequencedCommand) (a : StageAnswers) : ℕ → Bool
  | 1 => true
  | 2 => cmd.returns2 a
  | 3 => cmd.returns3 a
  | _ => false

/-- A stage throws. -/
def throws (cmd : SequencedCommand) (mRealTime : Bool) (a : StageAnswers) : ℕ → Bool
  | 3 => cmd.throws3 mRealTime a
  | _ => false

/-- A stage gives the completion message to the scheduler, unless it throws. -/
def defers (cmd : SequencedCommand) (a : StageAnswers) : ℕ → Bool
  | 3 => cmd.completes a && cmd.timed
  | _ => false

/-- Outside real time, a stage throws if its completion message is for later. -/
theorem defers_of_throws {cmd : SequencedCommand} {a : StageAnswers} {n : ℕ}
    (h : cmd.throws false a n = false) : cmd.defers a n = false := by
  unfold throws at h
  unfold defers
  match n with
  | 0 | 1 | 2 | n + 4 => rfl
  | 3 =>
    unfold throws3 throwsMsg at h
    cases htimed : cmd.timed with
    | false => exact Bool.and_false _
    | true => simpa [htimed] using h

theorem size_ne_zero_of_defers {cmd : SequencedCommand} {a : StageAnswers} {n : ℕ}
    (h : cmd.defers a n = true) : cmd.mMsgSize ≠ 0 := by
  unfold defers at h
  match n with
  | 0 | 1 | 2 | n + 4 => cases h
  | 3 =>
    unfold completes at h
    simp only [Bool.and_eq_true, decide_eq_true_eq] at h
    exact h.1.2

/-- A command that gives up its completion message goes on. -/
theorem defers_of_returns {cmd : SequencedCommand} {a : StageAnswers} {n : ℕ}
    (h : cmd.returns a n = false) : cmd.defers a n = false := by
  unfold returns at h
  unfold defers
  match n with
  | 0 | 1 | 2 | n + 4 => rfl
  | 3 =>
    have hsends : cmd.sends a = false := by
      unfold returns3 at h
      unfold sends
      cases hcls : cmd.cls <;> simp_all
    unfold completes
    rw [hsends]
    rfl

/-- Outside real time, one of the stages throws. -/
def everyThrows (cmd : SequencedCommand) (a : ℕ → StageAnswers) : Bool :=
  cmd.returns2 (a 2) && cmd.throws3 false (a 3)

/-- The destructors free every block once. -/
def DestroysOnce (cmd : SequencedCommand) : Prop :=
  cmd.cls = .asyncPlugIn → cmd.mMsgData = none

instance (cmd : SequencedCommand) : Decidable cmd.DestroysOnce :=
  inferInstanceAs (Decidable (_ → _))

/-- What the destructors free. -/
def releases (cmd : SequencedCommand) : List CommandBlock :=
  cmd.members ++ ((if cmd.cls = .asyncPlugIn then cmd.mMsgData.toList else []) ++
    cmd.mMsgData.toList)

end SequencedCommand

namespace CommandRun

/-- The state after blocks have been used. -/
def afterUse (s : CommandRun) (blocks : List CommandBlock) : CommandRun :=
  { s with trace := s.trace ++ blocks.map .use }

/-- The state after the completion message has been given to the scheduler. -/
def afterSchedule (s : CommandRun) (room : Bool) : CommandRun :=
  { s with
    cmd := { s.cmd with mMsgSize := 0, mMsgData := none }
    scheduled := if room then s.cmd.mMsgData else s.scheduled }

/-- The blocks of the command, as long as it is not deleted. -/
def owned (s : CommandRun) : List CommandBlock :=
  .space :: (s.cmd.members ++ s.cmd.mMsgData.toList)

/-- The blocks that the one who has the command has to free. -/
def commandHolds (s : CommandRun) : List CommandBlock :=
  if s.place = .nowhere then [] else s.owned

/-- The blocks that somebody still has to free. -/
def holds (s : CommandRun) : List CommandBlock := s.commandHolds ++ s.scheduled.toList

/-- The state with another stage to come. -/
def atStage (s : CommandRun) (n : ℕ) : CommandRun :=
  { s with cmd := { s.cmd with mNextStage := n } }

def moveTo (s : CommandRun) (place : CommandPlace) : CommandRun := { s with place := place }

/-- The state after the destructors, without the object. -/
def destroyed (s : CommandRun) : CommandRun :=
  { s with
    place := .nowhere
    trace := s.trace ++ s.cmd.releases.map .free ++ [.free .space] }

/-- The state after the command has been deleted. -/
def deleted (s : CommandRun) : CommandRun := (s.afterUse [.space]).destroyed

/-- The state after a stage that does not throw. -/
def staged (s : CommandRun) (a : StageAnswers) (n : ℕ) (blocks : List CommandBlock) :
    CommandRun :=
  if s.cmd.defers a n then (s.afterUse blocks).afterSchedule a.room else s.afterUse blocks

/-- Where a stage leaves the command. -/
def dispatch (s : CommandRun) (a : StageAnswers) (n : ℕ) (sendAgain : Bool) : CommandRun :=
  if sendAgain then s.moveTo (if a.accepts then .doSequencedCommand else .nowhere)
  else if n % 2 = 1 then s.deleted
  else s.moveTo (if a.accepts then .freeSequencedCommand else .nowhere)

/-- The command has come to another stage, and its blocks may have been used. -/
def Uses (s s' : CommandRun) : Prop :=
  ∃ blocks ⊆ s.owned, ∃ n, s' = (s.afterUse blocks).atStage n

theorem afterUse_nil (s : CommandRun) : s.afterUse [] = s := by
  unfold afterUse
  rw [List.map_nil, List.append_nil]

theorem afterUse_afterUse (s : CommandRun) (blocks blocks' : List CommandBlock) :
    (s.afterUse blocks).afterUse blocks' = s.afterUse (blocks ++ blocks') := by
  unfold afterUse
  rw [List.map_append, List.append_assoc]

theorem uses_afterUse {s : CommandRun} {blocks : List CommandBlock} (h : blocks ⊆ s.owned) :
    s.Uses (s.afterUse blocks) := ⟨blocks, h, s.cmd.mNextStage, rfl⟩

theorem uses_atStage (s : CommandRun) (n : ℕ) : s.Uses (s.atStage n) :=
  ⟨[], List.nil_subset _, n, by rw [afterUse_nil]⟩

theorem Uses.trans {s s' s'' : CommandRun} (h : s.Uses s') (h' : s'.Uses s'') : s.Uses s'' := by
  obtain ⟨blocks, hblocks, n, rfl⟩ := h
  obtain ⟨blocks', hblocks', n', rfl⟩ := h'
  refine ⟨blocks ++ blocks', List.append_subset.mpr ⟨hblocks, hblocks'⟩, n', ?_⟩
  rw [← afterUse_afterUse]
  rfl

end CommandRun

namespace CommandM

theorem stage2_run (a : StageAnswers) (s : CommandRun) :
    ∃ blocks ⊆ s.cmd.members ++ s.cmd.mMsgData.toList,
      (stage2 a).run s = (.ok (s.cmd.returns2 a), s.afterUse blocks) := by
  have hmembers : s.cmd.members ⊆ s.cmd.members ++ s.cmd.mMsgData.toList :=
    List.subset_append_left _ _
  have hdata : s.cmd.mMsgData.toList ⊆ s.cmd.members ++ s.cmd.mMsgData.toList :=
    List.subset_append_right _ _
  obtain ⟨⟨cls, n, members, size, data, time⟩, place, scheduled, trace⟩ := s
  cases cls
  case sync | bufAlloc | bufFree | bufZero | bufClose | audioQuit | audioStatus | notify
      | asyncPlugIn =>
    refine ⟨[], List.nil_subset _, ?_⟩
    rw [CommandRun.afterUse_nil]
    rfl
  case bufRead | bufReadChannel =>
    obtain ⟨opens, result, packet, raises, room, accepts⟩ := a
    cases opens
    · refine ⟨[], List.nil_subset _, ?_⟩
      rw [CommandRun.afterUse_nil]
      rfl
    · exact ⟨members, hmembers, rfl⟩
  case sendReply => exact ⟨data.toList, hdata, rfl⟩
  all_goals exact ⟨members, hmembers, rfl⟩

theorem performOSCPacket_run_of_throws {cmd : SequencedCommand} {mRealTime : Bool}
    {a : StageAnswers} (h : (if cmd.timed then !mRealTime else a.raises) = true)
    (s : CommandRun) : ∃ e, (performOSCPacket mRealTime a cmd).run s = (.error e, s) := by
  unfold performOSCPacket
  cases htimed : cmd.timed with
  | false =>
    rw [htimed] at h
    have hraises : a.raises = true := h
    rw [hraises]
    exact ⟨.byCompletionMsg, rfl⟩
  | true =>
    rw [htimed] at h
    have hreal : mRealTime = false := by simpa using h
    rw [hreal]
    exact ⟨.noDriver, rfl⟩

theorem performOSCPacket_run {cmd : SequencedCommand} {mRealTime : Bool} {a : StageAnswers}
    (h : (if cmd.timed then !mRealTime else a.raises) = false) (s : CommandRun) :
    (performOSCPacket mRealTime a cmd).run s = (.ok cmd.timed,
      if cmd.timed && a.room then { s with scheduled := cmd.mMsgData } else s) := by
  unfold performOSCPacket
  cases htimed : cmd.timed with
  | false =>
    rw [htimed] at h
    have hraises : a.raises = false := h
    rw [hraises]
    rfl
  | true =>
    rw [htimed] at h
    have hreal : mRealTime = true := by simpa using h
    rw [hreal]
    cases a.room <;> rfl

/-- Performing the completion message: an exception comes out, or it is performed, now or later. -/
theorem performCompletionMsg_run_of_throws {s : CommandRun} {mRealTime : Bool}
    {a : StageAnswers} (h : s.cmd.throwsMsg mRealTime a = true) :
    ∃ e, ∃ blocks ⊆ s.cmd.mMsgData.toList,
      (performCompletionMsg mRealTime a).run s = (.error e, s.afterUse blocks) := by
  unfold SequencedCommand.throwsMsg at h
  unfold performCompletionMsg
  cases hpacket : a.packet with
  | false => exact ⟨.noMemory, [], List.nil_subset _, by rw [CommandRun.afterUse_nil]; rfl⟩
  | true =>
    rw [hpacket] at h
    obtain ⟨e, he⟩ := performOSCPacket_run_of_throws h (s.afterUse s.cmd.mMsgData.toList)
    exact ⟨e, s.cmd.mMsgData.toList, List.Subset.refl _, he⟩

theorem performCompletionMsg_run {s : CommandRun} {mRealTime : Bool} {a : StageAnswers}
    (h : s.cmd.throwsMsg mRealTime a = false) :
    (performCompletionMsg mRealTime a).run s = (.ok s.cmd.timed,
      if s.cmd.timed && a.room then
        { s.afterUse s.cmd.mMsgData.toList with scheduled := s.cmd.mMsgData }
      else s.afterUse s.cmd.mMsgData.toList) := by
  unfold SequencedCommand.throwsMsg at h
  unfold performCompletionMsg
  cases hpacket : a.packet with
  | false =>
    rw [hpacket] at h
    cases h
  | true =>
    rw [hpacket] at h
    exact performOSCPacket_run h (s.afterUse s.cmd.mMsgData.toList)

/-- `SEND_COMPLETION_MSG` -/
theorem sendCompletionMsg_run {s : CommandRun} {mRealTime : Bool} {a : StageAnswers} :
    (∃ e, ∃ blocks ⊆ s.cmd.mMsgData.toList,
      (s.cmd.mMsgSize ≠ 0 && s.cmd.throwsMsg mRealTime a) = true ∧
      (sendCompletionMsg mRealTime a).run s = (.error e, s.afterUse blocks)) ∨
    ∃ blocks ⊆ s.cmd.mMsgData.toList,
      (s.cmd.mMsgSize ≠ 0 && s.cmd.throwsMsg mRealTime a) = false ∧
      (sendCompletionMsg mRealTime a).run s = (.ok (),
        if s.cmd.mMsgSize ≠ 0 && s.cmd.timed then (s.afterUse blocks).afterSchedule a.room
        else s.afterUse blocks) := by
  have hrun : (sendCompletionMsg mRealTime a).run s =
    (if s.cmd.mMsgSize ≠ 0 then _ else pure () : CommandM Unit).run s := rfl
  rw [hrun]
  by_cases hsize : s.cmd.mMsgSize ≠ 0
  · rw [if_pos hsize, decide_eq_true hsize, Bool.true_and, Bool.true_and]
    cases hthrows : s.cmd.throwsMsg mRealTime a with
    | true =>
      obtain ⟨e, blocks, hblocks, he⟩ := performCompletionMsg_run_of_throws hthrows
      exact .inl ⟨e, blocks, hblocks, rfl, run_bind_error he⟩
    | false =>
      refine .inr ⟨s.cmd.mMsgData.toList, List.Subset.refl _, rfl, ?_⟩
      rw [run_bind_ok (performCompletionMsg_run hthrows)]
      cases htimed : s.cmd.timed with
      | false => rfl
      | true => cases a.room <;> rfl
  · rw [if_neg hsize, decide_eq_false hsize, Bool.false_and, Bool.false_and]
    refine .inr ⟨[], List.nil_subset _, rfl, ?_⟩
    rw [CommandRun.afterUse_nil]
    rfl

theorem stage3_run_eq (mRealTime : Bool) (a : StageAnswers) (s : CommandRun) :
    (stage3 mRealTime a).run s =
      if s.cmd.sends a then
        (do sendCompletionMsg mRealTime a; return s.cmd.returns3 a : CommandM Bool).run s
      else (.ok (s.cmd.returns3 a), s) := by
  obtain ⟨⟨cls, n, members, size, data, time⟩, place, scheduled, trace⟩ := s
  obtain ⟨opens, result, packet, raises, room, accepts⟩ := a
  cases cls
  case asyncPlugIn => cases result <;> rfl
  all_goals rfl

theorem stage3_run {s : CommandRun} {mRealTime : Bool} {a : StageAnswers} :
    (∃ e, ∃ blocks ⊆ s.cmd.mMsgData.toList, s.cmd.throws3 mRealTime a = true ∧
      (stage3 mRealTime a).run s = (.error e, s.afterUse blocks)) ∨
    ∃ blocks ⊆ s.cmd.mMsgData.toList, s.cmd.throws3 mRealTime a = false ∧
      (stage3 mRealTime a).run s = (.ok (s.cmd.returns3 a),
        if s.cmd.completes a && s.cmd.timed then (s.afterUse blocks).afterSchedule a.room
        else s.afterUse blocks) := by
  rw [stage3_run_eq]
  unfold SequencedCommand.throws3 SequencedCommand.completes
  cases s.cmd.sends a with
  | false =>
    refine .inr ⟨[], List.nil_subset _, rfl, ?_⟩
    rw [CommandRun.afterUse_nil]
    rfl
  | true =>
    rw [if_pos rfl]
    simp only [Bool.true_and]
    rcases @sendCompletionMsg_run s mRealTime a with
      ⟨e, blocks, hblocks, hthrows, he⟩ | ⟨blocks, hblocks, hthrows, hok⟩
    · exact .inl ⟨e, blocks, hblocks, hthrows, run_bind_error he⟩
    · refine .inr ⟨blocks, hblocks, hthrows, ?_⟩
      rw [run_bind_ok hok]
      rfl

/-- One stage: an exception, or a value. -/
theorem callStage_run (mRealTime : Bool) (a : StageAnswers) (n : ℕ) (s : CommandRun) :
    (∃ e, ∃ blocks ⊆ s.owned, s.cmd.throws mRealTime a n = true ∧
      (callStage mRealTime a n).run s = (.error e, s.afterUse blocks)) ∨
    ∃ blocks ⊆ s.owned, s.cmd.throws mRealTime a n = false ∧
      (callStage mRealTime a n).run s = (.ok (s.cmd.returns a n), s.staged a n blocks) := by
  have hspace : [CommandBlock.space] ⊆ s.owned := List.cons_subset_cons _ (List.nil_subset _)
  have hcons : ∀ blocks ⊆ s.cmd.members ++ s.cmd.mMsgData.toList,
      [CommandBlock.space] ++ blocks ⊆ s.owned := fun blocks h => List.cons_subset_cons _ h
  match n with
  | 0 => exact .inr ⟨[.space], hspace, rfl, rfl⟩
  | 1 => exact .inr ⟨[.space], hspace, rfl, rfl⟩
  | 2 =>
    obtain ⟨blocks, hblocks, hrun⟩ := stage2_run a (s.afterUse [.space])
    refine .inr ⟨[.space] ++ blocks, hcons blocks hblocks, rfl, ?_⟩
    unfold CommandRun.staged
    rw [← CommandRun.afterUse_afterUse]
    exact hrun
  | 3 =>
    rcases @stage3_run (s.afterUse [.space]) mRealTime a with
      ⟨e, blocks, hblocks, hthrows, hrun⟩ | ⟨blocks, hblocks, hthrows, hrun⟩
    · refine .inl ⟨e, [.space] ++ blocks, hcons blocks ?_, hthrows, ?_⟩
      · exact List.Subset.trans hblocks (List.subset_append_right _ _)
      · rw [← CommandRun.afterUse_afterUse]
        exact hrun
    · refine .inr ⟨[.space] ++ blocks, hcons blocks ?_, hthrows, ?_⟩
      · exact List.Subset.trans hblocks (List.subset_append_right _ _)
      · unfold CommandRun.staged
        rw [← CommandRun.afterUse_afterUse]
        exact hrun
  | n + 4 => exact .inr ⟨[.space], hspace, rfl, rfl⟩

theorem callDestructor_run (s : CommandRun) : callDestructor.run s =
    (.ok (), { s with trace := s.trace ++ s.cmd.releases.map .free }) := by
  obtain ⟨⟨cls, n, members, size, data, time⟩, place, scheduled, trace⟩ := s
  unfold SequencedCommand.releases
  rw [List.map_append, List.map_append, ← List.append_assoc, ← List.append_assoc]
  cases cls
  case asyncPlugIn => rfl
  all_goals
    rw [if_neg (by intro h; cases h), List.map_nil, List.append_nil]
    rfl

theorem delete_run (s : CommandRun) : delete.run s = (.ok (), s.deleted) := by
  have hdestructor := callDestructor_run (s.afterUse [.space])
  have hrun : delete.run s =
    (callDestructor >>= fun _ => worldFree [.space] >>= fun _ => put .nowhere).run
      (s.afterUse [.space]) := rfl
  rw [hrun, run_bind_ok hdestructor]
  rfl

theorem callNextStage_run (a : StageAnswers) (s : CommandRun) :
    (∃ e, ∃ blocks ⊆ s.owned, s.cmd.throws true a s.cmd.mNextStage = true ∧
      (callNextStage a).run s = (.error e, s.afterUse blocks)) ∨
    ∃ blocks ⊆ s.owned, s.cmd.throws true a s.cmd.mNextStage = false ∧
      (callNextStage a).run s = (.ok (),
        ((s.staged a s.cmd.mNextStage blocks).atStage (s.cmd.mNextStage + 1)).dispatch a
          s.cmd.mNextStage (s.cmd.returns a s.cmd.mNextStage)) := by
  have hrun : (callNextStage a).run s = (callStage true a s.cmd.mNextStage >>= fun sendAgain =>
      incNextStage >>= fun _ =>
        if sendAgain then sendMsg a .doSequencedCommand
        else if s.cmd.mNextStage % 2 = 1 then delete
        else sendMsg a .freeSequencedCommand).run s := rfl
  rcases callStage_run true a s.cmd.mNextStage s with
    ⟨e, blocks, hblocks, hthrows, he⟩ | ⟨blocks, hblocks, hthrows, hok⟩
  · refine .inl ⟨e, blocks, hblocks, hthrows, ?_⟩
    rw [hrun]
    exact run_bind_error he
  · refine .inr ⟨blocks, hblocks, hthrows, ?_⟩
    have hinc : incNextStage.run (s.staged a s.cmd.mNextStage blocks) =
        (.ok (), (s.staged a s.cmd.mNextStage blocks).atStage (s.cmd.mNextStage + 1)) := by
      unfold CommandRun.staged
      cases s.cmd.defers a s.cmd.mNextStage <;> rfl
    rw [hrun, run_bind_ok hok, run_bind_ok hinc]
    unfold CommandRun.dispatch
    cases s.cmd.returns a s.cmd.mNextStage with
    | true => rfl
    | false =>
      by_cases hodd : s.cmd.mNextStage % 2 = 1
      · rw [if_neg (by decide), if_pos hodd, if_neg (by decide), if_pos hodd]
        exact delete_run _
      · rw [if_neg (by decide), if_neg hodd, if_neg (by decide), if_neg hodd]
        rfl

/-- One stage outside real time. -/
theorem callStage_false_run (a : StageAnswers) (n : ℕ) (s : CommandRun) :
    (∃ e s', s.Uses s' ∧ s.cmd.throws false a n = true ∧
      (callStage false a n).run s = (.error e, s')) ∨
    ∃ s', s.Uses s' ∧ s.cmd.throws false a n = false ∧
      (callStage false a n).run s = (.ok (s.cmd.returns a n), s') := by
  rcases callStage_run false a n s with
    ⟨e, blocks, hblocks, hthrows, he⟩ | ⟨blocks, hblocks, hthrows, hok⟩
  · exact .inl ⟨e, s.afterUse blocks, CommandRun.uses_afterUse hblocks, hthrows, he⟩
  · refine .inr ⟨s.afterUse blocks, CommandRun.uses_afterUse hblocks, hthrows, ?_⟩
    rw [hok]
    unfold CommandRun.staged
    rw [SequencedCommand.defers_of_throws hthrows]
    rfl

theorem incNextStage_run (s : CommandRun) :
    incNextStage.run s = (.ok (), s.atStage (s.cmd.mNextStage + 1)) := rfl

/-- The last stage, and the end of the command. -/
theorem lastStage_run (a : StageAnswers) (s : CommandRun) : ∃ s', s.Uses s' ∧
    (incNextStage >>= fun _ => callStage false a 4 >>= fun _ => delete).run s =
      (.ok (), s'.deleted) := by
  rw [run_bind_ok (incNextStage_run s)]
  rcases callStage_false_run a 4 (s.atStage (s.cmd.mNextStage + 1)) with
    ⟨e, s', -, hthrows, -⟩ | ⟨s', h, -, hok⟩
  · cases hthrows
  · refine ⟨s', (CommandRun.uses_atStage s _).trans h, ?_⟩
    rw [run_bind_ok hok]
    exact delete_run s'

/-- The third stage, and what comes after it. -/
theorem thirdStage_run (a a' : StageAnswers) (s : CommandRun) :
    (∃ e s', s.Uses s' ∧ s.cmd.throws3 false a = true ∧
      (callStage false a 3 >>= fun r =>
        if r then incNextStage >>= fun _ => callStage false a' 4 >>= fun _ => delete
        else delete).run s = (.error e, s')) ∨
    ∃ s', s.Uses s' ∧ s.cmd.throws3 false a = false ∧
      (callStage false a 3 >>= fun r =>
        if r then incNextStage >>= fun _ => callStage false a' 4 >>= fun _ => delete
        else delete).run s = (.ok (), s'.deleted) := by
  rcases callStage_false_run a 3 s with ⟨e, s', h, hthrows, he⟩ | ⟨s', h, hthrows, hok⟩
  · exact .inl ⟨e, s', h, hthrows, run_bind_error he⟩
  · rw [run_bind_ok hok]
    cases s.cmd.returns a 3 with
    | false => exact .inr ⟨s', h, hthrows, delete_run s'⟩
    | true =>
      obtain ⟨s'', h', hlast⟩ := lastStage_run a' s'
      exact .inr ⟨s'', h.trans h', hthrows, hlast⟩

/-- Outside real time, the command is deleted at the end, unless a stage throws. -/
theorem callEveryStage_run (a : ℕ → StageAnswers) (s : CommandRun) :
    (∃ e s', s.Uses s' ∧ s.cmd.everyThrows a = true ∧
      (callEveryStage a).run s = (.error e, s')) ∨
    ∃ s', s.Uses s' ∧ s.cmd.everyThrows a = false ∧
      (callEveryStage a).run s = (.ok (), s'.deleted) := by
  have hrun : (callEveryStage a).run s = (callStage false (a 1) 1 >>= fun r =>
      if r then incNextStage >>= fun _ => callStage false (a 2) 2 >>= fun r =>
        if r then incNextStage >>= fun _ => callStage false (a 3) 3 >>= fun r =>
          if r then incNextStage >>= fun _ => callStage false (a 4) 4 >>= fun _ => delete
          else delete
        else delete
      else delete).run s := rfl
  rw [hrun]
  rcases callStage_false_run (a 1) 1 s with ⟨e, s₁, -, hthrows, -⟩ | ⟨s₁, h₁, -, hok₁⟩
  · cases hthrows
  have hfirst : s.cmd.returns (a 1) 1 = true := rfl
  rw [run_bind_ok hok₁, if_pos hfirst, run_bind_ok (incNextStage_run s₁)]
  rcases callStage_false_run (a 2) 2 (s₁.atStage (s₁.cmd.mNextStage + 1)) with
    ⟨e, s₂, -, hthrows, -⟩ | ⟨s₂, h₂, -, hok₂⟩
  · cases hthrows
  have h12 : s.Uses s₂ := (h₁.trans (CommandRun.uses_atStage s₁ _)).trans h₂
  have hsecond : (s₁.atStage (s₁.cmd.mNextStage + 1)).cmd.returns (a 2) 2 =
      s.cmd.returns2 (a 2) := by
    obtain ⟨blocks, -, n, rfl⟩ := h₁
    rfl
  unfold SequencedCommand.everyThrows
  rw [run_bind_ok hok₂, hsecond]
  cases s.cmd.returns2 (a 2) with
  | false => exact .inr ⟨s₂, h12, rfl, delete_run s₂⟩
  | true =>
    have h23 : s.Uses (s₂.atStage (s₂.cmd.mNextStage + 1)) :=
      h12.trans (CommandRun.uses_atStage s₂ _)
    have hthird : (s₂.atStage (s₂.cmd.mNextStage + 1)).cmd.throws3 false (a 3) =
        s.cmd.throws3 false (a 3) := by
      obtain ⟨blocks, -, n, hs⟩ := h23
      rw [hs]
      rfl
    rw [if_pos rfl, run_bind_ok (incNextStage_run s₂), Bool.true_and, ← hthird]
    rcases thirdStage_run (a 3) (a 4) (s₂.atStage (s₂.cmd.mNextStage + 1)) with
      ⟨e, s₃, h₃, hthrows, he⟩ | ⟨s₃, h₃, hthrows, hok⟩
    · exact .inl ⟨e, s₃, h23.trans h₃, hthrows, he⟩
    · exact .inr ⟨s₃, h23.trans h₃, hthrows, hok⟩

end CommandM

end PoopWorms.Server
