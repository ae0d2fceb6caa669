import PoopWorms.Server.CommandMemoryTheorems

/-!
# Who frees the memory of a command

The blocks of a command are with the one who has the command, and the completion message may be
with the scheduler. Everything that is done to a block is done by the one who holds it. A block
that nobody holds any more is never freed.
-/

namespace PoopWorms.Server

open Lifetimes Raising Runs CommandM

namespace CommandRun

/-- Only blocks that somebody holds are used or freed, and nobody gets hold of another. -/
def Emits (s s' : CommandRun) : Prop :=
  ∃ es, s'.trace = s.trace ++ es ∧ (∀ e ∈ es, e.block ∈ s.holds) ∧ s'.holds ⊆ s.holds

/-- The memory can not be given back properly any more. -/
def Lossy (s : CommandRun) : Prop := Flawed s.trace s.holds

structure Sound (s : CommandRun) : Prop where
  data : s.cmd.mMsgSize ≠ 0 → s.cmd.mMsgData ≠ none
  once : s.scheduled ≠ none → s.cmd.mMsgData = none
  holding : Holding s.trace s.holds

variable {s s' s'' : CommandRun} {blocks : List CommandBlock}

/-- Nothing is done to a block. -/
theorem Emits.of_trace_eq (htrace : s'.trace = s.trace) (hholds : s'.holds ⊆ s.holds) :
    s.Emits s' := by
  refine ⟨[], by rw [htrace, List.append_nil], ?_, hholds⟩
  intro e he
  cases he

theorem Emits.trans (h : s.Emits s') (h' : s'.Emits s'') : s.Emits s'' := by
  obtain ⟨es, htrace, hes, hholds⟩ := h
  obtain ⟨es', htrace', hes', hholds'⟩ := h'
  have happend : s''.trace = s.trace ++ (es ++ es') := by
    rw [htrace', htrace, List.append_assoc]
  refine ⟨es ++ es', happend, ?_, List.Subset.trans hholds' hholds⟩
  intro e he
  rcases List.mem_append.mp he with he | he
  · exact hes e he
  · exact hholds (hes' e he)

/-- What can not be made good stays so. -/
theorem Emits.lossy (h : s.Emits s') (hs : s.Lossy) : s'.Lossy := by
  obtain ⟨es, htrace, hes, hholds⟩ := h
  unfold Lossy
  rw [htrace]
  exact hs.append hes hholds

theorem holds_eq (hplace : s.place ≠ .nowhere) : s.holds = s.owned ++ s.scheduled.toList := by
  unfold holds commandHolds
  rw [if_neg hplace]

theorem owned_subset_holds (hplace : s.place ≠ .nowhere) : s.owned ⊆ s.holds := by
  rw [holds_eq hplace]
  exact List.subset_append_left _ _

theorem space_mem_owned (s : CommandRun) : CommandBlock.space ∈ s.owned := List.mem_cons_self

/-! ## Every operation on its own -/

theorem emits_afterUse (hplace : s.place ≠ .nowhere) (hblocks : blocks ⊆ s.owned) :
    s.Emits (s.afterUse blocks) := by
  refine ⟨blocks.map .use, rfl, ?_, List.Subset.refl _⟩
  intro e he
  obtain ⟨b, hb, rfl⟩ := List.mem_map.mp he
  exact owned_subset_holds hplace (hblocks hb)

theorem Sound.afterUse (h : s.Sound) (hplace : s.place ≠ .nowhere) (hblocks : blocks ⊆ s.owned) :
    (s.afterUse blocks).Sound := by
  refine ⟨h.data, h.once, ?_⟩
  exact h.holding.uses (List.Subset.trans hblocks (owned_subset_holds hplace))

theorem emits_afterSchedule (hplace : s.place ≠ .nowhere) (room : Bool) :
    s.Emits (s.afterSchedule room) := by
  have hplace' : (s.afterSchedule room).place ≠ .nowhere := hplace
  refine Emits.of_trace_eq rfl ?_
  rw [holds_eq hplace, holds_eq hplace']
  intro b hb
  cases room <;> simp [owned, CommandRun.afterSchedule] at hb ⊢ <;> tauto

/-- The scheduler takes the completion message over. -/
theorem Sound.afterSchedule (h : s.Sound) (hplace : s.place ≠ .nowhere)
    (hsize : s.cmd.mMsgSize ≠ 0) : (s.afterSchedule true).Sound := by
  have hnone : s.scheduled = none := by
    by_contra hsome
    exact h.data hsize (h.once hsome)
  have hplace' : (s.afterSchedule true).place ≠ .nowhere := hplace
  have hholds : (s.afterSchedule true).holds = s.holds := by
    rw [holds_eq hplace, holds_eq hplace', hnone]
    simp [owned, CommandRun.afterSchedule]
  refine ⟨fun hne => absurd rfl hne, fun _ => rfl, ?_⟩
  rw [hholds]
  exact h.holding

/-- The completion message is lost if the scheduler does not take it. -/
theorem Sound.lossy_afterSchedule (h : s.Sound) (hplace : s.place ≠ .nowhere)
    (hsize : s.cmd.mMsgSize ≠ 0) : (s.afterSchedule false).Lossy := by
  obtain ⟨b, hb⟩ := Option.ne_none_iff_exists'.mp (h.data hsize)
  have hholds := holds_eq hplace
  have hplace' : (s.afterSchedule false).place ≠ .nowhere := hplace
  have hholds' := holds_eq hplace'
  have hnodup := h.holding.nodup
  rw [hholds] at hnodup
  apply h.holding.flawed (b := b)
  · rw [hholds]
    simp [owned, hb]
  · rw [hholds']
    simp [owned, CommandRun.afterSchedule, hb] at hnodup ⊢
    grind

theorem Sound.lossy_moveTo (h : s.Sound) (hplace : s.place ≠ .nowhere) :
    (s.moveTo .nowhere).Lossy := by
  have hholds := holds_eq hplace
  have hnodup := h.holding.nodup
  rw [hholds] at hnodup
  apply h.holding.flawed (b := .space)
  · exact owned_subset_holds hplace s.space_mem_owned
  · show .space ∉ s.scheduled.toList
    exact (List.nodup_cons.mp hnodup).1 ∘ List.mem_append_right _

theorem emits_moveTo (hplace : s.place ≠ .nowhere) (place : CommandPlace) :
    s.Emits (s.moveTo place) := by
  refine Emits.of_trace_eq rfl ?_
  rw [holds_eq hplace]
  by_cases hnowhere : place = .nowhere
  · subst hnowhere
    exact List.subset_append_right _ _
  · rw [holds_eq (s := s.moveTo place) hnowhere]
    exact List.Subset.refl _

theorem Sound.moveTo (h : s.Sound) (hplace : s.place ≠ .nowhere) {place : CommandPlace}
    (hnowhere : place ≠ .nowhere) : (s.moveTo place).Sound := by
  refine ⟨h.data, h.once, ?_⟩
  rw [holds_eq (s := s.moveTo place) hnowhere]
  have hholding := h.holding
  rw [holds_eq hplace] at hholding
  exact hholding

theorem emits_atStage (s : CommandRun) (n : ℕ) : s.Emits (s.atStage n) :=
  Emits.of_trace_eq rfl (List.Subset.refl _)

theorem Sound.atStage (h : s.Sound) (n : ℕ) : (s.atStage n).Sound := ⟨h.data, h.once, h.holding⟩

theorem emits_destroyed (hplace : s.place ≠ .nowhere) : s.Emits s.destroyed := by
  refine ⟨s.cmd.releases.map .free ++ [.free .space], ?_, ?_, ?_⟩
  · unfold CommandRun.destroyed
    simp only [List.append_assoc]
  · intro e he
    apply owned_subset_holds hplace
    rcases List.mem_append.mp he with he | he
    · obtain ⟨b, hb, rfl⟩ := List.mem_map.mp he
      apply List.mem_cons_of_mem
      unfold SequencedCommand.releases at hb
      simp only [List.mem_append] at hb ⊢
      rcases hb with hb | hb | hb
      · exact .inl hb
      · split_ifs at hb
        · exact .inr hb
        · cases hb
      · exact .inr hb
    · rw [List.mem_singleton.mp he]
      exact s.space_mem_owned
  · rw [holds_eq hplace]
    exact List.subset_append_right _ _

theorem Sound.destroyed (h : s.Sound) (hplace : s.place ≠ .nowhere)
    (hdestroys : s.cmd.DestroysOnce) : s.destroyed.Sound := by
  have hreleases : s.cmd.releases = s.cmd.members ++ s.cmd.mMsgData.toList := by
    unfold SequencedCommand.releases
    by_cases hcls : s.cmd.cls = .asyncPlugIn
    · rw [hdestroys hcls, if_pos hcls]
      rfl
    · rw [if_neg hcls, List.nil_append]
  have hholding := h.holding
  rw [holds_eq hplace] at hholding
  refine ⟨h.data, h.once, ?_⟩
  show Holding (s.trace ++ s.cmd.releases.map .free ++ [.free .space]) s.scheduled.toList
  rw [hreleases]
  apply Holding.free
  apply Holding.frees
  exact hholding.perm List.perm_middle.symm

/-- The destructor of `AsyncPlugInCmd` and that of its base class both free the message. -/
theorem Sound.lossy_destroyed (h : s.Sound) (hplace : s.place ≠ .nowhere)
    (hdestroys : ¬ s.cmd.DestroysOnce) : s.destroyed.Lossy := by
  obtain ⟨hcls, hdata⟩ := Classical.not_imp.mp hdestroys
  obtain ⟨b, hb⟩ := Option.ne_none_iff_exists'.mp hdata
  have hmem : b ∈ s.holds := by
    apply owned_subset_holds hplace
    simp [owned, hb]
  have hborn : life b (s.trace ++ s.cmd.members.map .free) ≠ some .unborn := by
    apply life_append_ne_unborn
    rw [h.holding.live b hmem]
    decide
  have htrace : s.destroyed.trace =
      s.trace ++ s.cmd.members.map .free ++ [.free b, .free b] ++ [.free .space] := by
    unfold CommandRun.destroyed SequencedCommand.releases
    rw [if_pos hcls, hb]
    simp
  unfold Lossy
  rw [htrace]
  exact flawed_of_twice hborn _ _

theorem space_subset_owned (s : CommandRun) : [CommandBlock.space] ⊆ s.owned :=
  List.cons_subset_cons _ (List.nil_subset _)

theorem emits_deleted (hplace : s.place ≠ .nowhere) : s.Emits s.deleted :=
  (emits_afterUse hplace s.space_subset_owned).trans
    (emits_destroyed (s := s.afterUse [.space]) hplace)

theorem Sound.deleted (h : s.Sound) (hplace : s.place ≠ .nowhere)
    (hdestroys : s.cmd.DestroysOnce) : s.deleted.Sound :=
  (h.afterUse hplace s.space_subset_owned).destroyed hplace hdestroys

theorem Sound.lossy_deleted (h : s.Sound) (hplace : s.place ≠ .nowhere)
    (hdestroys : ¬ s.cmd.DestroysOnce) : s.deleted.Lossy :=
  (h.afterUse hplace s.space_subset_owned).lossy_destroyed hplace hdestroys

/-! ## One stage -/

theorem emits_staged (hplace : s.place ≠ .nowhere) (hblocks : blocks ⊆ s.owned)
    (a : StageAnswers) (n : ℕ) : s.Emits (s.staged a n blocks) := by
  unfold staged
  split_ifs
  · have hplace' : (s.afterUse blocks).place ≠ .nowhere := hplace
    exact (emits_afterUse hplace hblocks).trans (emits_afterSchedule hplace' a.room)
  · exact emits_afterUse hplace hblocks

theorem staged_place (s : CommandRun) (a : StageAnswers) (n : ℕ) (blocks : List CommandBlock) :
    (s.staged a n blocks).place = s.place := by
  unfold staged
  split_ifs <;> rfl

theorem Sound.staged (h : s.Sound) (hplace : s.place ≠ .nowhere) (hblocks : blocks ⊆ s.owned)
    {a : StageAnswers} {n : ℕ} (hroom : s.cmd.defers a n = true → a.room = true) :
    (s.staged a n blocks).Sound := by
  have huse := h.afterUse hplace hblocks
  unfold CommandRun.staged
  split_ifs with hdefers
  · rw [hroom hdefers]
    exact huse.afterSchedule hplace (SequencedCommand.size_ne_zero_of_defers hdefers)
  · exact huse

theorem Sound.lossy_staged (h : s.Sound) (hplace : s.place ≠ .nowhere)
    (hblocks : blocks ⊆ s.owned) {a : StageAnswers} {n : ℕ} (hdefers : s.cmd.defers a n = true)
    (hroom : a.room = false) : (s.staged a n blocks).Lossy := by
  unfold CommandRun.staged
  rw [if_pos hdefers, hroom]
  exact (h.afterUse hplace hblocks).lossy_afterSchedule hplace
    (SequencedCommand.size_ne_zero_of_defers hdefers)

theorem emits_dispatch (hplace : s.place ≠ .nowhere) (a : StageAnswers) (n : ℕ)
    (sendAgain : Bool) : s.Emits (s.dispatch a n sendAgain) := by
  unfold dispatch
  split
  · exact emits_moveTo hplace _
  · split
    · exact emits_deleted hplace
    · exact emits_moveTo hplace _

/-- The command gets on from a stage: it is deleted, or the fifo takes it. -/
def DispatchOk (s : CommandRun) (a : StageAnswers) (n : ℕ) (sendAgain : Bool) : Prop :=
  if sendAgain = false ∧ n % 2 = 1 then s.cmd.DestroysOnce else a.accepts = true

theorem Sound.dispatch (h : s.Sound) (hplace : s.place ≠ .nowhere) {a : StageAnswers} {n : ℕ}
    {sendAgain : Bool} (hok : s.DispatchOk a n sendAgain) :
    (s.dispatch a n sendAgain).Sound := by
  unfold DispatchOk at hok
  unfold CommandRun.dispatch
  cases sendAgain with
  | true =>
    have haccepts : a.accepts = true := hok
    rw [if_pos rfl, haccepts]
    exact h.moveTo hplace (by decide)
  | false =>
    by_cases hodd : n % 2 = 1
    · rw [if_pos ⟨rfl, hodd⟩] at hok
      rw [if_neg (by decide), if_pos hodd]
      exact h.deleted hplace hok
    · rw [if_neg fun hboth => hodd hboth.2] at hok
      rw [if_neg (by decide), if_neg hodd, hok]
      exact h.moveTo hplace (by decide)

theorem Sound.lossy_dispatch (h : s.Sound) (hplace : s.place ≠ .nowhere) {a : StageAnswers}
    {n : ℕ} {sendAgain : Bool} (hok : ¬ s.DispatchOk a n sendAgain) :
    (s.dispatch a n sendAgain).Lossy := by
  unfold DispatchOk at hok
  unfold CommandRun.dispatch
  cases sendAgain with
  | true =>
    have haccepts : a.accepts = false := Bool.eq_false_iff.mpr hok
    rw [if_pos rfl, haccepts]
    exact h.lossy_moveTo hplace
  | false =>
    by_cases hodd : n % 2 = 1
    · rw [if_pos ⟨rfl, hodd⟩] at hok
      rw [if_neg (by decide), if_pos hodd]
      exact h.lossy_deleted hplace hok
    · rw [if_neg fun hboth => hodd hboth.2] at hok
      rw [if_neg (by decide), if_neg hodd, Bool.eq_false_iff.mpr hok]
      exact h.lossy_moveTo hplace

/-- What the next stage needs, if it does not throw: room for the completion message in the
scheduler, and a way to get on. -/
def StageOk (s : CommandRun) (a : StageAnswers) : Prop :=
  s.cmd.throws true a s.cmd.mNextStage = true ∨
    (s.cmd.defers a s.cmd.mNextStage = true → a.room = true) ∧
      s.DispatchOk a s.cmd.mNextStage (s.cmd.returns a s.cmd.mNextStage)

/-- Where the message of a command that goes on may be is not decided by its stages. -/
theorem dispatchOk_staged {a : StageAnswers} {n : ℕ} (m : ℕ) :
    ((s.staged a n blocks).atStage m).DispatchOk a n (s.cmd.returns a n) ↔
      s.DispatchOk a n (s.cmd.returns a n) := by
  unfold DispatchOk
  split_ifs with hdeletes
  · unfold staged
    rw [SequencedCommand.defers_of_returns hdeletes.1]
    rfl
  · exact Iff.rfl

theorem emits_callNextStage (hplace : s.place ≠ .nowhere) (a : StageAnswers) :
    s.Emits ((callNextStage a).run s).2 := by
  rcases callNextStage_run a s with ⟨e, blocks, hblocks, -, hrun⟩ | ⟨blocks, hblocks, -, hrun⟩
  · rw [hrun]
    exact emits_afterUse hplace hblocks
  · rw [hrun]
    have hstaged := (emits_staged hplace hblocks a s.cmd.mNextStage).trans
      (emits_atStage _ (s.cmd.mNextStage + 1))
    rw [← staged_place s a s.cmd.mNextStage blocks] at hplace
    have hdispatch := emits_dispatch
      (s := (s.staged a s.cmd.mNextStage blocks).atStage (s.cmd.mNextStage + 1)) hplace a
      s.cmd.mNextStage (s.cmd.returns a s.cmd.mNextStage)
    exact hstaged.trans hdispatch

theorem Sound.callNextStage (h : s.Sound) (hplace : s.place ≠ .nowhere) {a : StageAnswers}
    (hok : s.StageOk a) : ((callNextStage a).run s).2.Sound := by
  rcases callNextStage_run a s with
    ⟨e, blocks, hblocks, -, hrun⟩ | ⟨blocks, hblocks, hthrows, hrun⟩
  · rw [hrun]
    exact h.afterUse hplace hblocks
  · rcases hok with hthrows' | ⟨hroom, hdispatch⟩
    · rw [hthrows] at hthrows'
      cases hthrows'
    · rw [hrun]
      have hstaged := (h.staged hplace hblocks hroom).atStage (s.cmd.mNextStage + 1)
      rw [← staged_place s a s.cmd.mNextStage blocks] at hplace
      exact hstaged.dispatch hplace ((dispatchOk_staged _).mpr hdispatch)

theorem Sound.lossy_callNextStage (h : s.Sound) (hplace : s.place ≠ .nowhere)
    {a : StageAnswers} (hok : ¬ s.StageOk a) : ((CommandM.callNextStage a).run s).2.Lossy := by
  obtain ⟨hthrows, hbad⟩ := not_or.mp hok
  rcases callNextStage_run a s with
    ⟨e, blocks, -, hthrows', -⟩ | ⟨blocks, hblocks, -, hrun⟩
  · exact absurd hthrows' hthrows
  · rw [hrun]
    have hplace' := hplace
    rw [← staged_place s a s.cmd.mNextStage blocks] at hplace'
    by_cases hroom : s.cmd.defers a s.cmd.mNextStage = true → a.room = true
    · have hdispatch := fun hdispatch => hbad ⟨hroom, hdispatch⟩
      have hstaged := (h.staged hplace hblocks hroom).atStage (s.cmd.mNextStage + 1)
      exact hstaged.lossy_dispatch hplace' (mt (dispatchOk_staged _).mp hdispatch)
    · obtain ⟨hdefers, hfull⟩ := Classical.not_imp.mp hroom
      have hlossy := h.lossy_staged hplace hblocks hdefers (Bool.eq_false_iff.mpr hfull)
      have hdispatch := emits_dispatch
        (s := (s.staged a s.cmd.mNextStage blocks).atStage (s.cmd.mNextStage + 1)) hplace' a
        s.cmd.mNextStage (s.cmd.returns a s.cmd.mNextStage)
      exact ((emits_atStage _ _).trans hdispatch).lossy hlossy

/-! ## The steps -/

/-- What the message of the command needs. -/
def PerformOk (s : CommandRun) (a : StageAnswers) : Prop :=
  (s.place = .doSequencedCommand → s.StageOk a) ∧
    (s.place = .freeSequencedCommand → s.cmd.DestroysOnce)

/-- What a step needs: an event may not throw, and may not be forgotten. -/
def StepOk (s : CommandRun) : CommandStep → Prop
  | .perform a => s.PerformOk a
  | .performEvent raises => s.scheduled = none ∨ raises = false
  | .clearSched => s.scheduled = none

instance (s : CommandRun) (a : StageAnswers) (n : ℕ) (sendAgain : Bool) :
    Decidable (s.DispatchOk a n sendAgain) :=
  inferInstanceAs
    (Decidable (if sendAgain = false ∧ n % 2 = 1 then s.cmd.DestroysOnce else a.accepts = true))

instance (s : CommandRun) (a : StageAnswers) : Decidable (s.StageOk a) :=
  inferInstanceAs (Decidable (_ ∨ _))

instance (s : CommandRun) (a : StageAnswers) : Decidable (s.PerformOk a) :=
  inferInstanceAs (Decidable (_ ∧ _))

instance (s : CommandRun) : ∀ e, Decidable (s.StepOk e)
  | .perform a => inferInstanceAs (Decidable (s.PerformOk a))
  | .performEvent raises => inferInstanceAs (Decidable (s.scheduled = none ∨ raises = false))
  | .clearSched => inferInstanceAs (Decidable (s.scheduled = none))

theorem emits_perform (s : CommandRun) (a : StageAnswers) : s.Emits (s.perform a) := by
  unfold perform
  split
  next hplace => exact emits_callNextStage (by rw [hplace]; decide) a
  next hplace =>
    rw [delete_run]
    exact emits_deleted (by rw [hplace]; decide)
  all_goals exact Emits.of_trace_eq rfl (List.Subset.refl _)

/-- The message is performed and freed, or it is forgotten. -/
theorem emits_of_scheduled (hcmd : s'.commandHolds = s.commandHolds)
    (hscheduled : s'.scheduled = none) {es : List (MemEvent CommandBlock)}
    (htrace : s'.trace = s.trace ++ es) (hes : ∀ e ∈ es, e.block ∈ s.scheduled.toList) :
    s.Emits s' := by
  refine ⟨es, htrace, fun e he => List.mem_append_right _ (hes e he), ?_⟩
  unfold holds
  rw [hcmd, hscheduled]
  exact List.append_subset.mpr ⟨List.subset_append_left _ _, List.nil_subset _⟩

/-- A message that was not freed is lost. -/
theorem Sound.lossy_of_scheduled (h : s.Sound) (hne : s.scheduled ≠ none)
    (hcmd : s'.commandHolds = s.commandHolds) (hscheduled : s'.scheduled = none)
    (hblocks : blocks ⊆ s.scheduled.toList) (htrace : s'.trace = s.trace ++ blocks.map .use) :
    s'.Lossy := by
  obtain ⟨b, hb⟩ := Option.ne_none_iff_exists'.mp hne
  have hdata : b ∈ s.scheduled.toList := by
    rw [hb]
    exact List.mem_singleton_self b
  have hnot : b ∉ s.commandHolds := fun hmem =>
    (List.nodup_append.mp h.holding.nodup).2.2 b hmem b hdata rfl
  unfold Lossy holds
  rw [htrace, hcmd, hscheduled]
  apply (h.holding.uses (List.Subset.trans hblocks (List.subset_append_right _ _))).flawed (b := b)
  · exact List.mem_append_right _ hdata
  · rw [List.mem_append, not_or]
    exact ⟨hnot, List.not_mem_nil⟩

theorem emits_performEvent (s : CommandRun) (raises : Bool) :
    s.Emits (s.performEvent raises) := by
  refine emits_of_scheduled rfl rfl (List.append_assoc _ _ _) ?_
  intro e he
  rcases List.mem_append.mp he with he | he
  · obtain ⟨b, hb, rfl⟩ := List.mem_map.mp he
    exact hb
  · cases raises with
    | true => cases he
    | false =>
      obtain ⟨b, hb, rfl⟩ := List.mem_map.mp he
      exact hb

theorem Sound.performEvent (h : s.Sound) : (s.performEvent false).Sound := by
  have hholding : Holding s.trace (s.commandHolds ++ s.scheduled.toList) := h.holding
  refine ⟨h.data, fun hne => absurd rfl hne, ?_⟩
  show Holding (s.trace ++ s.scheduled.toList.map .use ++ s.scheduled.toList.map .free)
    (s.commandHolds ++ [])
  rw [List.append_nil]
  apply Holding.frees
  exact (hholding.uses (List.subset_append_right _ _)).perm List.perm_append_comm

/-- Whatever happens to the command, nothing else is touched. -/
theorem emits_step (s : CommandRun) (e : CommandStep) : s.Emits (s.step e) := by
  cases e with
  | perform a => exact s.emits_perform a
  | performEvent raises => exact s.emits_performEvent raises
  | clearSched =>
    exact emits_of_scheduled rfl rfl (List.append_nil _).symm fun e he => absurd he List.not_mem_nil

theorem step_eq_self_of_scheduled (hnone : s.scheduled = none) :
    s.step .clearSched = s ∧ ∀ raises, s.performEvent raises = s := by
  obtain ⟨cmd, place, scheduled, trace⟩ := s
  obtain rfl : scheduled = none := hnone
  refine ⟨rfl, fun raises => ?_⟩
  unfold CommandRun.performEvent
  cases raises <;> simp

theorem Sound.perform (h : s.Sound) {a : StageAnswers} (hok : s.PerformOk a) :
    (s.perform a).Sound := by
  unfold CommandRun.perform
  cases hplace : s.place with
  | nowhere => exact h
  | inHand => exact h
  | doSequencedCommand => exact h.callNextStage (by rw [hplace]; decide) (hok.1 hplace)
  | freeSequencedCommand =>
    show (delete.run s).2.Sound
    rw [delete_run]
    exact h.deleted (by rw [hplace]; decide) (hok.2 hplace)

theorem Sound.lossy_perform (h : s.Sound) {a : StageAnswers} (hok : ¬ s.PerformOk a) :
    (s.perform a).Lossy := by
  unfold PerformOk at hok
  unfold CommandRun.perform
  cases hplace : s.place with
  | nowhere => simp [hplace] at hok
  | inHand => simp [hplace] at hok
  | doSequencedCommand =>
    have hstage : ¬ s.StageOk a := by simpa [hplace] using hok
    exact h.lossy_callNextStage (by rw [hplace]; decide) hstage
  | freeSequencedCommand =>
    have hdestroys : ¬ s.cmd.DestroysOnce := by simpa [hplace] using hok
    show (delete.run s).2.Lossy
    rw [delete_run]
    exact h.lossy_deleted (by rw [hplace]; decide) hdestroys

/-- A step that has what it needs keeps the memory in order. -/
theorem Sound.step (h : s.Sound) {e : CommandStep} (hok : s.StepOk e) : (s.step e).Sound := by
  cases e with
  | perform a => exact h.perform hok
  | performEvent raises =>
    rcases hok with hnone | hraises
    · show (s.performEvent raises).Sound
      rw [(step_eq_self_of_scheduled hnone).2]
      exact h
    · subst hraises
      exact h.performEvent
  | clearSched =>
    rw [(step_eq_self_of_scheduled hok).1]
    exact h

/-- A step that has not can not be made good. -/
theorem Sound.lossy_step (h : s.Sound) {e : CommandStep} (hok : ¬ s.StepOk e) :
    (s.step e).Lossy := by
  cases e with
  | perform a => exact h.lossy_perform hok
  | performEvent raises =>
    obtain ⟨hne, hraises⟩ := not_or.mp hok
    obtain rfl : raises = true := by simpa using hraises
    exact h.lossy_of_scheduled hne rfl rfl (List.Subset.refl _) (List.append_nil _)
  | clearSched =>
    exact h.lossy_of_scheduled hok rfl rfl (List.nil_subset _) (List.append_nil _).symm

/-! ## Whole runs -/

theorem Sound.run (h : s.Sound) {es : List CommandStep}
    (hok : Guarded CommandRun.step StepOk s es) :
    (Runs.run CommandRun.step s es).Sound :=
  invariant_of_guarded (I := Sound) (fun _ _ hs he => hs.step he) h hok

theorem Lossy.run (h : s.Lossy) (es : List CommandStep) : (Runs.run CommandRun.step s es).Lossy :=
  invariant (I := Lossy) (fun s e hs => (s.emits_step e).lossy hs) h es

theorem Sound.lossy_run (h : s.Sound) {es : List CommandStep}
    (hok : ¬ Guarded CommandRun.step StepOk s es) :
    (Runs.run CommandRun.step s es).Lossy := by
  induction es generalizing s with
  | nil => exact absurd trivial hok
  | cons e es ih =>
    by_cases he : s.StepOk e
    · exact ih (h.step he) fun hes => hok ⟨he, hes⟩
    · exact (h.lossy_step he).run es

theorem holds_of_finished (h : s.Finished) : s.holds = [] := by
  unfold holds commandHolds
  rw [if_pos h.1, h.2]
  rfl

theorem Lossy.not_releasedOnce (h : s.Lossy) (hfinished : s.Finished) :
    ¬ ReleasedOnce s.trace := by
  unfold Lossy at h
  rwa [holds_of_finished hfinished, flawed_nil_iff] at h

theorem Sound.releasedOnce (h : s.Sound) (hfinished : s.Finished) : ReleasedOnce s.trace := by
  have hholding := h.holding
  rwa [holds_of_finished hfinished, holding_nil_iff] at hholding

/-- When nothing refers to the command any more, its memory has been given back, unless it was
lost before. -/
theorem Sound.releasedOnce_iff (h : s.Sound) (es : List CommandStep)
    (hfinished : (Runs.run CommandRun.step s es).Finished) :
    ReleasedOnce (Runs.run CommandRun.step s es).trace ↔ Guarded CommandRun.step StepOk s es := by
  constructor
  · intro hreleased
    by_contra hok
    exact (h.lossy_run hok).not_releasedOnce hfinished hreleased
  · intro hok
    exact (h.run hok).releasedOnce hfinished

end CommandRun

end PoopWorms.Server
