import PoopWorms.Server.CommandRelease

/-!
# How a command gets its memory
-/

namespace PoopWorms.Server

open Lifetimes Raising Runs CommandM

/-! ## What Init allocates -/

namespace InitArgs

/-- The members that `Init` gets blocks for. -/
def members (a : InitArgs) : CommandClass → List CommandBlock
  | .bufGen => [.mData]
  | .sendFailure => [.mCmdName, .mErrString]
  | .recvSynthDef => [.mBuffer]
  | .bufAllocRead | .bufRead | .bufAllocReadChannel | .bufReadChannel | .bufWrite
  | .loadSynthDef | .loadSynthDefDir => if a.filename then [.mFilename] else []
  | _ => []

/-- There is something to put in `mMsgData`. -/
def hasMsg (a : InitArgs) : CommandClass → Bool
  | .sync | .bufGen | .audioQuit | .audioStatus | .notify | .sendFailure => false
  | .bufAlloc | .bufFree | .bufZero | .bufClose | .recvSynthDef => a.msgSize ≠ 0
  | .bufAllocRead | .bufRead | .bufAllocReadChannel | .bufReadChannel | .bufWrite
  | .loadSynthDef | .loadSynthDefDir => a.filename && a.msgSize ≠ 0
  | .sendReply => true
  | .asyncPlugIn => a.msgSize ≠ 0 && a.msgData

/-- The blocks that `Init` allocates, in order. -/
def wants (a : InitArgs) (cls : CommandClass) : List CommandBlock :=
  a.members cls ++ if a.hasMsg cls then [.mMsgData] else []

/-- `Init` throws. -/
def throws (a : InitArgs) (cls : CommandClass) : Prop :=
  cls = .recvSynthDef ∧ a.defSize = 0 ∨ ∃ b ∈ a.wants cls, a.finds b = false

/-- `Init` returns an error. -/
def errs (a : InitArgs) : CommandClass → Bool
  | .bufGen => !a.genName || !a.bufGen
  | .bufWrite => !a.filename || a.formatErr
  | .bufAllocRead | .bufRead | .bufAllocReadChannel | .bufReadChannel | .loadSynthDef
  | .loadSynthDefDir => !a.filename
  | _ => false

end InitArgs

namespace CommandRun

/-- The object is made, and some of the members, and maybe the message, have got their blocks. -/
def building (a : InitArgs) (cls : CommandClass) (members : List CommandBlock) (msg : Bool) :
    CommandRun where
  cmd :=
    { cls := cls
      mNextStage := 1
      members := members
      mMsgSize := if msg then a.msgSize else 0
      mMsgData := if msg then some .mMsgData else none
      time := a.time }
  place := .inHand
  scheduled := none
  trace := [.alloc .space] ++
    (members ++ if msg then [CommandBlock.mMsgData] else []).flatMap fun b => [.alloc b, .use b]

/-- Blocks other than the object have been allocated and used. -/
def Grows (s s' : CommandRun) : Prop :=
  s'.scheduled = s.scheduled ∧ ∃ es, s'.trace = s.trace ++ es ∧ ∀ e ∈ es, e.block ≠ .space

variable {s s' s'' : CommandRun}

theorem Grows.of_trace_eq (hscheduled : s'.scheduled = s.scheduled) (htrace : s'.trace = s.trace) :
    s.Grows s' := by
  refine ⟨hscheduled, [], by rw [htrace, List.append_nil], ?_⟩
  intro e he
  cases he

theorem Grows.trans (h : s.Grows s') (h' : s'.Grows s'') : s.Grows s'' := by
  obtain ⟨hscheduled, es, htrace, hes⟩ := h
  obtain ⟨hscheduled', es', htrace', hes'⟩ := h'
  refine ⟨hscheduled'.trans hscheduled, es ++ es', ?_, ?_⟩
  · rw [htrace', htrace, List.append_assoc]
  · intro e he
    rcases List.mem_append.mp he with he | he
    · exact hes e he
    · exact hes' e he

/-- A block is there when all before it are there. -/
theorem grows_building {members : List CommandBlock} (a : InitArgs) (cls : CommandClass)
    (hspace : .space ∉ members) :
    (building a cls [] false).Grows (building a cls members false) := by
  refine ⟨rfl, members.flatMap fun b => [.alloc b, .use b], ?_, ?_⟩
  · unfold building
    simp
  · intro e he
    obtain ⟨b, hb, he⟩ := List.mem_flatMap.mp he
    have hblock : e.block = b := by
      simp only [List.mem_cons, List.not_mem_nil, or_false] at he
      rcases he with rfl | rfl <;> rfl
    rw [hblock]
    rintro rfl
    exact hspace hb

end CommandRun

namespace CommandM

open CommandRun

/-- An exception comes out of `Init`; the object is still there. -/
def Fails {α : Type} (x : CommandM α) (s : CommandRun) : Prop :=
  ∃ e s', s.Grows s' ∧ x.run s = (.error e, s')

theorem Fails.bind {α β : Type} {x : CommandM α} {s : CommandRun} (h : Fails x s)
    (f : α → CommandM β) : Fails (x >>= f) s := by
  obtain ⟨e, s', hgrows, he⟩ := h
  exact ⟨e, s', hgrows, run_bind_error he⟩

theorem Fails.of_bind_ok {α β : Type} {x : CommandM α} {f : α → CommandM β} {s s' : CommandRun}
    {v : α} (hgrows : s.Grows s') (hok : x.run s = (.ok v, s')) (h : Fails (f v) s') :
    Fails (x >>= f) s := by
  obtain ⟨e, s'', hgrows', he⟩ := h
  exact ⟨e, s'', hgrows.trans hgrows', by rw [run_bind_ok hok, he]⟩

theorem allocMember_run (a : InitArgs) (cls : CommandClass) (members : List CommandBlock)
    (b : CommandBlock) :
    a.finds b = false ∧ Fails (allocMember a b) (building a cls members false) ∨
      a.finds b = true ∧ (allocMember a b).run (building a cls members false) =
        (.ok (), building a cls (members ++ [b]) false) := by
  unfold allocMember worldAlloc
  cases a.finds b with
  | false => exact .inl ⟨rfl, .noMemory, _, Grows.of_trace_eq rfl rfl, rfl⟩
  | true =>
    refine .inr ⟨rfl, ?_⟩
    have hbuilding : building a cls (members ++ [b]) false = { building a cls members false with
        cmd := { (building a cls members false).cmd with members := members ++ [b] }
        trace := (building a cls members false).trace ++ [.alloc b] ++ [.use b] } := by
      unfold building
      simp
    rw [hbuilding]
    rfl

/-- A message is copied, whatever its size is. -/
theorem allocMsgData_run (a : InitArgs) (cls : CommandClass) (members : List CommandBlock) :
    a.finds .mMsgData = false ∧
        Fails (setCmd (fun cmd => { cmd with mMsgSize := a.msgSize }) >>= fun _ => allocMsgData a)
          (building a cls members false) ∨
      a.finds .mMsgData = true ∧
        (setCmd (fun cmd => { cmd with mMsgSize := a.msgSize }) >>= fun _ => allocMsgData a).run
          (building a cls members false) = (.ok (), building a cls members true) := by
  unfold allocMsgData worldAlloc
  cases a.finds .mMsgData with
  | false =>
    have hgrows : (building a cls members false).Grows { building a cls members false with
        cmd := { (building a cls members false).cmd with mMsgSize := a.msgSize } } :=
      Grows.of_trace_eq rfl rfl
    exact .inl ⟨rfl, .noMemory, _, hgrows, rfl⟩
  | true =>
    refine .inr ⟨rfl, ?_⟩
    have hbuilding : building a cls members true = { building a cls members false with
        cmd := { (building a cls members false).cmd with
          mMsgSize := a.msgSize
          mMsgData := some .mMsgData }
        trace := (building a cls members false).trace ++ [.alloc .mMsgData] ++
          [.use .mMsgData] } := by
      unfold building
      simp
    rw [hbuilding]
    rfl

/-- `GET_COMPLETION_MSG` -/
theorem getCompletionMsg_run (a : InitArgs) (cls : CommandClass) (members : List CommandBlock) :
    (a.msgSize ≠ 0 ∧ a.finds .mMsgData = false) ∧
        Fails (getCompletionMsg a) (building a cls members false) ∨
      ¬ (a.msgSize ≠ 0 ∧ a.finds .mMsgData = false) ∧
        (getCompletionMsg a).run (building a cls members false) =
          (.ok (), building a cls members (a.msgSize ≠ 0)) := by
  unfold getCompletionMsg
  by_cases hsize : a.msgSize ≠ 0
  · rw [if_pos hsize, decide_eq_true hsize]
    rcases allocMsgData_run a cls members with ⟨hfinds, he⟩ | ⟨hfinds, hok⟩
    · exact .inl ⟨⟨hsize, hfinds⟩, he⟩
    · refine .inr ⟨?_, hok⟩
      rintro ⟨-, hfinds'⟩
      rw [hfinds] at hfinds'
      cases hfinds'
  · rw [if_neg hsize, decide_eq_false hsize]
    refine .inr ⟨fun h => hsize h.1, ?_⟩
    have hzero : a.msgSize = 0 := not_not.mp hsize
    rw [hzero]
    rfl

theorem initCompletion_run (a : InitArgs) (cls : CommandClass) (members : List CommandBlock) :
    (a.msgSize ≠ 0 ∧ a.finds .mMsgData = false) ∧
        Fails (initCompletion a) (building a cls members false) ∨
      ¬ (a.msgSize ≠ 0 ∧ a.finds .mMsgData = false) ∧
        (initCompletion a).run (building a cls members false) =
          (.ok false, building a cls members (a.msgSize ≠ 0)) := by
  rcases getCompletionMsg_run a cls members with ⟨hfinds, he⟩ | ⟨hfinds, hok⟩
  · exact .inl ⟨hfinds, he.bind _⟩
  · exact .inr ⟨hfinds, run_bind_ok hok⟩

theorem initFilename_run (a : InitArgs) (cls : CommandClass) :
    (a.filename = true ∧ (a.finds .mFilename = false ∨ a.msgSize ≠ 0 ∧ a.finds .mMsgData = false)) ∧
        Fails (initFilename a) (building a cls [] false) ∨
      ¬ (a.filename = true ∧
          (a.finds .mFilename = false ∨ a.msgSize ≠ 0 ∧ a.finds .mMsgData = false)) ∧
        (initFilename a).run (building a cls [] false) =
          (.ok (!a.filename), building a cls (if a.filename then [.mFilename] else [])
            (a.filename && a.msgSize ≠ 0)) := by
  unfold initFilename
  cases a.filename with
  | false =>
    refine .inr ⟨?_, rfl⟩
    rintro ⟨hfalse, -⟩
    cases hfalse
  | true =>
    rw [if_pos rfl, if_pos rfl, Bool.true_and]
    rcases allocMember_run a cls [] .mFilename with ⟨hfinds, he⟩ | ⟨hfinds, hok⟩
    · exact .inl ⟨⟨rfl, .inl hfinds⟩, he.bind _⟩
    · rcases initCompletion_run a cls [.mFilename] with ⟨hmsg, he⟩ | ⟨hmsg, hok'⟩
      · exact .inl ⟨⟨rfl, .inr hmsg⟩, he.of_bind_ok (grows_building a cls (by decide)) hok⟩
      · refine .inr ⟨?_, ?_⟩
        · rintro ⟨-, hfinds' | hmsg'⟩
          · rw [hfinds] at hfinds'
            cases hfinds'
          · exact hmsg hmsg'
        · rw [run_bind_ok hok]
          exact hok'

/-- What `Init` of a class does. -/
def Inits (a : InitArgs) (cls : CommandClass) : Prop :=
  a.throws cls ∧ Fails (init a cls) (building a cls [] false) ∨
    ¬ a.throws cls ∧ (init a cls).run (building a cls [] false) =
      (.ok (a.errs cls), building a cls (a.members cls) (a.hasMsg cls))

theorem inits_of_completion {a : InitArgs} {cls : CommandClass}
    (hinit : init a cls = initCompletion a) (hne : cls ≠ .recvSynthDef)
    (hmembers : a.members cls = []) (hmsg : a.hasMsg cls = decide (a.msgSize ≠ 0))
    (herrs : a.errs cls = false) : Inits a cls := by
  have hthrows : a.throws cls ↔ a.msgSize ≠ 0 ∧ a.finds .mMsgData = false := by
    unfold InitArgs.throws InitArgs.wants
    rw [hmembers, hmsg]
    simp [hne]
  unfold Inits
  rw [hthrows, hinit, hmembers, hmsg, herrs]
  exact initCompletion_run a cls []

theorem throws_iff_of_filename {a : InitArgs} {cls : CommandClass} (hne : cls ≠ .recvSynthDef)
    (hmembers : a.members cls = if a.filename then [.mFilename] else [])
    (hmsg : a.hasMsg cls = (a.filename && decide (a.msgSize ≠ 0))) :
    a.throws cls ↔ a.filename = true ∧
      (a.finds .mFilename = false ∨ a.msgSize ≠ 0 ∧ a.finds .mMsgData = false) := by
  unfold InitArgs.throws InitArgs.wants
  rw [hmembers, hmsg]
  cases a.filename <;> simp [hne]

theorem inits_of_filename {a : InitArgs} {cls : CommandClass}
    (hinit : init a cls = initFilename a) (hne : cls ≠ .recvSynthDef)
    (hmembers : a.members cls = if a.filename then [.mFilename] else [])
    (hmsg : a.hasMsg cls = (a.filename && decide (a.msgSize ≠ 0)))
    (herrs : a.errs cls = !a.filename) : Inits a cls := by
  unfold Inits
  rw [throws_iff_of_filename hne hmembers hmsg, hinit, hmembers, hmsg, herrs]
  exact initFilename_run a cls

theorem inits_of_nothing {a : InitArgs} {cls : CommandClass} (hinit : init a cls = pure false)
    (hne : cls ≠ .recvSynthDef) (hmembers : a.members cls = []) (hmsg : a.hasMsg cls = false)
    (herrs : a.errs cls = false) : Inits a cls := by
  unfold Inits
  rw [hinit, hmembers, hmsg, herrs]
  refine .inr ⟨?_, rfl⟩
  unfold InitArgs.throws InitArgs.wants
  rw [hmembers, hmsg]
  simp [hne]

theorem inits_bufWrite (a : InitArgs) : Inits a .bufWrite := by
  have hthrows : a.throws .bufWrite ↔ a.filename = true ∧
      (a.finds .mFilename = false ∨ a.msgSize ≠ 0 ∧ a.finds .mMsgData = false) :=
    throws_iff_of_filename (by decide) rfl rfl
  unfold Inits
  rw [hthrows]
  rcases initFilename_run a .bufWrite with ⟨hfinds, he⟩ | ⟨hfinds, hok⟩
  · exact .inl ⟨hfinds, he.bind _⟩
  · refine .inr ⟨hfinds, ?_⟩
    show (initBufWrite a).run _ = _
    unfold initBufWrite
    rw [run_bind_ok hok]
    rfl

theorem inits_bufGen (a : InitArgs) : Inits a .bufGen := by
  have hthrows : a.throws .bufGen ↔ a.finds .mData = false := by
    simp [InitArgs.throws, InitArgs.wants, InitArgs.members, InitArgs.hasMsg]
  unfold Inits
  rw [hthrows]
  rcases allocMember_run a .bufGen [] .mData with ⟨hfinds, he⟩ | ⟨hfinds, hok⟩
  · exact .inl ⟨hfinds, he.bind _⟩
  · refine .inr ⟨by rw [hfinds]; decide, ?_⟩
    show (initBufGen a).run _ = _
    unfold initBufGen
    rw [run_bind_ok hok]
    rfl

theorem inits_sendFailure (a : InitArgs) : Inits a .sendFailure := by
  have hthrows : a.throws .sendFailure ↔
      a.finds .mCmdName = false ∨ a.finds .mErrString = false := by
    simp [InitArgs.throws, InitArgs.wants, InitArgs.members, InitArgs.hasMsg]
  unfold Inits
  rw [hthrows]
  rcases allocMember_run a .sendFailure [] .mCmdName with ⟨hfinds, he⟩ | ⟨hfinds, hok⟩
  · exact .inl ⟨.inl hfinds, he.bind _⟩
  rcases allocMember_run a .sendFailure [.mCmdName] .mErrString with
    ⟨hfinds', he⟩ | ⟨hfinds', hok'⟩
  · exact .inl ⟨.inr hfinds', (he.bind _).of_bind_ok (grows_building a _ (by decide)) hok⟩
  · refine .inr ⟨by rw [hfinds, hfinds']; decide, ?_⟩
    show (initSendFailure a).run _ = _
    unfold initSendFailure
    rw [run_bind_ok hok]
    exact run_bind_ok hok'

theorem inits_recvSynthDef (a : InitArgs) : Inits a .recvSynthDef := by
  have hthrows : a.throws .recvSynthDef ↔ a.defSize = 0 ∨ a.finds .mBuffer = false ∨
      a.msgSize ≠ 0 ∧ a.finds .mMsgData = false := by
    simp [InitArgs.throws, InitArgs.wants, InitArgs.members, InitArgs.hasMsg]
  unfold Inits
  rw [hthrows]
  by_cases hzero : a.defSize = 0
  · refine .inl ⟨.inl hzero, .wrongArgType, _, Grows.of_trace_eq rfl rfl, ?_⟩
    show (initRecvSynthDef a).run _ = _
    unfold initRecvSynthDef
    rw [if_pos hzero]
    rfl
  have hinit : init a .recvSynthDef = allocMember a .mBuffer >>= fun _ => initCompletion a := by
    show initRecvSynthDef a = _
    unfold initRecvSynthDef
    rw [if_neg hzero]
    rfl
  rw [hinit]
  rcases allocMember_run a .recvSynthDef [] .mBuffer with ⟨hfinds, he⟩ | ⟨hfinds, hok⟩
  · exact .inl ⟨.inr (.inl hfinds), he.bind _⟩
  rcases initCompletion_run a .recvSynthDef [.mBuffer] with ⟨hmsg, he⟩ | ⟨hmsg, hok'⟩
  · exact .inl ⟨.inr (.inr hmsg), he.of_bind_ok (grows_building a _ (by decide)) hok⟩
  · refine .inr ⟨?_, ?_⟩
    · rw [hfinds]
      simp only [hzero, Bool.true_eq_false, false_or]
      exact hmsg
    · rw [run_bind_ok hok]
      exact hok'

theorem inits_sendReply (a : InitArgs) : Inits a .sendReply := by
  have hthrows : a.throws .sendReply ↔ a.finds .mMsgData = false := by
    simp [InitArgs.throws, InitArgs.wants, InitArgs.members, InitArgs.hasMsg]
  unfold Inits
  rw [hthrows]
  rcases allocMsgData_run a .sendReply [] with ⟨hfinds, he⟩ | ⟨hfinds, hok⟩
  · exact .inl ⟨hfinds, he.bind fun _ => pure false⟩
  · refine .inr ⟨by rw [hfinds]; decide, ?_⟩
    show ((setCmd (fun cmd => { cmd with mMsgSize := a.msgSize }) >>= fun _ => allocMsgData a) >>=
      fun _ => pure false).run _ = _
    rw [run_bind_ok hok]
    rfl

theorem inits_asyncPlugIn (a : InitArgs) : Inits a .asyncPlugIn := by
  have hthrows : a.throws .asyncPlugIn ↔
      (a.msgSize ≠ 0 ∧ a.msgData = true) ∧ a.finds .mMsgData = false := by
    simp [InitArgs.throws, InitArgs.wants, InitArgs.members, InitArgs.hasMsg]
  have hmsg : a.hasMsg .asyncPlugIn = decide (a.msgSize ≠ 0 ∧ a.msgData = true) := by
    simp [InitArgs.hasMsg]
  unfold Inits
  rw [hthrows, hmsg]
  by_cases hdata : a.msgSize ≠ 0 ∧ a.msgData = true
  · have hinit : init a .asyncPlugIn =
        (setCmd (fun cmd => { cmd with mMsgSize := a.msgSize }) >>= fun _ => allocMsgData a) >>=
          fun _ => pure false := by
      show initAsyncPlugIn a = _
      unfold initAsyncPlugIn
      rw [if_pos hdata]
      rfl
    rw [hinit, decide_eq_true hdata]
    rcases allocMsgData_run a .asyncPlugIn [] with ⟨hfinds, he⟩ | ⟨hfinds, hok⟩
    · exact .inl ⟨⟨hdata, hfinds⟩, he.bind _⟩
    · refine .inr ⟨by rw [hfinds]; simp, ?_⟩
      rw [run_bind_ok hok]
      rfl
  · rw [decide_eq_false hdata]
    refine .inr ⟨fun h => hdata h.1, ?_⟩
    show (initAsyncPlugIn a).run _ = _
    unfold initAsyncPlugIn
    rw [if_neg hdata]
    rfl

theorem inits (a : InitArgs) (cls : CommandClass) : Inits a cls := by
  cases cls
  case sync | audioQuit | audioStatus | notify =>
    exact inits_of_nothing rfl (by decide) rfl rfl rfl
  case bufAlloc | bufFree | bufZero | bufClose =>
    exact inits_of_completion rfl (by decide) rfl rfl rfl
  case bufAllocRead | bufRead | bufAllocReadChannel | bufReadChannel | loadSynthDef
      | loadSynthDefDir =>
    exact inits_of_filename rfl (by decide) rfl rfl rfl
  case bufWrite => exact inits_bufWrite a
  case bufGen => exact inits_bufGen a
  case sendFailure => exact inits_sendFailure a
  case recvSynthDef => exact inits_recvSynthDef a
  case sendReply => exact inits_sendReply a
  case asyncPlugIn => exact inits_asyncPlugIn a

end CommandM

/-! ## The first stages -/

/-- The state after `Init`. -/
def InitArgs.made (a : InitArgs) (cls : CommandClass) : CommandRun :=
  CommandRun.building a cls (a.members cls) (a.hasMsg cls)

namespace CommandRun

theorem wants_nodup (a : InitArgs) (cls : CommandClass) : (.space :: a.wants cls).Nodup := by
  unfold InitArgs.wants InitArgs.members InitArgs.hasMsg
  cases cls <;> split_ifs <;> decide

theorem sound_made (a : InitArgs) (cls : CommandClass) : (a.made cls).Sound := by
  have hnodup := wants_nodup a cls
  obtain ⟨hspace, hwants⟩ := List.nodup_cons.mp hnodup
  refine ⟨?_, fun hne => absurd rfl hne, ?_⟩
  · show (if a.hasMsg cls then a.msgSize else 0) ≠ 0 →
      (if a.hasMsg cls then some CommandBlock.mMsgData else none) ≠ none
    cases a.hasMsg cls <;> simp
  · have hfirst : Holding [MemEvent.alloc CommandBlock.space] [.space] :=
      holding_nil.alloc rfl
    have hall := hfirst.allocs hwants ?_
    · have hholds : (a.made cls).holds = .space :: a.wants cls := by
        show (.space :: (a.members cls ++
          (if a.hasMsg cls then some CommandBlock.mMsgData else none).toList)) ++ [] = _
        unfold InitArgs.wants
        cases a.hasMsg cls <;> simp
      rw [hholds]
      exact hall.perm (List.perm_append_singleton _ _)
    · intro b hb
      have hne : CommandBlock.space ≠ b := by
        rintro rfl
        exact hspace hb
      show life b ([] ++ [MemEvent.alloc CommandBlock.space]) = _
      rw [life_append_of_ne (by simpa [MemEvent.block] using hne)]
      rfl

/-- An exception of `Init` leaves at least the object allocated. -/
theorem lossy_of_grows {a : InitArgs} {cls : CommandClass} {s : CommandRun}
    (h : (building a cls [] false).Grows s) : (s.moveTo .nowhere).Lossy := by
  obtain ⟨hscheduled, es, htrace, hes⟩ := h
  refine ⟨.space, .inr ⟨?_, ?_⟩⟩
  · show life _ s.trace = _
    rw [htrace, life_append_of_ne hes]
    rfl
  · show .space ∉ s.scheduled.toList
    rw [hscheduled]
    exact List.not_mem_nil

/-- What the caller of `Init` does with its answer. -/
def afterInit (mRealTime : Bool) (stages : ℕ → StageAnswers) (err : Bool) : CommandM Unit :=
  if err then callDestructor >>= fun _ => worldFree [.space] >>= fun _ => put .nowhere
  else if mRealTime then callNextStage (stages 1)
  else callEveryStage stages

/-- An exception leaves the pointers of the caller behind. -/
def settle : Except Thrown Unit × CommandRun → CommandRun
  | (.ok _, s) => s
  | (.error _, s) => s.moveTo .nowhere

theorem issue_eq_of_finds {cls : CommandClass} {mRealTime : Bool} {a : InitArgs}
    {stages : ℕ → StageAnswers} (hfinds : a.finds .space = true) :
    issue cls mRealTime a stages =
      settle ((init a cls >>= afterInit mRealTime stages).run (building a cls [] false)) := by
  unfold issue callSequencedCommand worldAlloc
  rw [if_pos hfinds]
  rfl

theorem Uses.place_eq {s s' : CommandRun} (h : s.Uses s') : s'.place = s.place := by
  obtain ⟨blocks, -, n, rfl⟩ := h
  rfl

theorem Uses.destroysOnce_iff {s s' : CommandRun} (h : s.Uses s') :
    s'.cmd.DestroysOnce ↔ s.cmd.DestroysOnce := by
  obtain ⟨blocks, -, n, rfl⟩ := h
  rfl

theorem Sound.uses {s s' : CommandRun} (h : s.Sound) (hplace : s.place ≠ .nowhere)
    (huses : s.Uses s') : s'.Sound := by
  obtain ⟨blocks, hblocks, n, rfl⟩ := huses
  exact (h.afterUse hplace hblocks).atStage n

/-- What a command needs to be made, if there is memory for it at all: nothing throws, the fifo
takes it after its first stage, and outside real time it can be deleted. -/
def IssueOk (cls : CommandClass) (mRealTime : Bool) (a : InitArgs) (stages : ℕ → StageAnswers) :
    Prop :=
  a.finds .space = true → ¬ a.throws cls ∧
    (a.errs cls = false →
      if mRealTime then (stages 1).accepts = true
      else (a.made cls).cmd.everyThrows stages = false ∧ (a.made cls).cmd.DestroysOnce)

variable {cls : CommandClass} {mRealTime : Bool} {a : InitArgs} {stages : ℕ → StageAnswers}

theorem issue_eq_of_not_finds (hfinds : a.finds .space = false) :
    issue cls mRealTime a stages = ⟨⟨cls, 1, [], 0, none, a.time⟩, .nowhere, none, []⟩ := by
  unfold issue callSequencedCommand worldAlloc
  rw [hfinds]
  rfl

theorem destroysOnce_of_errs (herrs : a.errs cls = true) : (a.made cls).cmd.DestroysOnce := by
  intro hcls
  obtain rfl : cls = .asyncPlugIn := hcls
  cases herrs

theorem stageOk_made_iff {answers : StageAnswers} :
    (a.made cls).StageOk answers ↔ answers.accepts = true := by
  show (false = true ∨ (false = true → _) ∧ DispatchOk _ answers 1 true) ↔ _
  unfold DispatchOk
  simp

theorem afterInit_run_of_errs :
    (afterInit mRealTime stages true).run (a.made cls) = (.ok (), (a.made cls).destroyed) := by
  show (callDestructor >>= fun _ => worldFree [.space] >>= fun _ => put .nowhere).run _ = _
  rw [run_bind_ok (callDestructor_run _)]
  rfl

theorem made_place (a : InitArgs) (cls : CommandClass) : (a.made cls).place ≠ .nowhere := by
  show CommandPlace.inHand ≠ _
  decide

/-- The first stage does not throw. -/
theorem settle_callNextStage (a' : StageAnswers) :
    settle ((callNextStage a').run (a.made cls)) = ((callNextStage a').run (a.made cls)).2 := by
  rcases callNextStage_run a' (a.made cls) with ⟨e, blocks, -, hthrows, -⟩ | ⟨blocks, -, -, hrun⟩
  · cases hthrows
  · rw [hrun]
    rfl

theorem sound_callEveryStage (hthrows : (a.made cls).cmd.everyThrows stages = false)
    (hdestroys : (a.made cls).cmd.DestroysOnce) :
    (settle ((callEveryStage stages).run (a.made cls))).Sound := by
  rcases callEveryStage_run stages (a.made cls) with ⟨e, s', -, hthrows', -⟩ | ⟨s', huses, -, hrun⟩
  · rw [hthrows] at hthrows'
    cases hthrows'
  · rw [hrun]
    have hplace : s'.place ≠ .nowhere := by
      rw [huses.place_eq]
      exact made_place a cls
    have hsound := (sound_made a cls).uses (made_place a cls) huses
    exact hsound.deleted hplace (huses.destroysOnce_iff.mpr hdestroys)

theorem lossy_callEveryStage (hbad : ¬ ((a.made cls).cmd.everyThrows stages = false ∧
    (a.made cls).cmd.DestroysOnce)) :
    (settle ((callEveryStage stages).run (a.made cls))).Lossy := by
  rcases callEveryStage_run stages (a.made cls) with
    ⟨e, s', huses, -, hrun⟩ | ⟨s', huses, hthrows, hrun⟩
  all_goals
    have hplace : s'.place ≠ .nowhere := by
      rw [huses.place_eq]
      exact made_place a cls
    have hsound := (sound_made a cls).uses (made_place a cls) huses
    rw [hrun]
  · exact hsound.lossy_moveTo hplace
  · have hdestroys := fun hdestroys => hbad ⟨hthrows, hdestroys⟩
    exact hsound.lossy_deleted hplace (mt huses.destroysOnce_iff.mp hdestroys)

/-- A command that has what it needs is made with its memory in order. -/
theorem sound_issue (hok : IssueOk cls mRealTime a stages) :
    (issue cls mRealTime a stages).Sound := by
  cases hfinds : a.finds .space with
  | false =>
    rw [issue_eq_of_not_finds hfinds]
    exact ⟨fun h => absurd rfl h, fun h => absurd rfl h, holding_nil⟩
  | true =>
    obtain ⟨hthrows, hstages⟩ := hok hfinds
    rw [issue_eq_of_finds hfinds]
    rcases inits a cls with ⟨hthrows', -⟩ | ⟨-, hinit⟩
    · exact absurd hthrows' hthrows
    rw [run_bind_ok hinit]
    show (settle ((afterInit mRealTime stages (a.errs cls)).run (a.made cls))).Sound
    cases herrs : a.errs cls with
    | true =>
      rw [afterInit_run_of_errs]
      exact (sound_made a cls).destroyed (made_place a cls) (destroysOnce_of_errs herrs)
    | false =>
      have hok' := hstages herrs
      cases mRealTime with
      | true =>
        show (settle ((callNextStage (stages 1)).run (a.made cls))).Sound
        rw [settle_callNextStage]
        exact (sound_made a cls).callNextStage (made_place a cls) (stageOk_made_iff.mpr hok')
      | false => exact sound_callEveryStage hok'.1 hok'.2

/-- Otherwise some of it is lost. -/
theorem lossy_issue (hok : ¬ IssueOk cls mRealTime a stages) :
    (issue cls mRealTime a stages).Lossy := by
  obtain ⟨hfinds, hbad⟩ := Classical.not_imp.mp hok
  rw [issue_eq_of_finds hfinds]
  rcases inits a cls with ⟨-, e, s', hgrows, he⟩ | ⟨hthrows, hinit⟩
  · rw [run_bind_error he]
    exact lossy_of_grows hgrows
  · obtain ⟨herrs, hbad'⟩ := Classical.not_imp.mp fun hstages => hbad ⟨hthrows, hstages⟩
    rw [run_bind_ok hinit]
    show (settle ((afterInit mRealTime stages (a.errs cls)).run (a.made cls))).Lossy
    rw [herrs]
    cases mRealTime with
    | true =>
      show (settle ((callNextStage (stages 1)).run (a.made cls))).Lossy
      rw [settle_callNextStage]
      exact (sound_made a cls).lossy_callNextStage (made_place a cls) (mt stageOk_made_iff.mp hbad')
    | false => exact lossy_callEveryStage hbad'

/-! ## From the message to the end -/

/-- A command gives every block back once, and uses none after, if and only if it and all its
steps get what they need. -/
theorem memoryReleasedOnce (cls : CommandClass) (mRealTime : Bool) (a : InitArgs)
    (stages : ℕ → StageAnswers) (es : List CommandStep) :
    (IssueOk cls mRealTime a stages ∧ Guarded step StepOk (issue cls mRealTime a stages) es →
      ∀ b, life b (run step (issue cls mRealTime a stages) es).trace ≠ none) ∧
    ((run step (issue cls mRealTime a stages) es).Finished →
      (ReleasedOnce (run step (issue cls mRealTime a stages) es).trace ↔
        IssueOk cls mRealTime a stages ∧
          Guarded step StepOk (issue cls mRealTime a stages) es)) := by
  constructor
  · rintro ⟨hissue, hsteps⟩
    exact ((sound_issue hissue).run hsteps).holding.life_ne_none
  · intro hfinished
    by_cases hissue : IssueOk cls mRealTime a stages
    · rw [(sound_issue hissue).releasedOnce_iff es hfinished]
      exact ⟨fun hsteps => ⟨hissue, hsteps⟩, And.right⟩
    · have hlossy := (lossy_issue hissue).run es
      constructor
      · intro hreleased
        exact absurd hreleased (hlossy.not_releasedOnce hfinished)
      · rintro ⟨hissue', -⟩
        exact absurd hissue' hissue

/-- The completion message of `/b_alloc` may be a bundle for later, which the scheduler frees. -/
theorem memoryReleasedOnce_later :
    let a : InitArgs := ⟨false, false, false, false, 0, 24, true, some 5, fun _ => true⟩
    let answers : StageAnswers := ⟨false, true, true, false, true, true⟩
    ReleasedOnce (run step (issue .bufAlloc true a fun _ => answers)
      [.perform answers, .perform answers, .perform answers, .performEvent false,
        .perform answers]).trace := by
  intro a answers
  have hfinished : (run step (issue .bufAlloc true a fun _ => answers)
      [.perform answers, .perform answers, .perform answers, .performEvent false,
        .perform answers]).Finished := by decide
  apply ((memoryReleasedOnce .bufAlloc true a (fun _ => answers) _).2 hfinished).mpr
  constructor
  · intro _
    refine ⟨?_, fun _ => rfl⟩
    rintro (⟨hcls, -⟩ | ⟨b, -, hfinds⟩)
    · cases hcls
    · cases hfinds
  · decide

/-- A plug-in command with a completion message for now: its destructor frees the message, and
the destructor of its base class frees it again. -/
theorem not_memoryReleasedOnce : ¬ ∀ (cls : CommandClass) (mRealTime : Bool) (a : InitArgs)
    (stages : ℕ → StageAnswers) (es : List CommandStep),
    (run step (issue cls mRealTime a stages) es).Finished →
      ReleasedOnce (run step (issue cls mRealTime a stages) es).trace := by
  intro h
  let a : InitArgs := ⟨false, false, false, false, 0, 24, true, none, fun _ => true⟩
  let answers : StageAnswers := ⟨false, true, true, false, true, true⟩
  have hreleased := h .asyncPlugIn true a (fun _ => answers)
    [.perform answers, .perform answers, .perform answers, .perform answers] (by decide)
  rw [releasedOnce_iff] at hreleased
  exact absurd (hreleased .mMsgData) (by decide)

end CommandRun

end PoopWorms.Server
