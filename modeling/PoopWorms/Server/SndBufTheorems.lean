import PoopWorms.Lib.Mirror
import PoopWorms.Lib.Runs
import PoopWorms.Server.SndBuf

/-!
# The two copies of the sample buffers

The buffers with their two fifos are mirrored cells: stage 2 of a command is a change, stage
3 its delivery, and stage 4 frees the block that it left behind. A command that is refused
an allocation breaks this, since it frees the block that its buffer keeps.
-/

namespace PoopWorms.Server

open Mirror Runs

/-- The fields of a buffer in which its two copies have to agree. -/
structure Shape where
  data : Option Block
  channels : ℤ
  samples : ℤ
  frames : ℤ

def SndBuf.shape (buf : SndBuf) : Shape := ⟨buf.data, buf.channels, buf.samples, buf.frames⟩

namespace Shape

/-- The samples of a buffer are those of its frames. -/
def Full (v : Shape) : Prop := v.frames * v.channels = v.samples

end Shape

variable {γ : Type*} {bufGenFunc : γ → SndBuf → Option Block → SndBuf}

/-- What a `BufGen` may do: it keeps the samples where they are, or it takes the block that
is offered, and what it says about the samples stays true. -/
structure KeepsBlocks (bufGenFunc : γ → SndBuf → Option Block → SndBuf) : Prop where
  full : ∀ g buf block, buf.shape.Full → (bufGenFunc g buf block).shape.Full
  data : ∀ g buf block, (bufGenFunc g buf block).data = buf.data ∨
    (bufGenFunc g buf block).data = none ∨ (bufGenFunc g buf block).data = block

namespace BufCmd

/-- What `bufAlloc` is asked for in stage 2: the channels and the frames. -/
def request (c : BufCmd γ) (a : Answers) : Option (ℤ × ℤ) :=
  match c.command with
  | .alloc mNumFrames mNumChannels => some (mNumChannels, mNumFrames)
  | .allocRead mFileOffset mNumFrames =>
    a.file.map fun (_, fileinfo) =>
      (fileinfo.channels,
        clipNumFrames (clipFileOffset mFileOffset fileinfo) mNumFrames fileinfo)
  | .allocReadChannel mFileOffset mNumFrames mChannels =>
    match a.file with
    | none => none
    | some (_, fileinfo) =>
      let numFrames := clipNumFrames (clipFileOffset mFileOffset fileinfo) mNumFrames fileinfo
      if mChannels.length = 0 then some (fileinfo.channels, numFrames)
      else if checkChannels mChannels fileinfo.channels then some (mChannels.length, numFrames)
      else none
  | _ => none

/-- What stage 3 makes of the shape of a buffer. -/
def update (c : BufCmd γ) : Option Shape :=
  match c.command with
  | .alloc .. | .gen _ | .allocRead .. | .allocReadChannel .. => some c.mSndBuf.shape
  | .free => some SndBuf.zero.shape
  | _ => none

theorem shape_stage3 (c : BufCmd γ) (buf : SndBuf) :
    (c.stage3 buf).shape = c.update.getD buf.shape := by
  unfold stage3 update
  cases c.command <;> rfl

theorem stage4_eq (c : BufCmd γ) : c.stage4 = c.update.bind fun _ => c.mFreeData := by
  unfold stage4 update
  cases c.command <;> rfl

end BufCmd

/-- A request for `numFrames` of `numChannels` is granted, fails for want of memory, or is
for a buffer that holds no samples; its size is in the range of an `int`. -/
def Acceptable (live : Finset Block) (block : Option Block) (buf : SndBuf)
    (request : ℤ × ℤ) : Prop :=
  let numSamples := int32 (request.2 * request.1)
  (numSamples < 1 → buf.data = none) ∧
    (1 ≤ numSamples → (zalloc live block).isSome → request.2 * request.1 = numSamples)

instance (live : Finset Block) (block : Option Block) (buf : SndBuf) (request : ℤ × ℤ) :
    Decidable (Acceptable live block buf request) := inferInstanceAs (Decidable (_ ∧ _))

namespace BufWorld

/-- A second stage is for one of the buffers, and what it requests is acceptable. -/
def Safe (s : BufWorld γ) : BufAct γ → Prop
  | .performFromEngine a =>
    match s.mFromEngine with
    | .stage2 c :: _ =>
      (0 ≤ c.mBufIndex ∧ c.mBufIndex < s.mNumSndBufs) ∧ ∀ r ∈ c.request a,
        Acceptable s.live a.block (s.mSndBufsNonRealTimeMirror (s.bufPlace c.mBufIndex)) r
    | _ => True
  | _ => True

end BufWorld

/-! ## Stage 2 -/

theorem zalloc_eq_some {live : Finset Block} {block : Option Block} {b : Block} :
    zalloc live block = some b ↔ block = some b ∧ b ∉ live := by
  unfold zalloc
  rw [Option.filter_eq_some_iff, decide_eq_true_eq]

/-- What a stage that changes the buffer does. -/
structure Changes (live : Finset Block) (buf : SndBuf) (r : Stage2Result γ) : Prop where
  update : r.cmd.update = some r.buf.shape
  freed : r.cmd.mFreeData = left buf.data r.buf.data
  heap : r.live = live ∪ r.buf.data.toFinset
  ret : r.ret = true
  fresh : ∀ b, r.buf.data = some b → buf.data ≠ some b → b ∉ live
  full : buf.shape.Full → r.buf.shape.Full

/-- What a stage that does not change the buffer does. -/
structure Keeps (live : Finset Block) (buf : SndBuf) (r : Stage2Result γ) : Prop where
  shape : r.buf.shape = buf.shape
  heap : r.live = live
  update : r.ret = true → r.cmd.update = none

namespace BufCmd

variable {c : BufCmd γ} {live : Finset Block} {buf : SndBuf} {a : Answers} {rate : ℚ}
  {numChannels numFrames : ℤ}

theorem changes_allocate (hsafe : Acceptable live a.block buf (numChannels, numFrames))
    (hlive : ∀ b, buf.data = some b → b ∈ live)
    (hupdate : ∀ mFreeData mSndBuf, ({ c with mFreeData := mFreeData, mSndBuf := mSndBuf } :
      BufCmd γ).update = some mSndBuf.shape) :
    Changes live buf (c.allocate rate a live buf numChannels numFrames) := by
  obtain ⟨hrefused, hgranted⟩ := hsafe
  unfold allocate bufAlloc
  dsimp only at hrefused hgranted ⊢
  split_ifs with hsize
  · -- the buffer holds nothing, and stays so
    have hnone := hrefused hsize
    refine ⟨hupdate _ _, ?_, ?_, rfl, ?_, id⟩
    · show buf.data = left buf.data buf.data
      rw [hnone]
      rfl
    · show live = live ∪ buf.data.toFinset
      rw [hnone, Option.toFinset_none, Finset.union_empty]
    · intro b hb hne
      exact absurd hb hne
  · cases halloc : zalloc live a.block with
    | none =>
      refine ⟨hupdate _ _, ?_, ?_, rfl, nofun, id⟩
      · show buf.data = left buf.data none
        cases buf.data <;> rfl
      · show live = live ∪ Option.toFinset none
        rw [Option.toFinset_none, Finset.union_empty]
    | some b =>
      have hfresh := (zalloc_eq_some.mp halloc).2
      refine ⟨hupdate _ _, ?_, ?_, rfl, ?_, ?_⟩
      · show buf.data = left buf.data (some b)
        have hne : some b ≠ buf.data := by
          intro heq
          exact hfresh (hlive b heq.symm)
        rw [left, if_neg hne]
      · show insert b live = live ∪ (some b).toFinset
        rw [Option.toFinset_some, Finset.union_comm]
        rfl
      · rintro _ ⟨⟩ -
        exact hfresh
      · intro _
        rw [halloc] at hgranted
        exact hgranted (by omega) rfl

/-- A second stage changes the buffer, or keeps it and does not bring anything to stage 3. -/
theorem stage2_cases (hgen : KeepsBlocks bufGenFunc) (hlive : ∀ b, buf.data = some b → b ∈ live)
    (hsafe : ∀ r ∈ c.request a, Acceptable live a.block buf r) :
    Changes live buf (c.stage2 bufGenFunc rate a live buf) ∨
      Keeps live buf (c.stage2 bufGenFunc rate a live buf) := by
  obtain ⟨mBufIndex, command, mFreeData, mSndBuf, mSampleRate⟩ := c
  have hleave : ∀ leave sf, (buf.leaveOpen leave sf).shape = buf.shape := by
    intro leave sf
    unfold SndBuf.leaveOpen
    split_ifs <;> rfl
  cases command with
  | alloc mNumFrames mNumChannels =>
    exact .inl (changes_allocate (hsafe _ rfl) hlive fun _ _ => rfl)
  | gen mBufGen =>
    left
    have hdata := hgen.data mBufGen buf (zalloc live a.block)
    refine ⟨rfl, ?_, rfl, rfl, ?_, hgen.full mBufGen buf _⟩
    · rfl
    · intro b hb hne
      change (bufGenFunc mBufGen buf (zalloc live a.block)).data = some b at hb
      rw [hb] at hdata
      rcases hdata with hkept | hnone | hnew
      · exact absurd hkept.symm hne
      · cases hnone
      · exact (zalloc_eq_some.mp hnew.symm).2
  | free =>
    left
    refine ⟨rfl, ?_, ?_, rfl, nofun, fun _ => rfl⟩
    · show buf.data = left buf.data none
      cases buf.data <;> rfl
    · show live = live ∪ Option.toFinset none
      rw [Option.toFinset_none, Finset.union_empty]
  | zero => exact .inr ⟨rfl, rfl, fun _ => rfl⟩
  | allocRead mFileOffset mNumFrames =>
    unfold stage2
    dsimp only
    cases hfile : a.file with
    | none => exact .inr ⟨rfl, rfl, nofun⟩
    | some f =>
      left
      apply changes_allocate (hsafe _ _) hlive fun _ _ => rfl
      unfold request
      dsimp only
      rw [hfile]
      rfl
  | allocReadChannel mFileOffset mNumFrames mChannels =>
    unfold stage2
    unfold request at hsafe
    dsimp only at hsafe ⊢
    cases hfile : a.file with
    | none => exact .inr ⟨rfl, rfl, nofun⟩
    | some f =>
      rw [hfile] at hsafe
      dsimp only at hsafe ⊢
      split_ifs at hsafe ⊢
      · exact .inl (changes_allocate (hsafe _ rfl) hlive fun _ _ => rfl)
      · exact .inl (changes_allocate (hsafe _ rfl) hlive fun _ _ => rfl)
      · exact .inr ⟨rfl, rfl, nofun⟩
  | read mBufOffset mLeaveFileOpen =>
    right
    unfold stage2
    dsimp only
    split_ifs with hend
    · exact ⟨rfl, rfl, fun _ => rfl⟩
    · cases a.file with
      | none => exact ⟨rfl, rfl, nofun⟩
      | some f =>
        dsimp only
        split_ifs
        · exact ⟨rfl, rfl, nofun⟩
        · exact ⟨hleave _ _, rfl, fun _ => rfl⟩
  | readChannel mBufOffset mLeaveFileOpen mChannels =>
    right
    unfold stage2
    dsimp only
    split_ifs with hend
    · exact ⟨rfl, rfl, fun _ => rfl⟩
    · cases a.file with
      | none => exact ⟨rfl, rfl, nofun⟩
      | some f =>
        dsimp only
        split_ifs
        · exact ⟨rfl, rfl, nofun⟩
        · exact ⟨hleave _ _, rfl, fun _ => rfl⟩
  | write mLeaveFileOpen =>
    right
    unfold stage2
    dsimp only
    cases a.file with
    | none => exact ⟨rfl, rfl, nofun⟩
    | some f => exact ⟨hleave _ _, rfl, fun _ => rfl⟩
  | close => exact .inr ⟨rfl, rfl, fun _ => rfl⟩

/-- The stages of a command are about one buffer. -/
theorem mBufIndex_stage2 (c : BufCmd γ) (rate : ℚ) (a : Answers) (live : Finset Block)
    (buf : SndBuf) : (c.stage2 bufGenFunc rate a live buf).cmd.mBufIndex = c.mBufIndex := by
  unfold stage2 allocate
  dsimp only
  repeat' split
  all_goals rfl

end BufCmd

/-! ## The fifos as queues of changes -/

namespace BufWorld

/-- The change that a message to the real-time thread delivers. -/
def pendingOf (s : BufWorld γ) : ToEngine γ → Option (Update ℕ Shape Block)
  | .stage3 c => c.update.map fun v => ⟨s.bufPlace c.mBufIndex, v, c.mFreeData⟩
  | .freeSequencedCommand _ => none

/-- The block that a message to the non-real-time thread frees. -/
def reclaimOf : FromEngine γ → Option Block
  | .stage2 _ => none
  | .stage4 c => c.stage4

/-- The buffers as mirrored cells. -/
def toMirror (s : BufWorld γ) : Mirror.State ℕ Shape Block where
  front i := (s.mSndBufs i).shape
  back i := (s.mSndBufsNonRealTimeMirror i).shape
  pending := s.mToEngine.filterMap s.pendingOf
  reclaim := s.mFromEngine.filterMap reclaimOf
  live := s.live

theorem shape_update (bufs : ℕ → SndBuf) (place : ℕ) (buf : SndBuf) :
    (fun i => (Function.update bufs place buf i).shape) =
      Function.update (fun i => (bufs i).shape) place buf.shape := by
  funext i
  by_cases hi : i = place
  · rw [hi, Function.update_self, Function.update_self]
  · rw [Function.update_of_ne hi, Function.update_of_ne hi]

variable {s : BufWorld γ} {c : BufCmd γ} {a : Answers} {mFromEngine : List (FromEngine γ)}
  {mToEngine : List (ToEngine γ)}

theorem toMirror_start (c : BufCmd γ) : (s.start c).toMirror = s.toMirror := by
  unfold toMirror start
  rw [State.mk.injEq]
  refine ⟨rfl, rfl, rfl, ?_, rfl⟩
  rw [List.filterMap_append]
  exact List.append_nil _

/-- A second stage that changes the buffer is a change. -/
theorem toMirror_of_changes
    (h : Changes s.live (s.mSndBufsNonRealTimeMirror (s.bufPlace c.mBufIndex))
      (c.stage2 bufGenFunc s.mSampleRate a s.live
        (s.mSndBufsNonRealTimeMirror (s.bufPlace c.mBufIndex)))) :
    (s.performStage2 bufGenFunc a c).toMirror =
      Mirror.change Shape.data s.toMirror (s.bufPlace c.mBufIndex)
        (c.stage2 bufGenFunc s.mSampleRate a s.live
          (s.mSndBufsNonRealTimeMirror (s.bufPlace c.mBufIndex))).buf.shape := by
  have hplace : (c.stage2 bufGenFunc s.mSampleRate a s.live
      (s.mSndBufsNonRealTimeMirror (s.bufPlace c.mBufIndex))).cmd.mBufIndex = c.mBufIndex :=
    c.mBufIndex_stage2 ..
  unfold performStage2 toMirror Mirror.change
  dsimp only
  generalize c.stage2 bufGenFunc s.mSampleRate a s.live
    (s.mSndBufsNonRealTimeMirror (s.bufPlace c.mBufIndex)) = r at h hplace ⊢
  rw [State.mk.injEq]
  refine ⟨rfl, shape_update _ _ _, ?_, rfl, h.heap⟩
  show (s.mToEngine ++ [_]).filterMap s.pendingOf = _
  rw [List.filterMap_append, h.ret, if_pos rfl]
  congr 1
  show (r.cmd.update.map fun v => (⟨s.bufPlace r.cmd.mBufIndex, v, r.cmd.mFreeData⟩ :
    Update ℕ Shape Block)).toList = _
  rw [h.update, h.freed, hplace]
  rfl

/-- Any other second stage is nothing to the mirror. -/
theorem toMirror_of_keeps
    (h : Keeps s.live (s.mSndBufsNonRealTimeMirror (s.bufPlace c.mBufIndex))
      (c.stage2 bufGenFunc s.mSampleRate a s.live
        (s.mSndBufsNonRealTimeMirror (s.bufPlace c.mBufIndex)))) :
    (s.performStage2 bufGenFunc a c).toMirror = s.toMirror := by
  unfold performStage2 toMirror
  dsimp only
  generalize c.stage2 bufGenFunc s.mSampleRate a s.live
    (s.mSndBufsNonRealTimeMirror (s.bufPlace c.mBufIndex)) = r at h ⊢
  rw [State.mk.injEq]
  refine ⟨rfl, ?_, ?_, rfl, h.heap⟩
  · rw [shape_update, h.shape]
    exact Function.update_eq_self _ _
  · show (s.mToEngine ++ [_]).filterMap s.pendingOf = _
    rw [List.filterMap_append]
    cases hret : r.ret with
    | false => exact List.append_nil _
    | true =>
      show _ ++ (r.cmd.update.map fun v => (⟨s.bufPlace r.cmd.mBufIndex, v, r.cmd.mFreeData⟩ :
        Update ℕ Shape Block)).toList = _
      rw [h.update hret]
      exact List.append_nil _

/-- A third stage delivers the change of its command, if that has one. -/
theorem toMirror_performStage3 (completion : List (BufCmd γ))
    (hs : s.mToEngine = .stage3 c :: mToEngine) :
    ({ s with mToEngine := mToEngine }.performStage3 completion c).toMirror =
        Mirror.deliver s.toMirror ∨
      ({ s with mToEngine := mToEngine }.performStage3 completion c).toMirror = s.toMirror := by
  have hcompletion : (completion.map FromEngine.stage2).filterMap reclaimOf = [] := by
    rw [List.filterMap_map]
    exact List.filterMap_eq_nil_iff.mpr fun _ _ => rfl
  have hfront : (fun i => (Function.update s.mSndBufs (s.bufPlace c.mBufIndex)
      (c.stage3 (s.mSndBufs (s.bufPlace c.mBufIndex))) i).shape) =
      Function.update (fun i => (s.mSndBufs i).shape) (s.bufPlace c.mBufIndex)
        (c.update.getD (s.mSndBufs (s.bufPlace c.mBufIndex)).shape) := by
    rw [shape_update, BufCmd.shape_stage3]
  have hqueue : (s.mFromEngine ++ completion.map FromEngine.stage2 ++
      [FromEngine.stage4 c]).filterMap reclaimOf =
      s.mFromEngine.filterMap reclaimOf ++ (c.update.bind fun _ => c.mFreeData).toList := by
    rw [List.filterMap_append, List.filterMap_append, hcompletion, List.append_nil, ← c.stage4_eq]
    rfl
  cases hupdate : c.update with
  | none =>
    right
    have hnone : s.pendingOf (.stage3 c) = none := by
      rw [pendingOf, hupdate]
      rfl
    rw [hupdate] at hfront hqueue
    unfold performStage3 toMirror
    rw [State.mk.injEq]
    refine ⟨?_, rfl, ?_, ?_, rfl⟩
    · apply hfront.trans
      exact Function.update_eq_self _ _
    · rw [hs, List.filterMap_cons_none hnone]
      rfl
    · exact hqueue.trans (List.append_nil _)
  | some v =>
    left
    have hsome : s.pendingOf (.stage3 c) =
        some ⟨s.bufPlace c.mBufIndex, v, c.mFreeData⟩ := by
      rw [pendingOf, hupdate]
      rfl
    have hpending : s.toMirror.pending =
        ⟨s.bufPlace c.mBufIndex, v, c.mFreeData⟩ :: mToEngine.filterMap s.pendingOf := by
      show s.mToEngine.filterMap s.pendingOf = _
      rw [hs, List.filterMap_cons_some hsome]
    rw [hupdate] at hfront hqueue
    unfold Mirror.deliver
    rw [hpending]
    unfold performStage3 toMirror
    rw [State.mk.injEq]
    exact ⟨hfront, rfl, rfl, hqueue, rfl⟩

/-- A fourth stage frees what its command left behind, if it did. -/
theorem toMirror_performStage4 (hs : s.mFromEngine = .stage4 c :: mFromEngine) :
    ({ s with mFromEngine := mFromEngine }.performStage4 c).toMirror = Mirror.free s.toMirror ∨
      ({ s with mFromEngine := mFromEngine }.performStage4 c).toMirror = s.toMirror := by
  have hpending : (s.mToEngine ++ [ToEngine.freeSequencedCommand c]).filterMap s.pendingOf =
      s.mToEngine.filterMap s.pendingOf := by
    rw [List.filterMap_append]
    exact List.append_nil _
  cases hfree : c.stage4 with
  | none =>
    right
    unfold performStage4 toMirror
    rw [hfree, State.mk.injEq]
    refine ⟨rfl, rfl, hpending, ?_, ?_⟩
    · rw [hs, List.filterMap_cons_none (show reclaimOf (.stage4 c) = none from hfree)]
    · rw [Option.toFinset_none, Finset.sdiff_empty]
  | some b =>
    left
    have hreclaim : s.toMirror.reclaim = b :: mFromEngine.filterMap reclaimOf := by
      show s.mFromEngine.filterMap reclaimOf = _
      rw [hs, List.filterMap_cons_some (show reclaimOf (.stage4 c) = some b from hfree)]
    unfold Mirror.free
    rw [hreclaim]
    unfold performStage4 toMirror
    rw [hfree, State.mk.injEq]
    refine ⟨rfl, rfl, hpending, rfl, ?_⟩
    rw [Option.toFinset_some, Finset.sdiff_singleton_eq_erase]

/-! ## Runs -/

/-- What every run keeps whose second stages are safe. -/
structure Mirrored (s : BufWorld γ) : Prop where
  inv : Inv Shape.data s.toMirror
  full : All Shape.Full s.toMirror

theorem Mirrored.new (mNumSndBufs : ℕ) (mSampleRate : ℚ) :
    Mirrored (BufWorld.new mNumSndBufs mSampleRate : BufWorld γ) where
  inv := Inv.new (fun _ => SndBuf.zero.shape) fun _ => rfl
  full := ⟨fun _ => rfl, fun _ => rfl, nofun⟩

theorem Mirrored.step (hgen : KeepsBlocks bufGenFunc) (h : Mirrored s) (e : BufAct γ)
    (hsafe : s.Safe e) : Mirrored (s.step bufGenFunc e) := by
  cases e with
  | start c =>
    show Mirrored (s.start c)
    exact ⟨toMirror_start (s := s) c ▸ h.inv, toMirror_start (s := s) c ▸ h.full⟩
  | performFromEngine a =>
    unfold BufWorld.step
    unfold Safe at hsafe
    dsimp only at hsafe ⊢
    cases hs : s.mFromEngine with
    | nil => exact h
    | cons m mFromEngine =>
      rw [hs] at hsafe
      cases m with
      | stage2 c =>
        -- taking the message off the fifo is nothing to the mirror
        have hsame : { s with mFromEngine := mFromEngine }.toMirror = s.toMirror := by
          unfold toMirror
          rw [hs]
          rfl
        have hlive : ∀ b, (s.mSndBufsNonRealTimeMirror (s.bufPlace c.mBufIndex)).data = some b →
            b ∈ s.live := h.inv.back_live (s.bufPlace c.mBufIndex)
        dsimp only
        have hcases : Changes s.live _ (c.stage2 bufGenFunc s.mSampleRate a s.live _) ∨ Keeps s.live _ _ :=
          c.stage2_cases hgen hlive hsafe.2
        rcases hcases with hchanges | hkeeps
        · have hmirror := toMirror_of_changes (s := { s with mFromEngine := mFromEngine }) hchanges
          rw [hsame] at hmirror
          constructor
          · rw [hmirror]
            exact h.inv.change hchanges.fresh
          · rw [hmirror]
            exact h.full.change (hchanges.full (h.full.back _))
        · have hmirror := toMirror_of_keeps (s := { s with mFromEngine := mFromEngine }) hkeeps
          rw [hsame] at hmirror
          exact ⟨hmirror ▸ h.inv, hmirror ▸ h.full⟩
      | stage4 c =>
        dsimp only
        rcases toMirror_performStage4 hs with hmirror | hmirror
        · exact ⟨hmirror ▸ h.inv.free, hmirror ▸ h.full.free⟩
        · exact ⟨hmirror ▸ h.inv, hmirror ▸ h.full⟩
  | performToEngine completion =>
    unfold BufWorld.step
    dsimp only
    cases hs : s.mToEngine with
    | nil => exact h
    | cons m mToEngine =>
      cases m with
      | stage3 c =>
        dsimp only
        rcases toMirror_performStage3 completion hs with hmirror | hmirror
        · exact ⟨hmirror ▸ h.inv.deliver, hmirror ▸ h.full.deliver⟩
        · exact ⟨hmirror ▸ h.inv, hmirror ▸ h.full⟩
      | freeSequencedCommand c =>
        have hsame : { s with mToEngine := mToEngine }.toMirror = s.toMirror := by
          unfold toMirror
          rw [hs]
          rfl
        exact ⟨hsame ▸ h.inv, hsame ▸ h.full⟩

theorem Mirrored.consistent (h : Mirrored s) : Consistent s where
  agree hfrom hto i _ := by
    have hpending : s.toMirror.pending = [] := by
      show s.mToEngine.filterMap s.pendingOf = []
      rw [hto]
      rfl
    have hshape := congrFun (h.inv.front_eq_back hpending) i
    obtain ⟨hdata, hchannels, hsamples, hframes⟩ := Shape.mk.inj hshape
    exact ⟨hdata, hsamples, hframes, hchannels⟩
  samples i _ := ⟨h.full.front i, h.full.back i⟩
  data i _ b hb := by
    refine ⟨h.inv.front_live (i := i) hb, fun j _ hne => ⟨?_, ?_⟩⟩
    · intro hj
      exact hne (h.inv.front_inj (i := i) (j := j) hb (.inl hj)).symm
    · intro hj
      exact hne (h.inv.front_inj (i := i) (j := j) hb (.inr hj)).symm

/-- In every run whose second stages are for one of the buffers and request sizes that are
acceptable, the two copies of the buffers are consistent. -/
theorem consistent_run (hgen : KeepsBlocks bufGenFunc) (mNumSndBufs : ℕ) (mSampleRate : ℚ)
    (es : List (BufAct γ))
    (hsafe : Guarded (BufWorld.step bufGenFunc) Safe (.new mNumSndBufs mSampleRate) es) :
    Consistent (run (BufWorld.step bufGenFunc) (.new mNumSndBufs mSampleRate) es) :=
  (invariant_of_guarded (fun _ e h hsafe => h.step hgen e hsafe)
    (Mirrored.new mNumSndBufs mSampleRate) hsafe).consistent

/-- A `BufGen` that fills the samples, as `sine1` does. -/
def fillInPlace : Unit → SndBuf → Option Block → SndBuf := fun _ buf _ => buf

theorem keepsBlocks_fillInPlace : KeepsBlocks fillInPlace where
  full _ _ _ h := h
  data _ _ _ := .inl rfl

/-- All stages of one command, when nothing else is in flight. -/
def allStages (c : BufCmd Unit) (block : Option Block) : List (BufAct Unit) :=
  [.start c, .performFromEngine ⟨block, none⟩, .performToEngine [], .performFromEngine ⟨none, none⟩,
    .performToEngine []]

theorem consistent_run_alloc_gen :
    Consistent (run (BufWorld.step fillInPlace) (.new 2 44100)
      (allStages (.new 1 (.alloc 4 2)) (some 0) ++ allStages (.new 1 (.gen ())) none)) := by
  apply consistent_run keepsBlocks_fillInPlace
  refine ⟨trivial, ⟨by decide, ?_⟩, trivial, trivial, trivial, trivial, ⟨by decide, nofun⟩,
    trivial, trivial, trivial, trivial⟩
  rintro _ ⟨⟩
  decide

/-- A buffer with samples that is allocated again with no frames keeps a freed block. -/
theorem not_consistent_alloc_zero :
    ¬ Consistent (run (BufWorld.step fillInPlace) (.new 2 44100)
      (allStages (.new 1 (.alloc 4 2)) (some 0) ++ allStages (.new 1 (.alloc 0 2)) none)) := by
  intro h
  have hlive := (h.data 1 (by decide) 0 (by decide)).1
  revert hlive
  decide

end BufWorld

end PoopWorms.Server
