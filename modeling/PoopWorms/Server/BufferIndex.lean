import PoopWorms.Server.SndBufTheorems

/-!
# The indices of buffer commands

What a command may change depends on its index alone, in each of its stages: `World_GetBuf` and
`World_GetNRTBuf` take an index that is too large for that of buffer 0, and the update counters
are addressed with the index as it is. `World_CopySndBuf`, which a client calls in between,
counts what has been read.
-/

namespace PoopWorms.Server

open Runs

variable {γ : Type*} {bufGenFunc : γ → SndBuf → Option Block → SndBuf}

/-! ## Reading a buffer out -/

/-- The buffers, and how many writes of each have been read. -/
structure TalliedWorld (γ : Type*) where
  world : BufWorld γ
  /-- `SndBufUpdates::reads` -/
  reads : ℤ → ℕ

/-- The steps of the two threads and of a client. -/
inductive TalliedAct (γ : Type*)
  | act (e : BufAct γ)
  | copySndBuf (index : ℕ) (onlyIfChanged : Bool)

namespace TalliedWorld

/-- `World_CopySndBuf`, without the copy itself. -/
def copySndBuf (s : TalliedWorld γ) (index : ℕ) (onlyIfChanged : Bool) : TalliedWorld γ :=
  if index > s.world.mNumSndBufs then s
  else
    let writes := s.world.mSndBufUpdates index
    let didChange := s.reads index ≠ writes
    if onlyIfChanged = false ∨ didChange then
      { s with reads := Function.update s.reads index writes }
    else s

def step (bufGenFunc : γ → SndBuf → Option Block → SndBuf) (s : TalliedWorld γ) :
    TalliedAct γ → TalliedWorld γ
  | .act e => { s with world := s.world.step bufGenFunc e }
  | .copySndBuf index onlyIfChanged => s.copySndBuf index onlyIfChanged

end TalliedWorld

/-- The index as a `uint32`. -/
def asUInt32 (index : ℤ) : ℕ := (index % 2 ^ 32).toNat

theorem asUInt32_of_lt {index : ℤ} (h : 0 ≤ index) (h' : index < 2 ^ 32) :
    (asUInt32 index : ℤ) = index := by
  unfold asUInt32
  omega

def FromEngine.mBufIndex : FromEngine γ → ℤ
  | stage2 c => c.mBufIndex
  | stage4 c => c.mBufIndex

def ToEngine.mBufIndex : ToEngine γ → ℤ
  | stage3 c => c.mBufIndex
  | freeSequencedCommand c => c.mBufIndex

namespace BufWorld

variable {s : BufWorld γ}

/-- The indices of the commands that a step brings in. -/
def indicesOf : BufAct γ → List ℤ
  | .start c => [c.mBufIndex]
  | .performFromEngine _ => []
  | .performToEngine completion => completion.map BufCmd.mBufIndex

/-- The indices of the commands on their way. -/
def inFlight (s : BufWorld γ) : List ℤ :=
  s.mFromEngine.map FromEngine.mBufIndex ++ s.mToEngine.map ToEngine.mBufIndex

/-! ## One step -/

/-- From `s` to `s'` only places and counters of the indices for which `P` holds have changed. -/
structure ChangesOnly (P : ℤ → Prop) (s s' : BufWorld γ) : Prop where
  size : s'.mNumSndBufs = s.mNumSndBufs
  bufs : ∀ j, (∀ i, P i → s.bufPlace i ≠ j) → s'.mSndBufs j = s.mSndBufs j
  mirror : ∀ j, (∀ i, P i → s.bufPlace i ≠ j) →
    s'.mSndBufsNonRealTimeMirror j = s.mSndBufsNonRealTimeMirror j
  updates : ∀ j : ℤ, (∀ i, P i → i ≠ j) → s'.mSndBufUpdates j = s.mSndBufUpdates j

theorem ChangesOnly.refl (P : ℤ → Prop) (s : BufWorld γ) : ChangesOnly P s s :=
  ⟨rfl, fun _ _ => rfl, fun _ _ => rfl, fun _ _ => rfl⟩

theorem ChangesOnly.trans {P : ℤ → Prop} {s s' s'' : BufWorld γ} (h : ChangesOnly P s s')
    (h' : ChangesOnly P s' s'') : ChangesOnly P s s'' := by
  have hplace : ∀ i, s'.bufPlace i = s.bufPlace i := by
    intro i
    unfold bufPlace
    rw [h.size]
  refine ⟨h'.size.trans h.size, fun j hj => ?_, fun j hj => ?_, fun j hj => ?_⟩
  · exact (h'.bufs j fun i hi => hplace i ▸ hj i hi).trans (h.bufs j hj)
  · exact (h'.mirror j fun i hi => hplace i ▸ hj i hi).trans (h.mirror j hj)
  · exact (h'.updates j hj).trans (h.updates j hj)

theorem ChangesOnly.mono {P Q : ℤ → Prop} {s s' : BufWorld γ} (h : ChangesOnly P s s')
    (hPQ : ∀ i, P i → Q i) : ChangesOnly Q s s' :=
  ⟨h.size, fun j hj => h.bufs j fun i hi => hj i (hPQ i hi),
    fun j hj => h.mirror j fun i hi => hj i (hPQ i hi),
    fun j hj => h.updates j fun i hi => hj i (hPQ i hi)⟩

variable (bufGenFunc) in
/-- A step changes what the indices of the commands on their way reach, and nothing else. -/
theorem changesOnly_step (e : BufAct γ) : ChangesOnly (· ∈ s.inFlight) s (s.step bufGenFunc e) := by
  cases e with
  | start c => exact ⟨rfl, fun _ _ => rfl, fun _ _ => rfl, fun _ _ => rfl⟩
  | performFromEngine a =>
    cases hqueue : s.mFromEngine with
    | nil =>
      unfold step
      simp only [hqueue]
      exact .refl _ _
    | cons m ms =>
      have hmem : m.mBufIndex ∈ s.inFlight := by
        unfold inFlight
        rw [hqueue]
        exact List.mem_append_left _ List.mem_cons_self
      cases m with
      | stage2 c =>
        unfold step
        simp only [hqueue]
        refine ⟨rfl, fun _ _ => rfl, fun j hj => ?_, fun _ _ => rfl⟩
        exact Function.update_of_ne (hj _ hmem).symm ..
      | stage4 c =>
        unfold step
        simp only [hqueue]
        exact ⟨rfl, fun _ _ => rfl, fun _ _ => rfl, fun _ _ => rfl⟩
  | performToEngine completion =>
    cases hqueue : s.mToEngine with
    | nil =>
      unfold step
      simp only [hqueue]
      exact .refl _ _
    | cons m ms =>
      have hmem : m.mBufIndex ∈ s.inFlight := by
        unfold inFlight
        rw [hqueue]
        exact List.mem_append_right _ List.mem_cons_self
      cases m with
      | stage3 c =>
        unfold step
        simp only [hqueue]
        refine ⟨rfl, fun j hj => ?_, fun _ _ => rfl, fun j hj => ?_⟩
        · exact Function.update_of_ne (hj _ hmem).symm ..
        · -- the counter is that of the index itself
          unfold performStage3
          dsimp only
          split_ifs
          · exact Function.update_of_ne (hj _ hmem).symm ..
          · rfl
      | freeSequencedCommand c =>
        unfold step
        simp only [hqueue]
        exact ⟨rfl, fun _ _ => rfl, fun _ _ => rfl, fun _ _ => rfl⟩

variable (bufGenFunc) in
/-- The commands on their way after a step were on their way before, or the step brought them
in. -/
theorem inFlight_step (e : BufAct γ) :
    ∀ i ∈ (s.step bufGenFunc e).inFlight, i ∈ s.inFlight ++ indicesOf e := by
  cases e with
  | start c =>
    intro i hi
    simp only [step, start, inFlight, indicesOf, List.map_append, List.map_cons, List.map_nil,
      List.mem_append, List.mem_singleton, FromEngine.mBufIndex] at hi ⊢
    tauto
  | performFromEngine a =>
    cases hqueue : s.mFromEngine with
    | nil =>
      unfold step
      simp only [hqueue]
      exact fun i hi => List.mem_append_left _ hi
    | cons m ms =>
      intro i hi
      cases m with
      | stage2 c =>
        simp only [step, hqueue, performStage2, inFlight, List.map_append, List.map_cons,
          List.map_nil, List.mem_append, List.mem_singleton] at hi ⊢
        rcases hi with hold | hold | hnew
        · exact .inl (.inl (List.mem_cons_of_mem _ hold))
        · exact .inl (.inr hold)
        · left
          left
          rw [hnew, List.mem_cons]
          left
          split_ifs <;> exact c.mBufIndex_stage2 ..
      | stage4 c =>
        simp only [step, hqueue, performStage4, inFlight, List.map_append, List.map_cons,
          List.map_nil, List.mem_append, List.mem_singleton] at hi ⊢
        rcases hi with hold | hold | hnew
        · exact .inl (.inl (List.mem_cons_of_mem _ hold))
        · exact .inl (.inr hold)
        · exact .inl (.inl (hnew ▸ List.mem_cons_self))
  | performToEngine completion =>
    cases hqueue : s.mToEngine with
    | nil =>
      unfold step
      simp only [hqueue]
      exact fun i hi => List.mem_append_left _ hi
    | cons m ms =>
      intro i hi
      cases m with
      | stage3 c =>
        simp only [step, hqueue, performStage3, inFlight, List.map_append, List.map_cons,
          List.map_nil, List.map_map, List.mem_append, List.mem_singleton] at hi ⊢
        rcases hi with ((hold | hnew) | hlast) | hold
        · exact .inl (.inl hold)
        · exact .inr hnew
        · exact .inl (.inr (hlast ▸ List.mem_cons_self))
        · exact .inl (.inr (List.mem_cons_of_mem _ hold))
      | freeSequencedCommand c =>
        simp only [step, hqueue, inFlight, List.map_cons, List.mem_append, List.mem_cons] at hi ⊢
        tauto

end BufWorld

/-! ## Runs -/

namespace TalliedWorld

variable {s : TalliedWorld γ}

/-- The indices of the commands that a step brings in. -/
def indicesOf : TalliedAct γ → List ℤ
  | .act e => BufWorld.indicesOf e
  | .copySndBuf _ _ => []

/-- The index of the buffer that a step reads out. -/
def copiedOf : TalliedAct γ → List ℕ
  | .act _ => []
  | .copySndBuf index _ => [index]

variable (bufGenFunc) in
/-- In a run whose commands all have indices for which `P` holds, only their places and counters
change. -/
theorem changesOnly_run {P : ℤ → Prop} (acts : List (TalliedAct γ))
    (hflight : ∀ i ∈ s.world.inFlight, P i) (hacts : ∀ a ∈ acts, ∀ i ∈ indicesOf a, P i) :
    BufWorld.ChangesOnly P s.world (run (step bufGenFunc) s acts).world := by
  induction acts generalizing s with
  | nil => exact .refl P s.world
  | cons a acts ih =>
    have hrest : ∀ a ∈ acts, ∀ i ∈ indicesOf a, P i := fun a ha =>
      hacts a (List.mem_cons_of_mem _ ha)
    rw [run_cons]
    cases a with
    | act e =>
      have hstep := (BufWorld.changesOnly_step bufGenFunc e).mono hflight
      refine hstep.trans (ih (s := step bufGenFunc s (.act e)) (fun i hi => ?_) hrest)
      rcases List.mem_append.mp (BufWorld.inFlight_step bufGenFunc e i hi) with hold | hnew
      · exact hflight i hold
      · exact hacts _ List.mem_cons_self i hnew
    | copySndBuf index onlyIfChanged =>
      have hworld : (step bufGenFunc s (.copySndBuf index onlyIfChanged)).world = s.world := by
        show (s.copySndBuf index onlyIfChanged).world = s.world
        unfold copySndBuf
        dsimp only
        split_ifs <;> rfl
      have hrun := ih (s := step bufGenFunc s (.copySndBuf index onlyIfChanged))
        (by rw [hworld]; exact hflight) hrest
      rwa [hworld] at hrun

variable (bufGenFunc) in
theorem reads_run (acts : List (TalliedAct γ)) (j : ℤ)
    (hacts : ∀ a ∈ acts, ∀ i ∈ copiedOf a, (i : ℤ) ≠ j) :
    (run (step bufGenFunc) s acts).reads j = s.reads j := by
  induction acts generalizing s with
  | nil => rfl
  | cons a acts ih =>
    rw [run_cons, ih fun a ha => hacts a (List.mem_cons_of_mem _ ha)]
    cases a with
    | act e => rfl
    | copySndBuf index onlyIfChanged =>
      have hne := hacts _ List.mem_cons_self index List.mem_cons_self
      show (s.copySndBuf index onlyIfChanged).reads j = s.reads j
      unfold copySndBuf
      dsimp only
      split_ifs
      · rfl
      · exact Function.update_of_ne hne.symm ..
      · rfl

/-- In a run a `SndBuf` changes only for a command with its index, or for one whose index is
above `mNumSndBufs` if it is that of buffer 0; and a counter changes only for a command with its
index. -/
theorem bufferIndex_frame (bufGenFunc : γ → SndBuf → Option Block → SndBuf) (s : TalliedWorld γ)
    (acts : List (TalliedAct γ)) (hfrom : s.world.mFromEngine = []) (hto : s.world.mToEngine = [])
    (j : ℕ) :
    let s' := run (step bufGenFunc) s acts
    ((∀ a ∈ acts, ∀ i ∈ indicesOf a, asUInt32 i ≠ j ∧ asUInt32 i ≠ s.world.mNumSndBufs ∧
        (s.world.mNumSndBufs < asUInt32 i → j ≠ 0)) →
      s'.world.mSndBufs j = s.world.mSndBufs j ∧
      s'.world.mSndBufsNonRealTimeMirror j = s.world.mSndBufsNonRealTimeMirror j) ∧
    ((∀ a ∈ acts, ∀ i ∈ indicesOf a, i ≠ j) →
      s'.world.mSndBufUpdates j = s.world.mSndBufUpdates j) ∧
    ((∀ a ∈ acts, ∀ i ∈ copiedOf a, i ≠ j) → s'.reads j = s.reads j) := by
  have hflight : ∀ P : ℤ → Prop, ∀ i ∈ s.world.inFlight, P i := by
    intro P i hi
    unfold BufWorld.inFlight at hi
    rw [hfrom, hto] at hi
    exact absurd hi List.not_mem_nil
  refine ⟨fun hacts => ?_, fun hacts => ?_, fun hacts => ?_⟩
  · have hrun := changesOnly_run bufGenFunc acts (hflight _) hacts
    have hplace : ∀ i, (asUInt32 i ≠ j ∧ asUInt32 i ≠ s.world.mNumSndBufs ∧
        (s.world.mNumSndBufs < asUInt32 i → j ≠ 0)) → s.world.bufPlace i ≠ j := by
      intro i hi
      show (if asUInt32 i > s.world.mNumSndBufs then 0 else asUInt32 i) ≠ j
      split_ifs with habove
      · exact (hi.2.2 habove).symm
      · exact hi.1
    exact ⟨hrun.bufs j hplace, hrun.mirror j hplace⟩
  · exact (changesOnly_run bufGenFunc acts (hflight _) hacts).updates j
      fun i hi => hi
  · exact reads_run bufGenFunc acts j fun a ha i hi heq => hacts a ha i hi (by exact_mod_cast heq)

/-- `/b_free` for buffer 1 of three, and then for the index -1. -/
def freeTwice : List (TalliedAct Unit) :=
  ((BufWorld.allStages (.new 1 .free) none) ++ BufWorld.allStages (.new (-1) .free) none).map .act

/-- Three buffers with samples. -/
def threeBuffers : TalliedWorld Unit :=
  ⟨{ BufWorld.new 3 44100 with
      mSndBufs := fun i => { SndBuf.zero with data := some i, samples := 64 }
      mSndBufsNonRealTimeMirror := fun i => { SndBuf.zero with data := some i, samples := 64 } },
    fun _ => 0⟩

/-- The third buffer is left as it is, with its counters. -/
theorem bufferIndex_frame_freeTwice :
    let s' := run (step BufWorld.fillInPlace) threeBuffers freeTwice
    s'.world.mSndBufs 2 = threeBuffers.world.mSndBufs 2 ∧
      s'.world.mSndBufsNonRealTimeMirror 2 = threeBuffers.world.mSndBufsNonRealTimeMirror 2 ∧
      s'.world.mSndBufUpdates 2 = 0 ∧ s'.reads 2 = 0 := by
  have hindices : ∀ a ∈ freeTwice, ∀ i ∈ indicesOf a, i = 1 ∨ i = -1 := by decide
  have hcopied : ∀ a ∈ freeTwice, ∀ i ∈ copiedOf a, i ≠ 2 := by decide
  obtain ⟨hbufs, hwrites, hreads⟩ :=
    bufferIndex_frame BufWorld.fillInPlace threeBuffers freeTwice rfl rfl 2
  obtain ⟨hfront, hmirror⟩ := hbufs fun a ha i hi => by
    rcases hindices a ha i hi with rfl | rfl <;> decide
  refine ⟨hfront, hmirror, hwrites fun a ha i hi => ?_, hreads hcopied⟩
  rcases hindices a ha i hi with rfl | rfl <;> decide

/-- `/b_free -1` frees buffer 0. -/
theorem not_bufferIndex_guard :
    ¬ ∀ (s : TalliedWorld Unit) (acts : List (TalliedAct Unit)), s.world.mFromEngine = [] →
      s.world.mToEngine = [] →
      (∀ a ∈ acts, ∀ i ∈ indicesOf a, ¬ (0 ≤ i ∧ i < s.world.mNumSndBufs)) →
      ∀ j < s.world.mNumSndBufs, (run (step BufWorld.fillInPlace) s acts).world.mSndBufs j =
        s.world.mSndBufs j := by
  intro hall
  have hsame := hall threeBuffers ((BufWorld.allStages (.new (-1) .free) none).map .act) rfl rfl
    (by decide) 0 (by decide)
  have hdata := congrArg SndBuf.data hsame
  exact absurd hdata (by decide)

end TalliedWorld

end PoopWorms.Server
