import PoopWorms.Server.SoundGrids

/-!
# Sound files stay in the buffer

The counts of frames are worked out in `int`s, so a request can come to fewer frames than the file
has, or to more; the offset into the buffer may be negative; and a list of channels need not be as
wide as the buffer. A command stays in the buffer if and only if none of this matters to it.
-/

namespace PoopWorms.Server

open Octets

/-! ## What an `int` can count -/

namespace SoundFile

/-- The number of frames that the request comes to when it is worked out in `int`s. -/
def counted (sf : SoundFile) (mFileOffset mNumFrames : Word) (all : Bool) : ℤ :=
  if all then int32 (sf.framesFrom mFileOffset)
  else if mNumFrames.toInt + sf.offsetIn mFileOffset < 2 ^ 31 then
    min mNumFrames.toInt (sf.framesFrom mFileOffset)
  else mNumFrames.toInt

variable (sf : SoundFile) (mFileOffset mNumFrames : Word)

theorem offsetIn_bounds : 0 ≤ sf.offsetIn mFileOffset ∧ sf.offsetIn mFileOffset ≤ sf.frames ∧
    sf.offsetIn mFileOffset < 2 ^ 31 := by
  have hframes := sf.frames_nonneg
  have hlt := (isInt_toInt mFileOffset).2
  unfold offsetIn
  omega

theorem clipFileOffset_eq :
    clipFileOffset mFileOffset.toInt sf.toFileInfo = sf.offsetIn mFileOffset := by
  have hframes := sf.frames_nonneg
  have hlt := (isInt_toInt mFileOffset).2
  unfold clipFileOffset offsetIn
  split_ifs with hneg hbehind
  · omega
  · rw [int32_eq_self ⟨by omega, by omega⟩]
    omega
  · omega

/-- The sum that is compared with the length of the file may be too large for an `int`. -/
theorem clip_eq (hn : 0 ≤ mNumFrames.toInt) :
    (if int32 (mNumFrames.toInt + sf.offsetIn mFileOffset) > sf.frames
      then int32 (sf.frames - sf.offsetIn mFileOffset) else mNumFrames.toInt) =
      sf.counted mFileOffset mNumFrames false := by
  obtain ⟨hpos, hle, hlt⟩ := sf.offsetIn_bounds mFileOffset
  have hnum := (isInt_toInt mNumFrames).2
  unfold counted framesFrom
  rw [if_neg Bool.false_ne_true]
  split_ifs with hclip hsum hsum
  · rw [int32_eq_self ⟨by omega, hsum⟩] at hclip
    rw [int32_eq_self ⟨by omega, by omega⟩]
    omega
  · have hneg := int32_neg (Int.not_lt.mp hsum) (by omega)
    omega
  · rw [int32_eq_self ⟨by omega, hsum⟩] at hclip
    omega
  · rfl

theorem clipNumFrames_eq :
    clipNumFrames (sf.offsetIn mFileOffset) mNumFrames.toInt sf.toFileInfo =
      sf.counted mFileOffset mNumFrames (mNumFrames.toInt ≤ 0) := by
  unfold clipNumFrames
  by_cases hall : mNumFrames.toInt ≤ 0
  · rw [if_pos (.inl hall), decide_eq_true hall]
    rfl
  · rw [decide_eq_false hall, ← clip_eq _ _ _ (by omega)]
    simp only [hall, false_or]

theorem clipReadFrames_eq :
    clipReadFrames (sf.offsetIn mFileOffset) mNumFrames.toInt sf.toFileInfo =
      sf.counted mFileOffset mNumFrames (mNumFrames.toInt < 0) := by
  unfold clipReadFrames
  by_cases hall : mNumFrames.toInt < 0
  · rw [if_pos (.inl hall), decide_eq_true hall]
    rfl
  · rw [decide_eq_false hall, ← clip_eq _ _ _ (by omega)]
    simp only [hall, false_or]

theorem framesFrom_nonneg : 0 ≤ sf.framesFrom mFileOffset := by
  have hbounds := sf.offsetIn_bounds mFileOffset
  unfold framesFrom
  omega

theorem isInt_counted (all : Bool) : IsInt (sf.counted mFileOffset mNumFrames all) := by
  have hframes := sf.framesFrom_nonneg mFileOffset
  have hnum := isInt_toInt mNumFrames
  unfold counted
  split_ifs
  · exact isInt_int32 _
  · unfold IsInt at hnum ⊢
    omega
  · exact hnum

/-- As many frames are there as are asked for, as far as an `int` goes. -/
theorem min_counted (all : Bool) :
    min (sf.counted mFileOffset mNumFrames all) (sf.framesFrom mFileOffset) =
      min (sf.asked mFileOffset mNumFrames all) (sf.counted mFileOffset mNumFrames all) := by
  unfold asked counted
  split_ifs <;> omega

end SoundFile

/-! ## Channel lists -/

theorem initChannelsFrom_eq (msg : List Word) :
    initChannelsFrom msg = (msg.map BitVec.toInt).take (kMaxNumChannels + 1) := by
  have hfold (msg : List Word) (acc : List ℤ) (hacc : acc.length ≤ kMaxNumChannels + 1) :
      msg.foldl (fun mChannels c => if mChannels.length ≤ kMaxNumChannels
        then mChannels ++ [c.toInt] else mChannels) acc =
        acc ++ (msg.map BitVec.toInt).take (kMaxNumChannels + 1 - acc.length) := by
    induction msg generalizing acc with
    | nil => simp
    | cons c msg ih =>
      rw [List.foldl_cons, List.map_cons]
      split_ifs with hroom
      · have hrest : kMaxNumChannels + 1 - acc.length =
            (kMaxNumChannels + 1 - (acc.length + 1)) + 1 := by omega
        rw [ih _ (by simpa using hroom), List.length_append, List.length_singleton, hrest,
          List.take_succ_cons, List.append_assoc, List.singleton_append]
      · have hfull : kMaxNumChannels + 1 - acc.length = 0 := by omega
        rw [ih _ hacc, hfull, List.take_zero, List.take_zero]
  exact hfold msg [] (Nat.zero_le _)

theorem length_initChannelsFrom_le_iff (msg : List Word) :
    (initChannelsFrom msg).length ≤ kMaxNumChannels ↔ msg.length ≤ kMaxNumChannels := by
  rw [initChannelsFrom_eq, List.length_take, List.length_map]
  omega

theorem initChannelsFrom_of_length_le {msg : List Word} (h : msg.length ≤ kMaxNumChannels) :
    initChannelsFrom msg = msg.map BitVec.toInt := by
  rw [initChannelsFrom_eq]
  exact List.take_of_length_le (by rw [List.length_map]; omega)

theorem getD_map_toInt (channels : List Word) (ci : ℕ) :
    (channels.map BitVec.toInt).getD ci 0 = (channels.getD ci 0#32).toInt := by
  rw [List.getD_eq_getElem?_getD, List.getD_eq_getElem?_getD, List.getElem?_map]
  cases channels[ci]? with
  | none => rfl
  | some c => rfl

/-- What is copied out of the temporary buffer, where the file has been read into it. -/
theorem copied_eq (sf : SoundFile) (mFileOffset : Word) (channels : List Word) {frames k ci : ℤ}
    (hk : 0 ≤ k ∧ k < min frames (sf.framesFrom mFileOffset)) :
    copied (channels.map BitVec.toInt) (sf.readf (sf.offsetIn mFileOffset) 0 frames)
      sf.channels k ci = sf.listedChannels mFileOffset channels k ci := by
  unfold copied SoundFile.listedChannels
  rw [getD_map_toInt]
  dsimp only
  split_ifs with hc
  · exact (grid_readf sf _ 0 frames).storedAt_eq hk hc
  · rfl

/-! ## The commands -/

theorem bufAlloc_of_not_err {live : Finset Block} {block : Option Block} {buf : SndBuf}
    {numChannels numFrames : ℤ} {rate : ℚ}
    (h : bufAllocErr live block numChannels numFrames = false) :
    1 ≤ int32 (numFrames * numChannels) ∧
      (bufAlloc live block buf numChannels numFrames rate).1.frames = numFrames ∧
      (bufAlloc live block buf numChannels numFrames rate).1.channels = numChannels ∧
      (bufAlloc live block buf numChannels numFrames rate).1.dataSamples =
        int32 (numFrames * numChannels) := by
  simp only [bufAllocErr, Bool.or_eq_false_iff, decide_eq_false_iff_not] at h
  obtain ⟨hsize, hblock⟩ := h
  unfold bufAlloc
  rw [if_neg hsize]
  cases hz : zalloc live block with
  | none => simp [hz] at hblock
  | some b => exact ⟨by omega, rfl, rfl, rfl⟩

namespace ReadCommand

variable {c : ReadCommand} {a : ReadAnswers} {buf buf' : SndBuf} {sf : SoundFile}
  {mChannels : List ℤ}

theorem staysInBuffer_refused (h : c.stage2 a buf = .nothing buf' mChannels true) :
    c.StaysInBuffer a buf ↔ mChannels.length ≤ kMaxNumChannels := by
  constructor
  · intro hstays
    have hchannels := hstays.inside.channels
    rwa [h] at hchannels
  · intro hchannels
    refine ⟨⟨?_, ?_, ?_⟩, ?_, ?_⟩ <;> rw [h]
    · exact fun s hs => absurd hs List.not_mem_nil
    · exact fun s hs => absurd hs List.not_mem_nil
    · exact hchannels
    · exact fun _ => rfl
    · exact fun hrefused => absurd hrefused Bool.noConfusion

theorem staysInBuffer_idle (h : c.stage2 a buf = .nothing buf' mChannels false) :
    c.StaysInBuffer a buf ↔ mChannels.length ≤ kMaxNumChannels ∧
      ∀ sf ∈ a.file, (c.copying sf).Lands buf' [] := by
  constructor
  · intro hstays
    have hchannels := hstays.inside.channels
    have hlands := hstays.lands
    rw [h] at hchannels hlands
    exact ⟨hchannels, hlands rfl⟩
  · rintro ⟨hchannels, hlands⟩
    refine ⟨⟨?_, ?_, ?_⟩, ?_, ?_⟩ <;> rw [h]
    · exact fun s hs => absurd hs List.not_mem_nil
    · exact fun s hs => absurd hs List.not_mem_nil
    · exact hchannels
    · exact fun _ => rfl
    · exact fun _ => hlands

/-- A command that copies, with what it has put into its temporary buffer. -/
theorem staysInBuffer_copied {data temp : List SampleStore} {size : ℤ} (hfile : a.file = some sf)
    (h : c.stage2 a buf = ⟨buf', data, temp, size, mChannels, false⟩) :
    c.StaysInBuffer a buf ↔ mChannels.length ≤ kMaxNumChannels ∧
      ((c.copying sf).Lands buf' data ∧
        ∀ s ∈ data, 0 ≤ s.place ∧ s.place < buf'.dataSamples) ∧
      ∀ s ∈ temp, 0 ≤ s.place ∧ s.place < size := by
  constructor
  · intro hstays
    have hinside := hstays.inside
    have hlands := hstays.lands
    rw [h] at hinside hlands
    exact ⟨hinside.channels, ⟨hlands rfl sf hfile, hinside.data⟩, hinside.temp⟩
  · rintro ⟨hchannels, ⟨hlands, hdata⟩, htemp⟩
    refine ⟨⟨?_, ?_, ?_⟩, ?_, ?_⟩ <;> rw [h]
    · exact hdata
    · exact htemp
    · exact hchannels
    · rw [hfile]
      rintro (hrefused | hnone)
      · cases hrefused
      · cases hnone
    · intro _ sf' hsf'
      rw [hfile] at hsf'
      rwa [← Option.some.inj hsf']

/-! ### Allocating -/

variable {mFileOffset mNumFrames : Word} {all : Bool} {channels : List Word}

/-- The allocation fails, or the samples of the frames that are read are allocated; their number
is an `int`. -/
def FitsAll (a : ReadAnswers) (sf : SoundFile) (mFileOffset mNumFrames : Word) (all : Bool) :
    Prop :=
  let frames := sf.counted mFileOffset mNumFrames all
  bufAllocErr a.live a.block sf.channels frames = true ∨
    min (sf.asked mFileOffset mNumFrames all) frames * sf.channels ≤ int32 (frames * sf.channels)

theorem staysInBuffer_all (hfile : a.file = some sf)
    (hstage : c.stage2 a buf = allocReadAll a buf sf (sf.offsetIn mFileOffset)
      (sf.counted mFileOffset mNumFrames all))
    (hcopying : c.copying sf = ⟨0, sf.asked mFileOffset mNumFrames all, sf.channels,
      sf.allChannels mFileOffset⟩) :
    c.StaysInBuffer a buf ↔ FitsAll a sf mFileOffset mNumFrames all := by
  have hmin := sf.min_counted mFileOffset mNumFrames all
  unfold FitsAll
  unfold allocReadAll at hstage
  dsimp only at hstage ⊢
  generalize sf.counted mFileOffset mNumFrames all = frames at hstage hmin ⊢
  cases herr : bufAllocErr a.live a.block sf.channels frames with
  | true =>
    rw [if_pos herr] at hstage
    rw [staysInBuffer_refused hstage]
    exact iff_of_true (Nat.zero_le _) (.inl rfl)
  | false =>
    rw [if_neg (by simp [herr])] at hstage
    rw [staysInBuffer_copied hfile hstage]
    obtain ⟨hpos, hframes, hchannels, hsamples⟩ := @bufAlloc_of_not_err a.live a.block buf _ _
      sf.samplerate herr
    generalize (bufAlloc a.live a.block buf sf.channels frames sf.samplerate).1 = buf' at *
    have hgrid := grid_readf sf (sf.offsetIn mFileOffset) 0 frames
    have hoffset : (c.copying sf).bufOffset = 0 := by rw [hcopying]
    have hwide : (c.copying sf).width = sf.channels := by rw [hcopying]
    have hwidth : 0 < (c.copying sf).width := by
      rw [hwide]
      exact sf.channels_pos
    have hreach : (c.copying sf).reach buf' =
        min (sf.asked mFileOffset mNumFrames all) frames := by
      unfold Copying.reach
      rw [hcopying, hframes, sub_zero]
    have hbehind : min frames (sf.frames - sf.offsetIn mFileOffset) =
        (c.copying sf).reach buf' := by
      rw [hreach, ← hmin]
      rfl
    rw [hbehind, ← hwide] at hgrid
    rw [← hreach]
    by_cases hsome : 0 < (c.copying sf).reach buf'
    · rw [Copying.lands_iff hgrid hwidth hsome (fun k ci _ _ => by rw [hcopying]; rfl)]
      constructor
      · rintro ⟨-, ⟨hfits, -⟩, -⟩
        have hroom := hfits.room
        rw [hoffset, hwide, hchannels, hsamples] at hroom
        right
        linarith
      · rintro (hfalse | hroom)
        · cases hfalse
        · refine ⟨Nat.zero_le _, ⟨⟨hoffset.ge, hsome, .inl ?_, ?_⟩, rfl, ?_⟩, fun s hs => ?_⟩
          · rw [hwide, hchannels]
          · rw [hoffset, hwide, hchannels, hsamples]
            linarith
          · rw [hoffset, zero_mul]
          · cases hs
    · rw [hgrid.eq_nil (by omega), Copying.lands_nil hwidth]
      refine iff_of_true ⟨Nat.zero_le _, ⟨.inl ?_, ?_⟩, ?_⟩ (.inr ?_)
      · omega
      · exact fun s hs => absurd hs List.not_mem_nil
      · exact fun s hs => absurd hs List.not_mem_nil
      · have hle : (c.copying sf).reach buf' * sf.channels ≤ 0 :=
          Int.mul_nonpos_of_nonpos_of_nonneg (by omega) sf.channels_pos.le
        omega

theorem length_bufAllocReadChannel (a : ReadAnswers) (buf : SndBuf) (fileOffset numFrames : ℤ)
    (mChannels : List ℤ) :
    (bufAllocReadChannel a buf fileOffset numFrames mChannels).mChannels.length =
      mChannels.length := by
  unfold bufAllocReadChannel
  cases a.file with
  | none => rfl
  | some sf =>
    dsimp only
    split_ifs with hnone
    · unfold allocReadAll
      dsimp only
      split_ifs <;> exact hnone.symm
    all_goals rfl

/-- The temporary buffer has room for the frames that are read into it. -/
theorem temp_inside_iff (sf : SoundFile) (pos frames size : ℤ)
    (hpos : 0 < min frames (sf.frames - pos)) :
    (∀ s ∈ sf.readf pos 0 frames, 0 ≤ s.place ∧ s.place < size) ↔
      min frames (sf.frames - pos) * sf.channels ≤ size := by
  rw [(grid_readf sf pos 0 frames).inside_iff sf.channels_pos hpos]
  omega

/-- Listed channels are copied out of a temporary buffer of `size` samples. -/
theorem lands_copyChannels_iff {w : Copying} {p frames size : ℤ}
    (hmapped : mChannels = channels.map BitVec.toInt) (hlisted : 0 < mChannels.length)
    (hwidth : w.width = mChannels.length)
    (hvalue : w.value = sf.listedChannels mFileOffset channels)
    (hframes : 0 < frameCount frames)
    (hread : ∀ k ci, w.Wanted buf k ci → k < frameCount frames →
      k < min frames (sf.framesFrom mFileOffset)) :
    ((w.Lands buf (copyChannels mChannels p (sf.readf (sf.offsetIn mFileOffset) 0 frames)
        sf.channels (frameCount frames)) ∧
      ∀ s ∈ copyChannels mChannels p (sf.readf (sf.offsetIn mFileOffset) 0 frames) sf.channels
        (frameCount frames), 0 ≤ s.place ∧ s.place < buf.dataSamples) ∧
      ∀ s ∈ sf.readf (sf.offsetIn mFileOffset) 0 frames, 0 ≤ s.place ∧ s.place < size) ↔
    (w.Fits buf ∧ frameCount frames = w.reach buf ∧ p = w.bufOffset * buf.channels) ∧
      (0 < min frames (sf.framesFrom mFileOffset) →
        min frames (sf.framesFrom mFileOffset) * sf.channels ≤ size) := by
  have hgrid := grid_copyChannels mChannels p (sf.readf (sf.offsetIn mFileOffset) 0 frames)
    sf.channels (frameCount frames)
  rw [← hwidth] at hgrid
  have hcopied (k ci : ℤ) (hwanted : w.Wanted buf k ci) (hk : k < frameCount frames) :
      copied mChannels (sf.readf (sf.offsetIn mFileOffset) 0 frames) sf.channels k ci =
        w.value k ci := by
    rw [hmapped, hvalue]
    exact copied_eq sf mFileOffset channels ⟨hwanted.1.1, hread k ci hwanted hk⟩
  rw [Copying.lands_iff hgrid (by omega) (by omega) hcopied]
  refine and_congr_right fun _ => ?_
  by_cases hsome : 0 < min frames (sf.framesFrom mFileOffset)
  · rw [temp_inside_iff sf _ _ _ hsome]
    exact ⟨fun h _ => h, fun h => h hsome⟩
  · have hnil := (grid_readf sf (sf.offsetIn mFileOffset) 0 frames).eq_nil (Int.not_lt.mp hsome)
    rw [hnil]
    exact iff_of_true (fun s hs => absurd hs List.not_mem_nil) fun h => absurd h hsome

/-- The command fails before it copies, or the frames exist and an `int` counts the samples of
both the buffer and the temporary one. -/
def FitsListed (a : ReadAnswers) (sf : SoundFile) (mFileOffset mNumFrames : Word)
    (channels : List Word) : Prop :=
  let frames := sf.counted mFileOffset mNumFrames (mNumFrames.toInt ≤ 0)
  (checkChannels (channels.map BitVec.toInt) sf.channels = false ∨
    bufAllocErr a.live a.block channels.length frames = true ∨
    a.mallocs (int32 (frames * sf.channels)) = false) ∨
  (0 ≤ frames ∧ frames ≤ sf.framesFrom mFileOffset) ∧
    frames * channels.length < 2 ^ 31 ∧ frames * sf.channels < 2 ^ 31

/-- A buffer that is allocated as wide as the list has room for what is copied if the samples can
be counted. -/
theorem fits_allocated_iff {w : Copying} {frames : ℤ} (hoffset : w.bufOffset = 0)
    (hwide : w.width = buf.channels) (hpos : 0 < buf.channels)
    (hreach : w.reach buf = min frames (sf.framesFrom mFileOffset))
    (hsamples : buf.dataSamples = int32 (frames * buf.channels)) (hint : IsInt frames)
    (hne : frames ≠ 0) :
    ((w.Fits buf ∧ frameCount frames = w.reach buf ∧ 0 = w.bufOffset * buf.channels) ∧
      (0 < min frames (sf.framesFrom mFileOffset) →
        min frames (sf.framesFrom mFileOffset) * sf.channels ≤ int32 (frames * sf.channels))) ↔
    (0 ≤ frames ∧ frames ≤ sf.framesFrom mFileOffset) ∧
      frames * buf.channels < 2 ^ 31 ∧ frames * sf.channels < 2 ^ 31 := by
  have hcount : (frameCount frames : ℤ) = frames % 2 ^ 64 := Int.toNat_of_nonneg (by omega)
  unfold IsInt at hint
  constructor
  · rintro ⟨⟨hfits, hd, -⟩, htemp⟩
    have hroom := hfits.room
    rw [hreach] at hd
    rw [hoffset, hwide, hreach, hsamples] at hroom
    -- a negative number of frames is a huge one for the loop
    have hall : min frames (sf.framesFrom mFileOffset) = frames := by omega
    rw [hall] at hroom htemp
    have hbuf := (isInt_int32 (frames * buf.channels)).2
    have hbytes := (isInt_int32 (frames * sf.channels)).2
    have htemp := htemp (by omega)
    exact ⟨by omega, by linarith, by linarith⟩
  · rintro ⟨⟨hnonneg, hle⟩, hbuf, htemp⟩
    have hall : min frames (sf.framesFrom mFileOffset) = frames := by omega
    have hbuf' : 0 ≤ frames * buf.channels := Int.mul_nonneg hnonneg hpos.le
    have htemp' : 0 ≤ frames * sf.channels := Int.mul_nonneg hnonneg sf.channels_pos.le
    rw [int32_eq_self ⟨by omega, hbuf⟩] at hsamples
    rw [int32_eq_self ⟨by omega, htemp⟩]
    refine ⟨⟨⟨hoffset.ge, by omega, .inl hwide, ?_⟩, by omega, ?_⟩, fun _ => ?_⟩
    · rw [hoffset, hwide, hreach, hsamples, hall]
      linarith
    · rw [hoffset, zero_mul]
    · rw [hall]

theorem staysInBuffer_allocListed (hfile : a.file = some sf) (hlisted : channels ≠ [])
    (hlength : channels.length ≤ kMaxNumChannels) :
    (allocReadChannel mFileOffset mNumFrames channels).StaysInBuffer a buf ↔
      FitsListed a sf mFileOffset mNumFrames channels := by
  have hmin := sf.min_counted mFileOffset mNumFrames (mNumFrames.toInt ≤ 0)
  have hint := sf.isInt_counted mFileOffset mNumFrames (mNumFrames.toInt ≤ 0)
  have hcopying : (allocReadChannel mFileOffset mNumFrames channels).copying sf =
      ⟨0, sf.asked mFileOffset mNumFrames (mNumFrames.toInt ≤ 0), channels.length,
        sf.listedChannels mFileOffset channels⟩ := by
    simp [copying, SoundFile.width, SoundFile.valueOf, hlisted]
  have hstage : (allocReadChannel mFileOffset mNumFrames channels).stage2 a buf =
      bufAllocReadChannel a buf mFileOffset.toInt mNumFrames.toInt (channels.map BitVec.toInt) := by
    rw [← initChannelsFrom_of_length_le hlength]
    rfl
  have hmapped : (channels.map BitVec.toInt).length = channels.length := List.length_map _
  have hpos : 0 < channels.length := List.length_pos_iff.mpr hlisted
  rw [← hmapped] at hlength hpos
  unfold bufAllocReadChannel at hstage
  rw [hfile] at hstage
  simp only [sf.clipFileOffset_eq, sf.clipNumFrames_eq, if_neg hpos.ne'] at hstage
  unfold FitsListed
  dsimp only
  rw [← hmapped] at hcopying ⊢
  obtain ⟨mChannels, hm⟩ : ∃ mChannels, mChannels = channels.map BitVec.toInt := ⟨_, rfl⟩
  rw [← hm] at hcopying hstage hlength hpos ⊢
  generalize sf.counted mFileOffset mNumFrames (mNumFrames.toInt ≤ 0) = frames at *
  by_cases hcheck : checkChannels mChannels sf.channels = true
  swap
  · rw [if_pos hcheck] at hstage
    rw [staysInBuffer_refused hstage]
    exact iff_of_true hlength (.inl (.inl (Bool.not_eq_true _ ▸ hcheck)))
  rw [if_neg (not_not.mpr hcheck)] at hstage
  cases herr : bufAllocErr a.live a.block mChannels.length frames with
  | true =>
    rw [if_pos herr] at hstage
    rw [staysInBuffer_refused hstage]
    exact iff_of_true hlength (.inl (.inr (.inl rfl)))
  | false =>
    rw [if_neg (by simp [herr])] at hstage
    cases hmalloc : a.mallocs (int32 (frames * sf.channels)) with
    | false =>
      rw [if_pos (by simp [hmalloc])] at hstage
      rw [staysInBuffer_refused hstage]
      exact iff_of_true hlength (.inl (.inr (.inr rfl)))
    | true =>
      rw [if_neg (by simp [hmalloc])] at hstage
      rw [staysInBuffer_copied hfile hstage]
      obtain ⟨hsize, hframes, hchannels, hsamples⟩ := @bufAlloc_of_not_err a.live a.block buf _ _
        sf.samplerate herr
      generalize (bufAlloc a.live a.block buf mChannels.length frames sf.samplerate).1 = buf' at *
      have hreach : ((allocReadChannel mFileOffset mNumFrames channels).copying sf).reach buf' =
          min frames (sf.framesFrom mFileOffset) := by
        unfold Copying.reach
        rw [hcopying, hframes, sub_zero, hmin]
      have hne : frames ≠ 0 := by
        rintro rfl
        rw [zero_mul] at hsize
        exact absurd hsize (by decide)
      have hcount : (frameCount frames : ℤ) = frames % 2 ^ 64 := Int.toNat_of_nonneg (by omega)
      have hfew : 0 < frameCount frames := by
        unfold IsInt at hint
        omega
      rw [lands_copyChannels_iff hm hpos (by rw [hcopying]) (by rw [hcopying]) hfew
        fun k ci hwanted _ => hreach ▸ hwanted.fits_frame]
      rw [← hchannels] at hsamples ⊢
      rw [fits_allocated_iff (by rw [hcopying]) (by rw [hcopying, hchannels]) (by omega) hreach
        hsamples hint hne]
      simp only [hlength, hcheck, Bool.true_eq_false, Bool.false_eq_true, true_and, false_or]

/-! ### Reading into a buffer -/

/-- Nothing is copied: the buffer ends before its offset, no frame is asked for, or the file has
ended; with a channel list, the last is seen only if the sum of the counts is an `int`. -/
def Idle (sf : SoundFile) (buf : SndBuf) (mFileOffset mNumFrames mBufOffset : Word)
    (listed : Bool) : Prop :=
  int32 (buf.frames - mBufOffset.toInt) ≤ 0 ∨ mNumFrames.toInt = 0 ∨
    (mNumFrames.toInt < 0 ∧ int32 (sf.framesFrom mFileOffset) ≤ 0) ∨
    (sf.framesFrom mFileOffset = 0 ∧
      (listed = true → mNumFrames.toInt + sf.offsetIn mFileOffset < 2 ^ 31))

/-- The `int`s that count the frames do not fall short of what the buffer takes, where all frames
are asked for, and do not hide, with a channel list, that the file ends. -/
def Counts (sf : SoundFile) (buf : SndBuf) (mFileOffset mNumFrames mBufOffset : Word)
    (listed : Bool) : Prop :=
  (mNumFrames.toInt < 0 → min (sf.framesFrom mFileOffset) (buf.frames - mBufOffset.toInt) ≤
    int32 (sf.framesFrom mFileOffset)) ∧
  (listed = true → mNumFrames.toInt + sf.offsetIn mFileOffset < 2 ^ 31 ∨
    min mNumFrames.toInt (buf.frames - mBufOffset.toInt) ≤ sf.framesFrom mFileOffset)

/-- The frames that the request comes to in `int`s, up to the end of the buffer. -/
def granted (sf : SoundFile) (buf : SndBuf) (mFileOffset mNumFrames mBufOffset : Word) : ℤ :=
  min (sf.counted mFileOffset mNumFrames (mNumFrames.toInt < 0))
    (int32 (buf.frames - mBufOffset.toInt))

variable {mBufOffset : Word}

theorem idle_iff : Idle sf buf mFileOffset mNumFrames mBufOffset false ↔
    min (granted sf buf mFileOffset mNumFrames mBufOffset) (sf.framesFrom mFileOffset) ≤ 0 := by
  have hbounds := sf.offsetIn_bounds mFileOffset
  have hframes := sf.framesFrom_nonneg mFileOffset
  unfold Idle granted SoundFile.counted
  simp only [decide_eq_true_eq, Bool.false_eq_true, false_imp_iff, and_true]
  split_ifs <;> omega

theorem idle_listed_iff : Idle sf buf mFileOffset mNumFrames mBufOffset true ↔
    granted sf buf mFileOffset mNumFrames mBufOffset ≤ 0 := by
  have hbounds := sf.offsetIn_bounds mFileOffset
  have hframes := sf.framesFrom_nonneg mFileOffset
  have hzero : sf.framesFrom mFileOffset = 0 → int32 (sf.framesFrom mFileOffset) = 0 := by
    intro h
    rw [h]
    decide
  unfold Idle granted SoundFile.counted
  simp only [decide_eq_true_eq, true_imp_iff]
  split_ifs <;> omega

/-- Where the frames that are wanted end, for a command that reads into a buffer. -/
theorem reach_eq (w : Copying) (hoffset : w.bufOffset = mBufOffset.toInt)
    (hcount : w.count = sf.asked mFileOffset mNumFrames (mNumFrames.toInt < 0)) :
    w.reach buf = min (if mNumFrames.toInt < 0 then sf.framesFrom mFileOffset
      else min mNumFrames.toInt (sf.framesFrom mFileOffset)) (buf.frames - mBufOffset.toInt) := by
  unfold Copying.reach
  rw [hoffset, hcount]
  unfold SoundFile.asked
  simp only [decide_eq_true_eq]

/-- The frames to the end of the buffer are an `int` where a frame is wanted. -/
theorem framesToEnd_eq (w : Copying) (hint : IsInt buf.frames)
    (hoffset : w.bufOffset = mBufOffset.toInt) (hfits : w.Fits buf) :
    int32 (buf.frames - mBufOffset.toInt) = buf.frames - mBufOffset.toInt ∧
      0 < buf.frames - mBufOffset.toInt := by
  have hpos := hfits.offset
  have hsome := hfits.some
  unfold Copying.reach at hsome
  unfold IsInt at hint
  rw [int32_eq_self ⟨by omega, by omega⟩]
  omega

theorem counts_iff (w : Copying) (hint : IsInt buf.frames)
    (hoffset : w.bufOffset = mBufOffset.toInt)
    (hcount : w.count = sf.asked mFileOffset mNumFrames (mNumFrames.toInt < 0))
    (hfits : w.Fits buf) :
    Counts sf buf mFileOffset mNumFrames mBufOffset false ↔
      min (granted sf buf mFileOffset mNumFrames mBufOffset) (sf.framesFrom mFileOffset) =
        w.reach buf := by
  obtain ⟨hend, hpos⟩ := framesToEnd_eq w hint hoffset hfits
  have hframes := sf.framesFrom_nonneg mFileOffset
  have hle := int32_le hframes
  rw [reach_eq w hoffset hcount]
  unfold Counts granted SoundFile.counted
  rw [hend]
  simp only [decide_eq_true_eq, Bool.false_eq_true, false_imp_iff, and_true]
  split_ifs <;> omega

theorem counts_listed_iff (w : Copying) (hint : IsInt buf.frames)
    (hoffset : w.bufOffset = mBufOffset.toInt)
    (hcount : w.count = sf.asked mFileOffset mNumFrames (mNumFrames.toInt < 0))
    (hfits : w.Fits buf) :
    Counts sf buf mFileOffset mNumFrames mBufOffset true ↔
      granted sf buf mFileOffset mNumFrames mBufOffset = w.reach buf := by
  obtain ⟨hend, hpos⟩ := framesToEnd_eq w hint hoffset hfits
  have hbounds := sf.offsetIn_bounds mFileOffset
  have hframes := sf.framesFrom_nonneg mFileOffset
  have hle := int32_le hframes
  rw [reach_eq w hoffset hcount]
  unfold Counts granted SoundFile.counted
  rw [hend]
  simp only [decide_eq_true_eq, true_imp_iff]
  split_ifs <;> omega

/-- The place of the first frame is an `int` if the buffer has room for it. -/
theorem isInt_place (buf : IntSndBuf) (w : Copying) (hwidth : 0 < w.width)
    (hfits : w.Fits buf.toSndBuf) :
    IsInt (w.bufOffset * buf.channels) ∧ IsInt (w.bufOffset * w.width) := by
  have hoffset := hfits.offset
  have hsome := hfits.some
  have hroom := hfits.room
  have hsize := buf.dataSamples_lt
  have hle : w.width ≤ buf.channels := by
    have hwide := hfits.width
    omega
  have hplace : w.bufOffset * buf.channels ≤
      (w.bufOffset + w.reach buf.toSndBuf - 1) * buf.channels :=
    mul_le_mul_of_nonneg_right (by omega) (by omega)
  have hwide : w.bufOffset * w.width ≤ w.bufOffset * buf.channels :=
    mul_le_mul_of_nonneg_left hle hoffset
  have hnonneg : 0 ≤ w.bufOffset * w.width := Int.mul_nonneg hoffset hwidth.le
  unfold IsInt
  omega

/-- What reads all channels into a buffer, where the buffer has not ended. -/
theorem staysInBuffer_readAll {buf : IntSndBuf} (hfile : a.file = some sf)
    (hlength : mChannels.length ≤ kMaxNumChannels)
    (hoffset : (c.copying sf).bufOffset = mBufOffset.toInt)
    (hcount : (c.copying sf).count = sf.asked mFileOffset mNumFrames (mNumFrames.toInt < 0))
    (hwide : (c.copying sf).width = sf.channels)
    (hvalue : (c.copying sf).value = sf.allChannels mFileOffset)
    (hstage : c.stage2 a buf.toSndBuf =
      if granted sf buf.toSndBuf mFileOffset mNumFrames mBufOffset > 0 then
        ⟨buf.toSndBuf, sf.readf (sf.offsetIn mFileOffset) (int32 (mBufOffset.toInt * buf.channels))
          (granted sf buf.toSndBuf mFileOffset mNumFrames mBufOffset), [], 0, mChannels, false⟩
      else .nothing buf.toSndBuf mChannels false) :
    c.StaysInBuffer a buf.toSndBuf ↔
      (c.copying sf).Unwanted buf.toSndBuf ∧
        Idle sf buf.toSndBuf mFileOffset mNumFrames mBufOffset false ∨
      (c.copying sf).Fits buf.toSndBuf ∧
        Counts sf buf.toSndBuf mFileOffset mNumFrames mBufOffset false := by
  have hwidth : 0 < (c.copying sf).width := by
    rw [hwide]
    exact sf.channels_pos
  have hgrid := grid_readf sf (sf.offsetIn mFileOffset) (int32 (mBufOffset.toInt * buf.channels))
    (granted sf buf.toSndBuf mFileOffset mNumFrames mBufOffset)
  rw [← hwide] at hgrid
  have hcounts := counts_iff (c.copying sf) buf.frames_int hoffset hcount
  rw [idle_iff]
  by_cases hsome : 0 < min (granted sf buf.toSndBuf mFileOffset mNumFrames mBufOffset)
      (sf.framesFrom mFileOffset)
  · rw [if_pos (by omega)] at hstage
    rw [staysInBuffer_copied hfile hstage,
      Copying.lands_iff hgrid hwidth hsome (fun k ci _ _ => by rw [hvalue]; rfl)]
    constructor
    · rintro ⟨-, ⟨hfits, hd, -⟩, -⟩
      exact .inr ⟨hfits, (hcounts hfits).mpr hd⟩
    · rintro (⟨-, hidle⟩ | ⟨hfits, hc⟩)
      · omega
      · have hplace := (isInt_place buf _ hwidth hfits).1
        rw [hoffset] at hplace
        refine ⟨hlength, ⟨hfits, (hcounts hfits).mp hc, ?_⟩, fun s hs => ?_⟩
        · rw [int32_eq_self hplace, hoffset]
        · cases hs
  · have hnil : c.StaysInBuffer a buf.toSndBuf ↔ (c.copying sf).Unwanted buf.toSndBuf := by
      split_ifs at hstage with hpos
      · rw [hgrid.eq_nil (Int.not_lt.mp hsome)] at hstage
        rw [staysInBuffer_copied hfile hstage, Copying.lands_nil hwidth]
        simp [hlength]
      · rw [staysInBuffer_idle hstage, hfile]
        simp [hlength, Copying.lands_nil hwidth]
    rw [hnil]
    constructor
    · exact fun h => .inl ⟨h, Int.not_lt.mp hsome⟩
    · rintro (⟨h, -⟩ | ⟨hfits, hc⟩)
      · exact h
      · have hreach := (hcounts hfits).mp hc
        have hpos := hfits.some
        omega

/-- The buffer ends before its offset. -/
theorem staysInBuffer_ended {buf : IntSndBuf} (hfile : a.file = some sf)
    (hlength : mChannels.length ≤ kMaxNumChannels)
    (hoffset : (c.copying sf).bufOffset = mBufOffset.toInt)
    (hwidth : 0 < (c.copying sf).width)
    (hended : int32 (buf.frames - mBufOffset.toInt) ≤ 0)
    (hstage : c.stage2 a buf.toSndBuf = .nothing buf.toSndBuf mChannels false) :
    (c.StaysInBuffer a buf.toSndBuf ↔ (c.copying sf).Unwanted buf.toSndBuf) ∧
      ¬ (c.copying sf).Fits buf.toSndBuf := by
  constructor
  · rw [staysInBuffer_idle hstage, hfile]
    simp [hlength, Copying.lands_nil hwidth]
  · intro hfits
    have hend := framesToEnd_eq _ buf.frames_int hoffset hfits
    omega

/-! ### When the commands stay in the buffer -/

/-- What `/b_read` needs of a file. -/
def FitsRead (sf : SoundFile) (buf : SndBuf) (mFileOffset mNumFrames mBufOffset : Word) : Prop :=
  (0 < int32 (buf.frames - mBufOffset.toInt) ∧ sf.channels ≠ buf.channels) ∨
  (((read mFileOffset mNumFrames mBufOffset).copying sf).Unwanted buf ∧
    Idle sf buf mFileOffset mNumFrames mBufOffset false) ∨
  (((read mFileOffset mNumFrames mBufOffset).copying sf).Fits buf ∧
    Counts sf buf mFileOffset mNumFrames mBufOffset false)

theorem staysInBuffer_read {buf : IntSndBuf} (hfile : a.file = some sf) :
    (read mFileOffset mNumFrames mBufOffset).StaysInBuffer a buf.toSndBuf ↔
      FitsRead sf buf.toSndBuf mFileOffset mNumFrames mBufOffset := by
  have hstage : (read mFileOffset mNumFrames mBufOffset).stage2 a buf.toSndBuf =
      bufRead a buf.toSndBuf mFileOffset.toInt mNumFrames.toInt mBufOffset.toInt := rfl
  unfold bufRead at hstage
  rw [hfile] at hstage
  simp only [sf.clipFileOffset_eq, sf.clipReadFrames_eq] at hstage
  unfold FitsRead
  by_cases hended : int32 (buf.frames - mBufOffset.toInt) ≤ 0
  · rw [if_pos hended] at hstage
    obtain ⟨hiff, hnot⟩ := staysInBuffer_ended (c := read mFileOffset mNumFrames mBufOffset) hfile
      (Nat.zero_le _) rfl sf.channels_pos hended hstage
    have hidle : Idle sf buf.toSndBuf mFileOffset mNumFrames mBufOffset false := .inl hended
    rw [hiff]
    simp [hnot, hidle, Int.not_lt.mpr hended]
  · rw [if_neg hended] at hstage
    by_cases hchannels : sf.channels = buf.channels
    · rw [if_neg (not_not.mpr hchannels)] at hstage
      rw [staysInBuffer_readAll hfile (Nat.zero_le _) rfl rfl rfl rfl hstage]
      simp [hchannels]
    · rw [if_pos hchannels] at hstage
      rw [staysInBuffer_refused hstage]
      exact iff_of_true (Nat.zero_le _) (.inl ⟨Int.not_le.mp hended, hchannels⟩)

/-- What `/b_readChannel` needs of a file. -/
def FitsReadChannel (a : ReadAnswers) (sf : SoundFile) (buf : SndBuf)
    (mFileOffset mNumFrames mBufOffset : Word) (channels : List Word) : Prop :=
  let w := (readChannel mFileOffset mNumFrames mBufOffset channels).copying sf
  if channels = [] then
    (w.Unwanted buf ∧ Idle sf buf mFileOffset mNumFrames mBufOffset false) ∨
    (w.Fits buf ∧ Counts sf buf mFileOffset mNumFrames mBufOffset false)
  else
    (0 < int32 (buf.frames - mBufOffset.toInt) ∧
      checkChannels (channels.map BitVec.toInt) sf.channels = false) ∨
    (¬ Idle sf buf mFileOffset mNumFrames mBufOffset true ∧
      a.mallocs (int32 (granted sf buf mFileOffset mNumFrames mBufOffset * sf.channels)) =
        false) ∨
    (w.Unwanted buf ∧ Idle sf buf mFileOffset mNumFrames mBufOffset true) ∨
    (w.Fits buf ∧ Counts sf buf mFileOffset mNumFrames mBufOffset true ∧
      w.reach buf * sf.channels < 2 ^ 31 ∧ (w.width = buf.channels ∨ w.bufOffset = 0))

theorem length_bufReadChannel (a : ReadAnswers) (buf : SndBuf)
    (fileOffset numFrames bufOffset : ℤ) (mChannels : List ℤ) :
    (bufReadChannel a buf fileOffset numFrames bufOffset mChannels).mChannels = mChannels := by
  unfold bufReadChannel
  cases a.file with
  | none =>
    dsimp only
    split_ifs <;> rfl
  | some sf =>
    dsimp only
    split_ifs <;> rfl

/-- The offset is taken for one in frames of the list. -/
theorem int32_place_iff {buf : IntSndBuf} (w : Copying) (hwidth : 0 < w.width)
    (hfits : w.Fits buf.toSndBuf) :
    int32 (w.bufOffset * w.width) = w.bufOffset * buf.channels ↔
      w.width = buf.channels ∨ w.bufOffset = 0 := by
  rw [int32_eq_self (isInt_place buf w hwidth hfits).2]
  exact mul_eq_mul_left_iff

/-- The listed channels, where the buffer has not ended. -/
theorem staysInBuffer_readListed {buf : IntSndBuf} (hfile : a.file = some sf)
    (hmapped : mChannels = channels.map BitVec.toInt) (hlisted : 0 < mChannels.length)
    (hlength : mChannels.length ≤ kMaxNumChannels)
    (hoffset : (c.copying sf).bufOffset = mBufOffset.toInt)
    (hcount : (c.copying sf).count = sf.asked mFileOffset mNumFrames (mNumFrames.toInt < 0))
    (hwide : (c.copying sf).width = mChannels.length)
    (hvalue : (c.copying sf).value = sf.listedChannels mFileOffset channels)
    (hpos : 0 < granted sf buf.toSndBuf mFileOffset mNumFrames mBufOffset)
    (hstage : c.stage2 a buf.toSndBuf =
      ⟨buf.toSndBuf, copyChannels mChannels (int32 (mBufOffset.toInt * mChannels.length))
          (sf.readf (sf.offsetIn mFileOffset) 0
            (granted sf buf.toSndBuf mFileOffset mNumFrames mBufOffset)) sf.channels
          (frameCount (granted sf buf.toSndBuf mFileOffset mNumFrames mBufOffset)),
        sf.readf (sf.offsetIn mFileOffset) 0
          (granted sf buf.toSndBuf mFileOffset mNumFrames mBufOffset),
        int32 (granted sf buf.toSndBuf mFileOffset mNumFrames mBufOffset * sf.channels),
        mChannels, false⟩) :
    c.StaysInBuffer a buf.toSndBuf ↔
      (c.copying sf).Fits buf.toSndBuf ∧
        Counts sf buf.toSndBuf mFileOffset mNumFrames mBufOffset true ∧
        (c.copying sf).reach buf.toSndBuf * sf.channels < 2 ^ 31 ∧
        ((c.copying sf).width = buf.channels ∨ (c.copying sf).bufOffset = 0) := by
  have hcounts := counts_listed_iff (c.copying sf) buf.frames_int hoffset hcount
  have hint : IsInt (granted sf buf.toSndBuf mFileOffset mNumFrames mBufOffset) := by
    have hle := (sf.isInt_counted mFileOffset mNumFrames (mNumFrames.toInt < 0)).2
    unfold IsInt granted at *
    omega
  have hasked : sf.asked mFileOffset mNumFrames (mNumFrames.toInt < 0) ≤
      sf.framesFrom mFileOffset := by
    unfold SoundFile.asked
    split_ifs <;> omega
  generalize granted sf buf.toSndBuf mFileOffset mNumFrames mBufOffset = frames at *
  have hframes : (frameCount frames : ℤ) = frames := by
    unfold frameCount
    unfold IsInt at hint
    omega
  rw [staysInBuffer_copied hfile hstage,
    lands_copyChannels_iff hmapped hlisted hwide hvalue (by omega)
      fun k ci hwanted hk => by
        have hlt := hwanted.1.2
        omega,
    hframes, ← hoffset, ← hwide]
  have hwidth : 0 < (c.copying sf).width := by omega
  constructor
  · rintro ⟨-, ⟨hfits, hd, hplace⟩, htemp⟩
    have hreach : (c.copying sf).reach buf.toSndBuf ≤ sf.framesFrom mFileOffset := by
      unfold Copying.reach
      omega
    rw [min_eq_left (by omega)] at htemp
    have hsize := (isInt_int32 (frames * sf.channels)).2
    have hroom := htemp hpos
    refine ⟨hfits, (hcounts hfits).mpr hd, ?_, (int32_place_iff _ hwidth hfits).mp hplace⟩
    rw [← hd]
    omega
  · rintro ⟨hfits, hc, hroom, hplace⟩
    have hd := (hcounts hfits).mp hc
    have hreach : (c.copying sf).reach buf.toSndBuf ≤ sf.framesFrom mFileOffset := by
      unfold Copying.reach
      omega
    rw [← hd] at hroom
    have hnonneg : 0 ≤ frames * sf.channels := Int.mul_nonneg hpos.le sf.channels_pos.le
    refine ⟨hlength, ⟨hfits, hd, (int32_place_iff _ hwidth hfits).mpr hplace⟩, fun _ => ?_⟩
    rw [min_eq_left (by omega), int32_eq_self ⟨by omega, hroom⟩]

theorem width_pos (sf : SoundFile) (channels : List Word) : 0 < sf.width channels := by
  unfold SoundFile.width
  split_ifs with hnone
  · exact sf.channels_pos
  · have hpos := List.length_pos_iff.mpr hnone
    omega

theorem staysInBuffer_readChannel {buf : IntSndBuf} (hfile : a.file = some sf)
    (hlength : channels.length ≤ kMaxNumChannels) :
    (readChannel mFileOffset mNumFrames mBufOffset channels).StaysInBuffer a buf.toSndBuf ↔
      FitsReadChannel a sf buf.toSndBuf mFileOffset mNumFrames mBufOffset channels := by
  have hstage : (readChannel mFileOffset mNumFrames mBufOffset channels).stage2 a buf.toSndBuf =
      bufReadChannel a buf.toSndBuf mFileOffset.toInt mNumFrames.toInt mBufOffset.toInt
        (channels.map BitVec.toInt) := by
    rw [← initChannelsFrom_of_length_le hlength]
    rfl
  obtain ⟨mChannels, hm⟩ : ∃ mChannels, mChannels = channels.map BitVec.toInt := ⟨_, rfl⟩
  have hmapped : mChannels.length = channels.length := by rw [hm, List.length_map]
  rw [← hmapped] at hlength
  unfold bufReadChannel at hstage
  rw [hfile, ← hm] at hstage
  have hgranted : min (sf.counted mFileOffset mNumFrames (mNumFrames.toInt < 0))
      (int32 (buf.frames - mBufOffset.toInt)) =
        granted sf buf.toSndBuf mFileOffset mNumFrames mBufOffset := rfl
  simp only [sf.clipFileOffset_eq, sf.clipReadFrames_eq, hgranted] at hstage
  unfold FitsReadChannel
  dsimp only
  rw [← hm]
  by_cases hended : int32 (buf.frames - mBufOffset.toInt) ≤ 0
  · rw [if_pos hended] at hstage
    obtain ⟨hiff, hnot⟩ := staysInBuffer_ended
      (c := readChannel mFileOffset mNumFrames mBufOffset channels) hfile hlength rfl
      (width_pos sf channels) hended hstage
    have hidle (listed : Bool) :
        Idle sf buf.toSndBuf mFileOffset mNumFrames mBufOffset listed := .inl hended
    rw [hiff]
    simp [hnot, hidle, Int.not_lt.mpr hended]
  rw [if_neg hended] at hstage
  by_cases hnone : channels = []
  · have hzero : mChannels.length = 0 := by
      rw [hmapped, hnone]
      rfl
    rw [if_neg fun h => absurd h.1 (by omega)] at hstage
    rw [if_pos hnone]
    refine staysInBuffer_readAll hfile hlength rfl rfl ?_ ?_ ?_
    · exact if_pos hnone
    · exact if_pos hnone
    · rw [hstage, if_pos hzero]
  · have hpos : 0 < mChannels.length := by
      rw [hmapped]
      exact List.length_pos_iff.mpr hnone
    rw [if_neg hnone]
    cases hcheck : checkChannels mChannels sf.channels with
    | false =>
      rw [if_pos ⟨hpos, by simp [hcheck]⟩] at hstage
      rw [staysInBuffer_refused hstage]
      exact iff_of_true hlength (.inl ⟨Int.not_le.mp hended, rfl⟩)
    | true =>
      rw [if_neg fun h => h.2 hcheck] at hstage
      rw [idle_listed_iff]
      by_cases hsome : 0 < granted sf buf.toSndBuf mFileOffset mNumFrames mBufOffset
      · rw [if_pos hsome, if_neg hpos.ne'] at hstage
        cases hmalloc : a.mallocs (int32 (granted sf buf.toSndBuf mFileOffset mNumFrames
          mBufOffset * sf.channels)) with
        | false =>
          rw [if_pos (by rw [Bool.not_eq_true]; exact hmalloc)] at hstage
          rw [staysInBuffer_refused hstage]
          exact iff_of_true hlength (.inr (.inl ⟨by omega, rfl⟩))
        | true =>
          rw [if_neg (not_not.mpr hmalloc)] at hstage
          rw [staysInBuffer_readListed hfile hm hpos hlength rfl rfl ?_ ?_ hsome hstage]
          · simp [Int.not_le.mpr hsome]
          · rw [hmapped]
            exact if_neg hnone
          · exact if_neg hnone
      · rw [if_neg hsome] at hstage
        rw [staysInBuffer_idle hstage, hfile]
        have hfits (hfits : ((readChannel mFileOffset mNumFrames mBufOffset channels).copying
            sf).Fits buf.toSndBuf) :
            ¬ Counts sf buf.toSndBuf mFileOffset mNumFrames mBufOffset true := by
          rw [counts_listed_iff _ buf.frames_int rfl rfl hfits]
          have hreach := hfits.some
          omega
        have hlands : ((readChannel mFileOffset mNumFrames mBufOffset channels).copying sf).Lands
            buf.toSndBuf [] ↔ _ := Copying.lands_nil (width_pos sf channels)
        simp only [Option.mem_some_iff, forall_eq', hlength, true_and, hlands, Int.not_lt.mp hsome,
          not_true_eq_false, false_and, false_or, and_true, Bool.true_eq_false, and_false]
        exact ⟨.inl, fun h => h.elim id fun h => absurd h.2.1 (hfits h.1)⟩

/-- A list of channels that the command has room for, and a file that it reads as far as it
should. -/
def HoldsWhen (a : ReadAnswers) (buf : SndBuf) : ReadCommand → Prop
  | allocRead mFileOffset mNumFrames =>
    ∀ sf ∈ a.file, FitsAll a sf mFileOffset mNumFrames (mNumFrames.toInt ≤ 0)
  | allocReadChannel mFileOffset mNumFrames channels =>
    channels.length ≤ kMaxNumChannels ∧ ∀ sf ∈ a.file,
      if channels = [] then FitsAll a sf mFileOffset mNumFrames (mNumFrames.toInt ≤ 0)
      else FitsListed a sf mFileOffset mNumFrames channels
  | read mFileOffset mNumFrames mBufOffset =>
    ∀ sf ∈ a.file, FitsRead sf buf mFileOffset mNumFrames mBufOffset
  | readChannel mFileOffset mNumFrames mBufOffset channels =>
    channels.length ≤ kMaxNumChannels ∧ ∀ sf ∈ a.file,
      FitsReadChannel a sf buf mFileOffset mNumFrames mBufOffset channels

/-- No file can be opened. -/
theorem staysInBuffer_noFile (hfile : a.file = none) (hlength : mChannels.length ≤ kMaxNumChannels)
    {refused : Bool} (hstage : c.stage2 a buf = .nothing buf mChannels refused) :
    c.StaysInBuffer a buf := by
  cases refused with
  | true => exact (staysInBuffer_refused hstage).mpr hlength
  | false =>
    refine (staysInBuffer_idle hstage).mpr ⟨hlength, fun sf hsf => ?_⟩
    rw [hfile] at hsf
    cases hsf

theorem holdsWhen_allocRead (a : ReadAnswers) (buf : SndBuf) (mFileOffset mNumFrames : Word) :
    (allocRead mFileOffset mNumFrames).StaysInBuffer a buf ↔
      (allocRead mFileOffset mNumFrames).HoldsWhen a buf := by
  have hstage : (allocRead mFileOffset mNumFrames).stage2 a buf =
      bufAllocRead a buf mFileOffset.toInt mNumFrames.toInt := rfl
  unfold bufAllocRead at hstage
  unfold HoldsWhen
  cases hfile : a.file with
  | none =>
    rw [hfile] at hstage
    exact iff_of_true (staysInBuffer_noFile hfile (Nat.zero_le _) hstage) (by simp)
  | some sf =>
    rw [hfile] at hstage
    simp only [sf.clipFileOffset_eq, sf.clipNumFrames_eq] at hstage
    rw [staysInBuffer_all hfile hstage rfl]
    simp

theorem holdsWhen_allocReadChannel (a : ReadAnswers) (buf : SndBuf)
    (mFileOffset mNumFrames : Word) (channels : List Word) :
    (allocReadChannel mFileOffset mNumFrames channels).StaysInBuffer a buf ↔
      (allocReadChannel mFileOffset mNumFrames channels).HoldsWhen a buf := by
  have hstage : (allocReadChannel mFileOffset mNumFrames channels).stage2 a buf =
      bufAllocReadChannel a buf mFileOffset.toInt mNumFrames.toInt (initChannelsFrom channels) := rfl
  by_cases hlength : channels.length ≤ kMaxNumChannels
  swap
  · refine iff_of_false (fun hstays => hlength ?_) fun h => hlength h.1
    have hinside := hstays.inside.channels
    rwa [hstage, length_bufAllocReadChannel, length_initChannelsFrom_le_iff] at hinside
  simp only [HoldsWhen, hlength, true_and]
  cases hfile : a.file with
  | none =>
    unfold bufAllocReadChannel at hstage
    rw [hfile] at hstage
    exact iff_of_true (staysInBuffer_noFile hfile ((length_initChannelsFrom_le_iff _).mpr hlength)
      hstage) (by simp)
  | some sf =>
    simp only [Option.mem_some_iff, forall_eq']
    by_cases hnone : channels = []
    · unfold bufAllocReadChannel at hstage
      simp only [hfile, sf.clipFileOffset_eq, sf.clipNumFrames_eq, hnone] at hstage
      rw [if_pos hnone, hnone]
      exact staysInBuffer_all hfile hstage rfl
    · rw [if_neg hnone]
      exact staysInBuffer_allocListed hfile hnone hlength

theorem holdsWhen_read (a : ReadAnswers) (buf : IntSndBuf)
    (mFileOffset mNumFrames mBufOffset : Word) :
    (read mFileOffset mNumFrames mBufOffset).StaysInBuffer a buf.toSndBuf ↔
      (read mFileOffset mNumFrames mBufOffset).HoldsWhen a buf.toSndBuf := by
  unfold HoldsWhen
  cases hfile : a.file with
  | some sf =>
    rw [staysInBuffer_read hfile]
    simp
  | none =>
    have hstage : (read mFileOffset mNumFrames mBufOffset).stage2 a buf.toSndBuf =
        bufRead a buf.toSndBuf mFileOffset.toInt mNumFrames.toInt mBufOffset.toInt := rfl
    unfold bufRead at hstage
    rw [hfile] at hstage
    refine iff_of_true ?_ (by simp)
    dsimp only at hstage
    split_ifs at hstage
    · exact staysInBuffer_noFile hfile (Nat.zero_le _) hstage
    · exact staysInBuffer_noFile hfile (Nat.zero_le _) hstage

theorem holdsWhen_readChannel (a : ReadAnswers) (buf : IntSndBuf)
    (mFileOffset mNumFrames mBufOffset : Word) (channels : List Word) :
    (readChannel mFileOffset mNumFrames mBufOffset channels).StaysInBuffer a buf.toSndBuf ↔
      (readChannel mFileOffset mNumFrames mBufOffset channels).HoldsWhen a buf.toSndBuf := by
  have hstage : (readChannel mFileOffset mNumFrames mBufOffset channels).stage2 a buf.toSndBuf =
      bufReadChannel a buf.toSndBuf mFileOffset.toInt mNumFrames.toInt mBufOffset.toInt
        (initChannelsFrom channels) := rfl
  by_cases hlength : channels.length ≤ kMaxNumChannels
  swap
  · refine iff_of_false (fun hstays => hlength ?_) fun h => hlength h.1
    have hinside := hstays.inside.channels
    rwa [hstage, length_bufReadChannel, length_initChannelsFrom_le_iff] at hinside
  simp only [HoldsWhen, hlength, true_and]
  cases hfile : a.file with
  | some sf =>
    rw [staysInBuffer_readChannel hfile hlength]
    simp
  | none =>
    unfold bufReadChannel at hstage
    rw [hfile] at hstage
    refine iff_of_true ?_ (by simp)
    have hinit := (length_initChannelsFrom_le_iff _).mpr hlength
    dsimp only at hstage
    split_ifs at hstage
    · exact staysInBuffer_noFile hfile hinit hstage
    · exact staysInBuffer_noFile hfile hinit hstage

/-- For every file, every `SndBuf` and every request: nothing is stored outside, and just the
frames that exist in both are stored where they belong, if and only if the request can be met. -/
theorem staysInBuffer_iff (a : ReadAnswers) (buf : IntSndBuf) (c : ReadCommand) :
    c.StaysInBuffer a buf.toSndBuf ↔ c.HoldsWhen a buf.toSndBuf := by
  cases c with
  | allocRead mFileOffset mNumFrames => exact holdsWhen_allocRead a _ mFileOffset mNumFrames
  | allocReadChannel mFileOffset mNumFrames channels =>
    exact holdsWhen_allocReadChannel a _ mFileOffset mNumFrames channels
  | read mFileOffset mNumFrames mBufOffset =>
    exact holdsWhen_read a buf mFileOffset mNumFrames mBufOffset
  | readChannel mFileOffset mNumFrames mBufOffset channels =>
    exact holdsWhen_readChannel a buf mFileOffset mNumFrames mBufOffset channels

/-- A buffer of four samples in one channel. -/
def fourSamples : IntSndBuf where
  toSndBuf := { SndBuf.zero with data := some 0, channels := 1, samples := 4, frames := 4 }
  frames_int := by decide
  samples_int := by decide

def fourFrames : SoundFile where
  frames := 4
  channels := 1
  samplerate := 44100
  frames_nonneg := by decide
  channels_pos := by decide

/-- With a negative buffer offset the samples in front of the buffer are written over. -/
theorem not_staysInBuffer_before :
    ¬ ∀ (a : ReadAnswers) (buf : IntSndBuf) (c : ReadCommand),
      c.StaysInBuffer a buf.toSndBuf := by
  intro h
  have hstays := h ⟨{0}, none, true, some fourFrames⟩ fourSamples
    (read 0#32 0xffffffff#32 0xffffffff#32)
  have hmem : (⟨0, 0, -1, .file 0 0⟩ : SampleStore) ∈
      ((read 0#32 0xffffffff#32 0xffffffff#32).stage2 ⟨{0}, none, true, some fourFrames⟩
        fourSamples.toSndBuf).data := by
    decide
  exact absurd (hstays.inside.data _ hmem).1 (by decide)

end ReadCommand

end PoopWorms.Server
