import Mathlib.Data.Finset.Option
import Mathlib.Data.Rat.Defs
import Mathlib.Logic.Function.Basic

/-!
# Sample buffers

The commands of `SC_SequencedCommand.cpp` on the `SndBuf`s of the world. Each `SndBuf` is
kept twice: the non-real-time thread works on the mirror in stage 2, the real-time thread
takes the result over in stage 3, and the old samples are freed in stage 4. The samples
themselves are left out; `data` is the block that holds them. Sample rates are rationals.
-/

namespace PoopWorms.Server

/-- The value that an `int` holds after an assignment. -/
def int32 (x : ℤ) : ℤ := x.bmod (2 ^ 32)

/-- A block of the heap. -/
abbrev Block := ℕ

structure SndBuf where
  samplerate : ℚ
  sampledur : ℚ
  data : Option Block
  channels : ℤ
  samples : ℤ
  frames : ℤ
  mask : ℤ
  mask1 : ℤ
  coord : ℤ
  sndfile : Option ℕ

namespace SndBuf

/-- A `SndBuf` of the arrays that `World_New` clears. -/
def zero : SndBuf := ⟨0, 0, none, 0, 0, 0, 0, 0, 0, none⟩

/-- `SndBuf_Init`. -/
def init (buf : SndBuf) : SndBuf :=
  { buf with
    data := none
    channels := 0
    samples := 0
    frames := 0
    mask := 0
    mask1 := 0
    coord := 0 }

end SndBuf

/-- An allocation gets a block that is not live, or fails; `block` says which. -/
def zalloc (live : Finset Block) (block : Option Block) : Option Block :=
  block.filter fun b => b ∉ live

/-- `BUFMASK`. -/
def bufMask (x : ℤ) : ℤ := 2 ^ Nat.log2 x.toNat - 1

/-- `bufAlloc`, without its error code. -/
def bufAlloc (live : Finset Block) (block : Option Block) (buf : SndBuf)
    (numChannels numFrames : ℤ) (sampleRate : ℚ) : SndBuf × Finset Block :=
  let numSamples := int32 (numFrames * numChannels)
  if numSamples < 1 then (buf, live)
  else
    match zalloc live block with
    | none => ({ buf with data := none }, live)
    | some b =>
      ({ buf with
        data := some b
        channels := numChannels
        frames := numFrames
        samples := numSamples
        mask := bufMask numSamples
        mask1 := bufMask numSamples - 1
        samplerate := sampleRate
        sampledur := 1 / sampleRate }, insert b live)

/-! ## Commands -/

/-- The fields of `SF_INFO` that are read. -/
structure FileInfo where
  frames : ℤ
  channels : ℤ
  samplerate : ℤ

/-- The commands, with the arguments that matter to more than the samples. -/
inductive BufCommand (γ : Type*)
  | alloc (mNumFrames mNumChannels : ℤ)
  | gen (mBufGen : γ)
  | free
  | zero
  | allocRead (mFileOffset mNumFrames : ℤ)
  | allocReadChannel (mFileOffset mNumFrames : ℤ) (mChannels : List ℤ)
  | read (mBufOffset : ℤ) (mLeaveFileOpen : Bool)
  | readChannel (mBufOffset : ℤ) (mLeaveFileOpen : Bool) (mChannels : List ℤ)
  | write (mLeaveFileOpen : Bool)
  | close

structure BufCmd (γ : Type*) where
  mBufIndex : ℤ
  command : BufCommand γ
  mFreeData : Option Block
  mSndBuf : SndBuf
  mSampleRate : ℚ

/-- A command with the fields that its stages set. -/
def BufCmd.new {γ : Type*} (mBufIndex : ℤ) (command : BufCommand γ) : BufCmd γ :=
  ⟨mBufIndex, command, none, .zero, 0⟩

/-- What stage 2 gets from outside: a block, and a file that could be opened. -/
structure Answers where
  block : Option Block
  file : Option (ℕ × FileInfo)

def clipFileOffset (mFileOffset : ℤ) (fileinfo : FileInfo) : ℤ :=
  if mFileOffset < 0 then 0
  else if mFileOffset > fileinfo.frames then int32 fileinfo.frames else mFileOffset

/-- How many frames are allocated and read, with a clipped offset. -/
def clipNumFrames (mFileOffset mNumFrames : ℤ) (fileinfo : FileInfo) : ℤ :=
  if mNumFrames ≤ 0 ∨ int32 (mNumFrames + mFileOffset) > fileinfo.frames
  then int32 (fileinfo.frames - mFileOffset) else mNumFrames

/-- `CheckChannels`. -/
def checkChannels (mChannels : List ℤ) (inNumChannels : ℤ) : Bool :=
  mChannels.all fun c => c < inNumChannels

/-- The file that a buffer keeps open after a command. -/
def SndBuf.leaveOpen (buf : SndBuf) (mLeaveFileOpen : Bool) (sf : ℕ) : SndBuf :=
  if mLeaveFileOpen ∧ buf.sndfile.isNone then { buf with sndfile := some sf } else buf

/-- What stage 2 leaves: the mirror, the heap, the command, and what it returns. -/
structure Stage2Result (γ : Type*) where
  buf : SndBuf
  live : Finset Block
  cmd : BufCmd γ
  ret : Bool

section Stages

variable {γ : Type*} (bufGenFunc : γ → SndBuf → Option Block → SndBuf)

namespace BufCmd

/-- The part that the allocating commands share: the old block is freed in stage 4. -/
def allocate (sampleRate : ℚ) (a : Answers) (live : Finset Block) (buf : SndBuf)
    (c : BufCmd γ) (numChannels numFrames : ℤ) : Stage2Result γ :=
  let r := bufAlloc live a.block buf numChannels numFrames sampleRate
  ⟨r.1, r.2, { c with mFreeData := buf.data, mSndBuf := r.1 }, true⟩

/-- The second stages. -/
def stage2 (worldRate : ℚ) (a : Answers) (live : Finset Block) (buf : SndBuf)
    (c : BufCmd γ) : Stage2Result γ :=
  match c.command with
  | .alloc mNumFrames mNumChannels => c.allocate worldRate a live buf mNumChannels mNumFrames
  | .gen mBufGen =>
    let newBuf := bufGenFunc mBufGen buf (zalloc live a.block)
    -- a function that keeps the samples where they are leaves nothing to free
    let mFreeData := if newBuf.data = buf.data then none else buf.data
    ⟨newBuf, live ∪ newBuf.data.toFinset, { c with mFreeData := mFreeData, mSndBuf := newBuf }, true⟩
  | .free => ⟨buf.init, live, { c with mFreeData := buf.data }, true⟩
  | .zero => ⟨buf, live, c, true⟩
  | .allocRead mFileOffset mNumFrames =>
    match a.file with
    | none => ⟨buf, live, c, false⟩
    | some (_, fileinfo) =>
      c.allocate fileinfo.samplerate a live buf fileinfo.channels
        (clipNumFrames (clipFileOffset mFileOffset fileinfo) mNumFrames fileinfo)
  | .allocReadChannel mFileOffset mNumFrames mChannels =>
    match a.file with
    | none => ⟨buf, live, c, false⟩
    | some (_, fileinfo) =>
      let numFrames := clipNumFrames (clipFileOffset mFileOffset fileinfo) mNumFrames fileinfo
      if mChannels.length = 0 then
        c.allocate fileinfo.samplerate a live buf fileinfo.channels numFrames
      else if checkChannels mChannels fileinfo.channels then
        c.allocate fileinfo.samplerate a live buf mChannels.length numFrames
      else ⟨buf, live, c, false⟩
  | .read mBufOffset mLeaveFileOpen =>
    if int32 (buf.frames - mBufOffset) ≤ 0 then ⟨buf, live, c, true⟩
    else
      match a.file with
      | none => ⟨buf, live, c, false⟩
      | some (sf, fileinfo) =>
        if fileinfo.channels ≠ buf.channels then ⟨buf, live, c, false⟩
        else ⟨buf.leaveOpen mLeaveFileOpen sf, live,
          { c with mSampleRate := fileinfo.samplerate }, true⟩
  | .readChannel mBufOffset mLeaveFileOpen mChannels =>
    if int32 (buf.frames - mBufOffset) ≤ 0 then ⟨buf, live, c, true⟩
    else
      match a.file with
      | none => ⟨buf, live, c, false⟩
      | some (sf, fileinfo) =>
        if mChannels.length > 0 ∧ ¬ checkChannels mChannels fileinfo.channels then
          ⟨buf, live, c, false⟩
        else ⟨buf.leaveOpen mLeaveFileOpen sf, live,
          { c with mSampleRate := fileinfo.samplerate }, true⟩
  | .write mLeaveFileOpen =>
    match a.file with
    | none => ⟨buf, live, c, false⟩
    | some (sf, _) => ⟨buf.leaveOpen mLeaveFileOpen sf, live, c, true⟩
  | .close => ⟨{ buf with sndfile := none }, live, c, true⟩

/-- The third stages, on the buffer of the real-time thread. -/
def stage3 (c : BufCmd γ) (buf : SndBuf) : SndBuf :=
  match c.command with
  | .alloc .. | .gen _ | .allocRead .. | .allocReadChannel .. => c.mSndBuf
  | .free => buf.init
  | .read .. | .readChannel .. => { buf with samplerate := c.mSampleRate }
  | .zero | .write _ | .close => buf

/-- Whether the third stage counts a write in `mSndBufUpdates`. -/
def countsWrite (c : BufCmd γ) : Bool :=
  match c.command with
  | .write _ | .close => false
  | _ => true

/-- The block that the fourth stage frees. -/
def stage4 (c : BufCmd γ) : Option Block :=
  match c.command with
  | .alloc .. | .gen _ | .free | .allocRead .. | .allocReadChannel .. => c.mFreeData
  | _ => none

end BufCmd

/-! ## The two threads -/

/-- A command on its way to the non-real-time thread, by the stage that comes next. -/
inductive FromEngine (γ : Type*)
  | stage2 (c : BufCmd γ)
  | stage4 (c : BufCmd γ)

/-- A command on its way to the real-time thread. -/
inductive ToEngine (γ : Type*)
  | stage3 (c : BufCmd γ)
  | freeSequencedCommand (c : BufCmd γ)

structure BufWorld (γ : Type*) where
  mNumSndBufs : ℕ
  mSampleRate : ℚ
  mSndBufs : ℕ → SndBuf
  mSndBufsNonRealTimeMirror : ℕ → SndBuf
  /-- `SndBufUpdates::writes` -/
  mSndBufUpdates : ℤ → ℕ
  live : Finset Block
  mFromEngine : List (FromEngine γ)
  mToEngine : List (ToEngine γ)

/-- The steps of the two threads. Stage 3 performs the completion message of its command,
which may hold further commands. -/
inductive BufAct (γ : Type*)
  | start (c : BufCmd γ)
  | performFromEngine (a : Answers)
  | performToEngine (completion : List (BufCmd γ))

namespace BufWorld

/-- The buffers of `World_New`. -/
def new (mNumSndBufs : ℕ) (mSampleRate : ℚ) : BufWorld γ where
  mNumSndBufs := mNumSndBufs
  mSampleRate := mSampleRate
  mSndBufs := fun _ => .zero
  mSndBufsNonRealTimeMirror := fun _ => .zero
  mSndBufUpdates := fun _ => 0
  live := ∅
  mFromEngine := []
  mToEngine := []

/-- The place that `World_GetBuf` and `World_GetNRTBuf` look at, for an index that they
get as a `uint32`. -/
def bufPlace (s : BufWorld γ) (index : ℤ) : ℕ :=
  let index := (index % 2 ^ 32).toNat
  if index > s.mNumSndBufs then 0 else index

/-- The first stage of a command sends it to the other thread. -/
def start (s : BufWorld γ) (c : BufCmd γ) : BufWorld γ :=
  { s with mFromEngine := s.mFromEngine ++ [.stage2 c] }

def performStage2 (s : BufWorld γ) (a : Answers) (c : BufCmd γ) : BufWorld γ :=
  let place := s.bufPlace c.mBufIndex
  let r := c.stage2 bufGenFunc s.mSampleRate a s.live (s.mSndBufsNonRealTimeMirror place)
  { s with
    mSndBufsNonRealTimeMirror := Function.update s.mSndBufsNonRealTimeMirror place r.buf
    live := r.live
    mToEngine := s.mToEngine ++ [if r.ret then .stage3 r.cmd else .freeSequencedCommand r.cmd] }

def performStage3 (s : BufWorld γ) (completion : List (BufCmd γ)) (c : BufCmd γ) : BufWorld γ :=
  let place := s.bufPlace c.mBufIndex
  { s with
    mSndBufs := Function.update s.mSndBufs place (c.stage3 (s.mSndBufs place))
    mSndBufUpdates :=
      if c.countsWrite then
        Function.update s.mSndBufUpdates c.mBufIndex (s.mSndBufUpdates c.mBufIndex + 1)
      else s.mSndBufUpdates
    mFromEngine := s.mFromEngine ++ completion.map FromEngine.stage2 ++ [.stage4 c] }

def performStage4 (s : BufWorld γ) (c : BufCmd γ) : BufWorld γ :=
  { s with
    live := s.live \ c.stage4.toFinset
    mToEngine := s.mToEngine ++ [.freeSequencedCommand c] }

/-- One step. A thread that has no message does nothing. -/
def step (s : BufWorld γ) : BufAct γ → BufWorld γ
  | .start c => s.start c
  | .performFromEngine a =>
    match s.mFromEngine with
    | [] => s
    | .stage2 c :: mFromEngine =>
      { s with mFromEngine := mFromEngine }.performStage2 bufGenFunc a c
    | .stage4 c :: mFromEngine => { s with mFromEngine := mFromEngine }.performStage4 c
  | .performToEngine completion =>
    match s.mToEngine with
    | [] => s
    | .stage3 c :: mToEngine => { s with mToEngine := mToEngine }.performStage3 completion c
    | .freeSequencedCommand _ :: mToEngine => { s with mToEngine := mToEngine }

/-! ## What the mirror is for -/

/-- The two copies of a buffer agree. -/
def Agree (buf buf' : SndBuf) : Prop :=
  buf.data = buf'.data ∧ buf.samples = buf'.samples ∧ buf.frames = buf'.frames ∧
    buf.channels = buf'.channels

structure Consistent (s : BufWorld γ) : Prop where
  agree : s.mFromEngine = [] → s.mToEngine = [] → ∀ i < s.mNumSndBufs,
    Agree (s.mSndBufs i) (s.mSndBufsNonRealTimeMirror i)
  samples : ∀ i < s.mNumSndBufs,
    (s.mSndBufs i).frames * (s.mSndBufs i).channels = (s.mSndBufs i).samples ∧
      (s.mSndBufsNonRealTimeMirror i).frames * (s.mSndBufsNonRealTimeMirror i).channels =
        (s.mSndBufsNonRealTimeMirror i).samples
  data : ∀ i < s.mNumSndBufs, ∀ b, (s.mSndBufs i).data = some b →
    b ∈ s.live ∧ ∀ j < s.mNumSndBufs, j ≠ i →
      (s.mSndBufs j).data ≠ some b ∧ (s.mSndBufsNonRealTimeMirror j).data ≠ some b

end BufWorld

end Stages

end PoopWorms.Server
