import PoopWorms.Lib.Octets
import PoopWorms.Server.SndBuf

/-!
# Reading sound files

The samples that the reading commands of `SC_SequencedCommand.cpp` store in their second stage;
what these commands do to the rest of a `SndBuf` is in `SndBuf.lean`. The numbers of a message
are the `int`s that `geti` gives, and the product of two `int`s is an `int`, but a file may have
more frames than an `int` can count.
-/

namespace PoopWorms.Server

open Octets

/-- What a sample holds: a sample of the file, silence, or what `malloc` left there. -/
inductive Sample
  | file (frame channel : ℤ)
  | zero
  | unset
  deriving DecidableEq

/-- A store of one sample, with the frame, counted from the first that is read, and the channel
that it is for. -/
structure SampleStore where
  frame : ℤ
  channel : ℤ
  place : ℤ
  value : Sample
  deriving DecidableEq

/-- An opened file. -/
structure SoundFile extends FileInfo where
  frames_nonneg : 0 ≤ frames
  channels_pos : 0 < channels

/-- `sf_readf_float`, from the frame `pos` on: the frames that there are, from `dst` on. -/
def SoundFile.readf (sf : SoundFile) (pos dst frames : ℤ) : List SampleStore :=
  (List.range (min frames (sf.frames - pos)).toNat).flatMap fun (k : ℕ) =>
    (List.range sf.channels.toNat).map fun (c : ℕ) =>
      ⟨k, c, dst + k * sf.channels + c, .file (pos + k) c⟩

/-- What has been stored at `place` of the memory that `malloc` gave. -/
def storedAt (temp : List SampleStore) (place : ℤ) : Sample :=
  ((temp.find? fun s => s.place = place).map SampleStore.value).getD .unset

/-! ## Channel lists -/

def kMaxNumChannels : ℕ := 32

/-- `InitChannels`, on the integers of the message. -/
def initChannelsFrom (msg : List Word) : List ℤ :=
  msg.foldl (fun mChannels c =>
    -- one more than there is room for
    if mChannels.length ≤ kMaxNumChannels then mChannels ++ [c.toInt] else mChannels) []

/-- `CopyChannels`, from the start of `src`. -/
def copyChannels (mChannels : List ℤ) (dst : ℤ) (src : List SampleStore) (srcChannels : ℤ)
    (numFrames : ℕ) : List SampleStore :=
  mChannels.zipIdx.flatMap fun c =>
    (List.range numFrames).map fun (fi : ℕ) =>
      ⟨fi, c.2, dst + fi * mChannels.length + c.2,
        if 0 ≤ c.1 ∧ c.1 < srcChannels then storedAt src (fi * srcChannels + c.1) else .zero⟩

/-- A count of frames as a `size_t`. -/
def frameCount (numFrames : ℤ) : ℕ := (numFrames % 2 ^ 64).toNat

/-! ## The second stages -/

/-- What stage 2 gets from outside: the heap, a block of it, whether `malloc` finds memory for a
temporary buffer, and the file if it could be opened. -/
structure ReadAnswers where
  live : Finset Block
  block : Option Block
  malloc : Bool
  file : Option SoundFile

/-- A negative size is a huge one for `malloc`. -/
def ReadAnswers.mallocs (a : ReadAnswers) (samples : ℤ) : Bool := a.malloc && 0 ≤ samples

/-- What stage 2 leaves: the buffer, what it has stored there and in a temporary buffer for
`tempSamples` samples, and the channel list that the command was made with. -/
structure ReadResult where
  buf : SndBuf
  data : List SampleStore
  temp : List SampleStore
  tempSamples : ℤ
  mChannels : List ℤ
  /-- The command failed before it read anything. -/
  refused : Bool

/-- A command that stores nothing. -/
def ReadResult.nothing (buf : SndBuf) (mChannels : List ℤ) (refused : Bool) : ReadResult :=
  ⟨buf, [], [], 0, mChannels, refused⟩

/-- The error code of `bufAlloc`. -/
def bufAllocErr (live : Finset Block) (block : Option Block) (numChannels numFrames : ℤ) : Bool :=
  decide (int32 (numFrames * numChannels) < 1) || (zalloc live block).isNone

/-- How many frames `/b_read` and `/b_readChannel` read, before they look at the buffer. -/
def clipReadFrames (mFileOffset mNumFrames : ℤ) (fileinfo : FileInfo) : ℤ :=
  if mNumFrames < 0 ∨ int32 (mNumFrames + mFileOffset) > fileinfo.frames
  then int32 (fileinfo.frames - mFileOffset) else mNumFrames

section Stages

variable (a : ReadAnswers) (buf : SndBuf)

/-- The commands that allocate read all channels alike. -/
def allocReadAll (sf : SoundFile) (mFileOffset mNumFrames : ℤ) : ReadResult :=
  let r := bufAlloc a.live a.block buf sf.channels mNumFrames sf.samplerate
  if bufAllocErr a.live a.block sf.channels mNumFrames then .nothing r.1 [] true
  else ⟨r.1, sf.readf mFileOffset 0 mNumFrames, [], 0, [], false⟩

/-- `BufAllocReadCmd::Stage2` -/
def bufAllocRead (mFileOffset mNumFrames : ℤ) : ReadResult :=
  match a.file with
  | none => .nothing buf [] true
  | some sf =>
    let mFileOffset := clipFileOffset mFileOffset sf.toFileInfo
    let mNumFrames := clipNumFrames mFileOffset mNumFrames sf.toFileInfo
    allocReadAll a buf sf mFileOffset mNumFrames

/-- `BufAllocReadChannelCmd::Stage2` -/
def bufAllocReadChannel (mFileOffset mNumFrames : ℤ) (mChannels : List ℤ) : ReadResult :=
  match a.file with
  | none => .nothing buf mChannels true
  | some sf =>
    let mFileOffset := clipFileOffset mFileOffset sf.toFileInfo
    let mNumFrames := clipNumFrames mFileOffset mNumFrames sf.toFileInfo
    if mChannels.length = 0 then allocReadAll a buf sf mFileOffset mNumFrames
    else if ¬ checkChannels mChannels sf.channels then .nothing buf mChannels true
    else
      let r := bufAlloc a.live a.block buf mChannels.length mNumFrames sf.samplerate
      if bufAllocErr a.live a.block mChannels.length mNumFrames then .nothing r.1 mChannels true
      else if ¬ a.mallocs (int32 (mNumFrames * sf.channels)) then .nothing r.1 mChannels true
      else
        let data := sf.readf mFileOffset 0 mNumFrames
        ⟨r.1, copyChannels mChannels 0 data sf.channels (frameCount mNumFrames), data,
          int32 (mNumFrames * sf.channels), mChannels, false⟩

/-- `BufReadCmd::Stage2` -/
def bufRead (mFileOffset mNumFrames mBufOffset : ℤ) : ReadResult :=
  let framesToEnd := int32 (buf.frames - mBufOffset)
  if framesToEnd ≤ 0 then .nothing buf [] false
  else
    match a.file with
    | none => .nothing buf [] true
    | some sf =>
      if sf.channels ≠ buf.channels then .nothing buf [] true
      else
        let mFileOffset := clipFileOffset mFileOffset sf.toFileInfo
        let mNumFrames := min (clipReadFrames mFileOffset mNumFrames sf.toFileInfo) framesToEnd
        if mNumFrames > 0 then
          ⟨buf, sf.readf mFileOffset (int32 (mBufOffset * buf.channels)) mNumFrames, [], 0, [],
            false⟩
        else .nothing buf [] false

/-- `BufReadChannelCmd::Stage2` -/
def bufReadChannel (mFileOffset mNumFrames mBufOffset : ℤ) (mChannels : List ℤ) : ReadResult :=
  let framesToEnd := int32 (buf.frames - mBufOffset)
  if framesToEnd ≤ 0 then .nothing buf mChannels false
  else
    match a.file with
    | none => .nothing buf mChannels true
    | some sf =>
      if mChannels.length > 0 ∧ ¬ checkChannels mChannels sf.channels then
        .nothing buf mChannels true
      else
        let mFileOffset := clipFileOffset mFileOffset sf.toFileInfo
        let mNumFrames := min (clipReadFrames mFileOffset mNumFrames sf.toFileInfo) framesToEnd
        if mNumFrames > 0 then
          if mChannels.length = 0 then
            ⟨buf, sf.readf mFileOffset (int32 (mBufOffset * buf.channels)) mNumFrames, [], 0,
              mChannels, false⟩
          else if ¬ a.mallocs (int32 (mNumFrames * sf.channels)) then .nothing buf mChannels true
          else
            let data := sf.readf mFileOffset 0 mNumFrames
            ⟨buf, copyChannels mChannels (int32 (mBufOffset * mChannels.length)) data sf.channels
                (frameCount mNumFrames), data, int32 (mNumFrames * sf.channels), mChannels, false⟩
        else .nothing buf mChannels false

end Stages

/-- The commands, with the arguments of their messages. -/
inductive ReadCommand
  | allocRead (mFileOffset mNumFrames : Word)
  | allocReadChannel (mFileOffset mNumFrames : Word) (channels : List Word)
  | read (mFileOffset mNumFrames mBufOffset : Word)
  | readChannel (mFileOffset mNumFrames mBufOffset : Word) (channels : List Word)

def ReadCommand.stage2 (a : ReadAnswers) (buf : SndBuf) : ReadCommand → ReadResult
  | allocRead mFileOffset mNumFrames => bufAllocRead a buf mFileOffset.toInt mNumFrames.toInt
  | allocReadChannel mFileOffset mNumFrames channels =>
    bufAllocReadChannel a buf mFileOffset.toInt mNumFrames.toInt (initChannelsFrom channels)
  | read mFileOffset mNumFrames mBufOffset =>
    bufRead a buf mFileOffset.toInt mNumFrames.toInt mBufOffset.toInt
  | readChannel mFileOffset mNumFrames mBufOffset channels =>
    bufReadChannel a buf mFileOffset.toInt mNumFrames.toInt mBufOffset.toInt
      (initChannelsFrom channels)

/-! ## What the commands are for -/

/-- How many samples the block of a buffer holds. -/
def SndBuf.dataSamples (buf : SndBuf) : ℤ := if buf.data.isSome then buf.samples else 0

/-- No store is outside the memory that it is for. -/
structure ReadResult.Inside (r : ReadResult) : Prop where
  data : ∀ s ∈ r.data, 0 ≤ s.place ∧ s.place < r.buf.dataSamples
  temp : ∀ s ∈ r.temp, 0 ≤ s.place ∧ s.place < r.tempSamples
  channels : r.mChannels.length ≤ kMaxNumChannels

/-- What a command is to copy: `count` frames of the file, to the frames of the buffer from
`bufOffset` on; `value` is what the file has for a frame and a channel. -/
structure Copying where
  bufOffset : ℤ
  count : ℤ
  width : ℤ
  value : ℤ → ℤ → Sample

namespace Copying

/-- The `k`th frame is asked for, and there in the buffer too, with the channel `ci`. -/
def Wanted (w : Copying) (buf : SndBuf) (k ci : ℤ) : Prop :=
  (0 ≤ k ∧ k < w.count) ∧ (0 ≤ w.bufOffset + k ∧ w.bufOffset + k < buf.frames) ∧
    (0 ≤ ci ∧ ci < w.width ∧ ci < buf.channels)

def store (w : Copying) (buf : SndBuf) (k ci : ℤ) : SampleStore :=
  ⟨k, ci, (w.bufOffset + k) * buf.channels + ci, w.value k ci⟩

/-- The frames that are wanted are stored, each where it belongs, and nothing else. -/
def Lands (w : Copying) (buf : SndBuf) (data : List SampleStore) : Prop :=
  ∀ s, s ∈ data ↔ ∃ k ci, w.Wanted buf k ci ∧ s = w.store buf k ci

end Copying

namespace SoundFile

variable (sf : SoundFile)

/-- A file offset, brought into the file. -/
def offsetIn (mFileOffset : Word) : ℤ := max 0 (min mFileOffset.toInt sf.frames)

def framesFrom (mFileOffset : Word) : ℤ := sf.frames - sf.offsetIn mFileOffset

/-- The frames that are asked for and exist; `all` of them if the number says so. -/
def asked (mFileOffset mNumFrames : Word) (all : Bool) : ℤ :=
  if all then sf.framesFrom mFileOffset else min mNumFrames.toInt (sf.framesFrom mFileOffset)

/-- All channels, in the order of the file. -/
def allChannels (mFileOffset : Word) (k ci : ℤ) : Sample := .file (sf.offsetIn mFileOffset + k) ci

/-- The channels of a list; what is negative stands for silence. -/
def listedChannels (mFileOffset : Word) (channels : List Word) (k ci : ℤ) : Sample :=
  let c := (channels.getD ci.toNat 0#32).toInt
  if 0 ≤ c ∧ c < sf.channels then .file (sf.offsetIn mFileOffset + k) c else .zero

/-- No list stands for all channels. -/
def width (channels : List Word) : ℤ :=
  if channels = [] then sf.channels else channels.length

def valueOf (mFileOffset : Word) (channels : List Word) : ℤ → ℤ → Sample :=
  if channels = [] then sf.allChannels mFileOffset else sf.listedChannels mFileOffset channels

end SoundFile

namespace ReadCommand

def copying (sf : SoundFile) : ReadCommand → Copying
  | allocRead mFileOffset mNumFrames =>
    ⟨0, sf.asked mFileOffset mNumFrames (mNumFrames.toInt ≤ 0), sf.channels,
      sf.allChannels mFileOffset⟩
  | allocReadChannel mFileOffset mNumFrames channels =>
    ⟨0, sf.asked mFileOffset mNumFrames (mNumFrames.toInt ≤ 0), sf.width channels,
      sf.valueOf mFileOffset channels⟩
  | read mFileOffset mNumFrames mBufOffset =>
    ⟨mBufOffset.toInt, sf.asked mFileOffset mNumFrames (mNumFrames.toInt < 0), sf.channels,
      sf.allChannels mFileOffset⟩
  | readChannel mFileOffset mNumFrames mBufOffset channels =>
    ⟨mBufOffset.toInt, sf.asked mFileOffset mNumFrames (mNumFrames.toInt < 0), sf.width channels,
      sf.valueOf mFileOffset channels⟩

/-- The command stays inside the memory that it has, and what it copies lands where it belongs;
if it is refused, or there is no file, it stores nothing. -/
structure StaysInBuffer (c : ReadCommand) (a : ReadAnswers) (buf : SndBuf) : Prop where
  inside : (c.stage2 a buf).Inside
  refused : (c.stage2 a buf).refused = true ∨ a.file = none → (c.stage2 a buf).data = []
  lands : (c.stage2 a buf).refused = false → ∀ sf ∈ a.file,
    (c.copying sf).Lands (c.stage2 a buf).buf (c.stage2 a buf).data

end ReadCommand

end PoopWorms.Server
