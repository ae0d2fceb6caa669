import PoopWorms.Lib.Blocks
import PoopWorms.Server.BundleLoop

/-!
# Non real time synthesis

`World_NonRealTimeSynthesis` renders a score, a file of bundles that each follow their size. It
works through the score in blocks and writes the blocks in buffers. The world is whatever the
bundles and `World_Run` make of it.
-/

namespace PoopWorms.Server

open Octets Osc Loops Blocks
open scoped List

/-- What the loop calls: `PerformOSCBundle` with the sample offset it finds in the world, and
`World_Run` from the frames of the input buses to those of the output buses; and what it computes in
floating point, the increment of a block and the floor of `diffTime`. -/
structure ScoreHost (World Frame : Type) where
  bufLength : ℕ
  oscInc : ℤ
  diffTimeFloor : ℤ → ℤ
  performOSCBundle : World → ℕ → List Byte → World
  worldRun : World → Option (List Frame) → World × List Frame
  silence : Frame

/-- What `nextOSCPacket` finds. -/
inductive NextPacket
  | atEnd
  | threw
  | packet (mSize : ℕ) (outTime : ℤ) (file mData : List Byte)

/-- `nextOSCPacket`. The bytes behind those that are read stay as they are in `mData`. -/
def nextOSCPacket (file mData : List Byte) : NextPacket :=
  match oscInt file with
  | none => .atEnd
  | some msglen =>
    if 8192 < msglen.toInt then .threw
    else
      let bytes := (file.drop 4).take msglen.toInt.toNat
      if (bytes.length : ℤ) ≠ msglen.toInt then .threw
      else
        let mData := bytes ++ mData.drop bytes.length
        if mData.take 8 ≠ bundleString ++ [0#8] then .threw
        else match oscDouble (mData.drop 8) with
          | some outTime => .packet bytes.length outTime.toInt (file.drop (4 + bytes.length)) mData
          | none => .threw

/-- The world, the files and the variables of the loop. -/
structure Synthesis (World Frame : Type) where
  world : World
  cmdFile : List Byte
  mData : List Byte
  mSize : ℕ
  schedTime : ℤ
  prevTime : ℤ
  oscTime : ℤ
  inputFile : Option (List Frame)
  outputFile : List Frame

/-- How the loop over the ready commands ends. -/
inductive Ready
  | later
  | atEnd
  | outOfOrder
deriving DecidableEq

/-- The state in which the loop begins. -/
def start {World Frame : Type} (world : World) (cmdFile msgbuf : List Byte)
    (inputFile : Option (List Frame)) : Option (Synthesis World Frame) :=
  match nextOSCPacket cmdFile msgbuf with
  | .packet mSize schedTime cmdFile mData => some
      { world, cmdFile, mData, mSize, schedTime, prevTime := schedTime, oscTime := 0, inputFile,
        outputFile := [] }
  | .atEnd => none
  | .threw => none

namespace ScoreHost

variable {World Frame : Type} (host : ScoreHost World Frame)

def sampleOffset (diffTimeFloor : ℤ) : ℕ :=
  if diffTimeFloor < 0 then 0
  else if (host.bufLength : ℤ) ≤ diffTimeFloor then host.bufLength - 1
  else diffTimeFloor.toNat

/-- One turn of the loop over the ready commands. -/
def readyTurn (nextTime : ℤ) (s : Synthesis World Frame) :
    Option (Turn (Synthesis World Frame) (Synthesis World Frame × Ready)) :=
  if s.schedTime ≤ nextTime then
    let mSampleOffset := host.sampleOffset (host.diffTimeFloor (s.schedTime - s.oscTime))
    let s := { s with
      world := host.performOSCBundle s.world mSampleOffset (s.mData.take s.mSize) }
    match nextOSCPacket s.cmdFile s.mData with
    | .threw => none
    | .atEnd => some (.stop (s, .atEnd))
    | .packet mSize schedTime cmdFile mData =>
      let s := { s with mSize, schedTime, cmdFile, mData }
      if s.schedTime < s.prevTime then some (.stop (s, .outOfOrder))
      else some (.again { s with prevTime := s.schedTime })
  else some (.stop (s, .later))

/-- Every turn but the last takes a packet from the file. -/
def readyCommands (nextTime : ℤ) (s : Synthesis World Frame) :
    Option (Synthesis World Frame × Ready) :=
  loop (host.readyTurn nextTime) (s.cmdFile.length + 1) s

/-- The blocks of a buffer, and whether to go on. -/
def blocks (inputFileBuf : Option (List Frame)) :
    ℕ → Synthesis World Frame → List Frame → Option (Synthesis World Frame × List Frame × Bool)
  | 0, s, outputFileBuf => some (s, outputFileBuf, true)
  | left + 1, s, outputFileBuf => do
    let nextTime := s.oscTime + host.oscInc
    let (s, ready) ← host.readyCommands nextTime s
    if ready = .outOfOrder then return (s, outputFileBuf, false)
    else do
      let (world, frames) := host.worldRun s.world (inputFileBuf.map (List.take host.bufLength))
      let s := { s with world, oscTime := nextTime }
      if ready = .atEnd then return (s, outputFileBuf ++ frames, false)
      else blocks (inputFileBuf.map (List.drop host.bufLength)) left s (outputFileBuf ++ frames)

/-- What is read for a buffer, with silence behind the end of the file. -/
def readBuffer (fileBufFrames : ℕ) (inputFile : List Frame) : List Frame :=
  let framesRead := inputFile.take fileBufFrames
  framesRead ++ List.replicate (fileBufFrames - framesRead.length) host.silence

/-- One buffer. -/
def bufferTurn (bufMultiple : ℕ) (s : Synthesis World Frame) :
    Option (Turn (Synthesis World Frame) (Synthesis World Frame)) := do
  let fileBufFrames := bufMultiple * host.bufLength
  let inputFileBuf := s.inputFile.map (host.readBuffer fileBufFrames)
  let s := { s with inputFile := s.inputFile.map (List.drop fileBufFrames) }
  let (s, outputFileBuf, run) ← host.blocks inputFileBuf bufMultiple s []
  let s := { s with outputFile := s.outputFile ++ outputFileBuf }
  return if run then .again s else .stop s

/-- `bufMultiple`, from `mPreferredHardwareBufferFrameSize`. -/
def bufMultiple (mPreferredHardwareBufferFrameSize : ℤ) : ℕ :=
  let fileBufFrames := if mPreferredHardwareBufferFrameSize ≤ 0 then 8192
    else mPreferredHardwareBufferFrameSize.toNat
  (fileBufFrames + host.bufLength - 1) / host.bufLength

/-- `World_NonRealTimeSynthesis` comes to its end. -/
def Synthesizes (mPreferredHardwareBufferFrameSize : ℤ) (world : World) (cmdFile msgbuf : List Byte)
    (inputFile : Option (List Frame)) (s : Synthesis World Frame) : Prop :=
  ∃ s₀, start world cmdFile msgbuf inputFile = some s₀ ∧
    Ends (host.bufferTurn (host.bufMultiple mPreferredHardwareBufferFrameSize)) s₀ s

/-! ## The score -/

end ScoreHost

/-- A bundle that `nextOSCPacket` reads. -/
structure ScoreBundle where
  bytes : List Byte
  outTime : BitVec 64
  isBundle : bytes.take 8 = bundleString ++ [0#8]
  hasTime : oscDouble (bytes.drop 8) = some outTime
  short : bytes.length ≤ 8192

namespace ScoreBundle

def time (b : ScoreBundle) : ℤ := b.outTime.toInt

/-- The bundle in the file, behind its size. -/
def framed (b : ScoreBundle) : List Byte := BundleLoop.element b.bytes

end ScoreBundle

variable {World Frame : Type} {b : ScoreBundle} {rest mData : List Byte}

theorem oscInt_append_of_some {xs : List Byte} {u : Word} (h : oscInt xs = some u)
    (ys : List Byte) : oscInt (xs ++ ys) = some u := by
  obtain ⟨x, y, z, w, rest, rfl, rfl⟩ := oscInt_eq_some h
  rfl

theorem oscDouble_append {xs : List Byte} {t : BitVec 64} (h : oscDouble xs = some t)
    (ys : List Byte) : oscDouble (xs ++ ys) = some t := by
  unfold oscDouble at *
  simp only [bind, Option.bind_eq_some_iff] at *
  obtain ⟨hi, hhi, lo, hlo, ht⟩ := h
  have hlength : 4 ≤ xs.length := by
    obtain ⟨x, y, z, w, rest, rfl, -⟩ := oscInt_eq_some hhi
    simp
  refine ⟨hi, oscInt_append_of_some hhi ys, lo, ?_, ht⟩
  rw [List.drop_append_of_le_length hlength]
  exact oscInt_append_of_some hlo ys

/-- What is in the file behind a size is the packet, and the file goes on behind it. -/
theorem nextOSCPacket_framed :
    nextOSCPacket (b.framed ++ rest) mData =
      .packet b.bytes.length b.time rest (b.bytes ++ mData.drop b.bytes.length) := by
  have hshort := b.short
  have hsize : oscInt (b.framed ++ rest) = some (BitVec.ofNat 32 b.bytes.length) := by
    rw [ScoreBundle.framed, BundleLoop.element, List.append_assoc,
      oscInt_append (BundleLoop.length_lengthBytes _)]
    exact congrArg some (MsgIter.swap32_wordOf_beBytes _)
  have hint : (BitVec.ofNat 32 b.bytes.length).toInt = b.bytes.length := by
    have hnat : (BitVec.ofNat 32 b.bytes.length).toNat = b.bytes.length := by
      rw [BitVec.toNat_ofNat, Nat.mod_eq_of_lt (by omega)]
    rw [BitVec.toInt_eq_toNat_of_lt (by omega), hnat]
  have hdrop : (b.framed ++ rest).drop 4 = b.bytes ++ rest := by
    rw [ScoreBundle.framed, BundleLoop.element, List.append_assoc,
      ← BundleLoop.length_lengthBytes b.bytes.length, List.drop_left]
  have hbehind : (b.framed ++ rest).drop (4 + b.bytes.length) = rest := by
    rw [← List.drop_drop, hdrop, List.drop_left]
  have height : 8 ≤ b.bytes.length := by
    have hlen := congrArg List.length b.isBundle
    rw [List.length_take] at hlen
    change _ = 8 at hlen
    omega
  have htag : (b.bytes ++ mData.drop b.bytes.length).take 8 = bundleString ++ [0#8] := by
    rw [List.take_append_of_le_length height, b.isBundle]
  have htime : oscDouble ((b.bytes ++ mData.drop b.bytes.length).drop 8) = some b.outTime := by
    rw [List.drop_append_of_le_length height]
    exact oscDouble_append b.hasTime _
  simp only [nextOSCPacket, hsize, hint, hdrop, Int.toNat_natCast, List.take_left, hbehind,
    if_neg (show ¬ (8192 : ℤ) < b.bytes.length by omega), ne_eq, not_true_eq_false, if_false, htag,
    htime]
  rfl

theorem nextOSCPacket_nil : nextOSCPacket [] mData = .atEnd := rfl

/-- What ends the score behind a bundle of that time: the end of the file, or a bundle out of
order. -/
inductive Ending (lastTime : ℤ) : List Byte → Ready → Prop
  | atEnd : Ending lastTime [] .atEnd
  | outOfOrder {b : ScoreBundle} {rest : List Byte} (h : b.time < lastTime) :
    Ending lastTime (b.framed ++ rest) .outOfOrder

/-- The packet is the bundle, and the file goes on with these and then with the rest. -/
structure Holds (s : Synthesis World Frame) (b : ScoreBundle) (bundles : List ScoreBundle)
    (rest : List Byte) : Prop where
  packet : s.mData.take s.mSize = b.bytes
  schedTime : s.schedTime = b.time
  prevTime : s.prevTime = b.time
  file : s.cmdFile = bundles.flatMap ScoreBundle.framed ++ rest

namespace ScoreHost

variable (host : ScoreHost World Frame)

/-- A bundle is performed, in a block that begins at the time. -/
def play (oscTime : ℤ) (world : World) (b : ScoreBundle) : World :=
  host.performOSCBundle world (host.sampleOffset (host.diffTimeFloor (b.time - oscTime))) b.bytes

/-- The block in which a bundle is performed. -/
def blockOf (b : ScoreBundle) : ℕ := ((b.time - 1) / host.oscInc).toNat

/-- The frames of the input for a block. -/
def blockInput (inputFile : Option (List Frame)) (i : ℕ) : Option (List Frame) :=
  inputFile.map fun l => piece host.silence host.bufLength (l.drop (i * host.bufLength))

/-- The world behind the bundles that are due in a block, before it is run. -/
def played (score : List ScoreBundle) (i : ℕ) (world : World) : World :=
  (due host.blockOf i score).foldl (host.play (i * host.oscInc)) world

/-- What so many blocks of the score come to, one after the other: the world and the output. -/
def rendered (score : List ScoreBundle) (inputFile : Option (List Frame)) (world : World) :
    ℕ → World × List Frame
  | 0 => (world, [])
  | i + 1 =>
    let before := rendered score inputFile world i
    let after := host.worldRun (host.played score i before.1) (host.blockInput inputFile i)
    (after.1, before.2 ++ after.2)

variable {host} {s : Synthesis World Frame} {nextTime : ℤ} {r : Ready}

theorem readyTurn_later (h : nextTime < s.schedTime) :
    host.readyTurn nextTime s = some (.stop (s, .later)) := by
  rw [readyTurn, if_neg (by omega)]

theorem readyTurn_again {b b' : ScoreBundle} {bundles : List ScoreBundle}
    (h : Holds s b (b' :: bundles) rest) (hdue : b.time ≤ nextTime) (horder : b.time ≤ b'.time) :
    ∃ s', host.readyTurn nextTime s = some (.again s') ∧ Holds s' b' bundles rest ∧
      s'.world = host.play s.oscTime s.world b ∧ s'.oscTime = s.oscTime ∧
      s'.inputFile = s.inputFile ∧ s'.outputFile = s.outputFile := by
  have hnext := @nextOSCPacket_framed b' (bundles.flatMap ScoreBundle.framed ++ rest) s.mData
  rw [readyTurn, if_pos (by rw [h.schedTime]; exact hdue), h.packet, h.schedTime, h.file,
    List.flatMap_cons, List.append_assoc]
  dsimp only
  rw [hnext]
  dsimp only
  rw [if_neg (by rw [h.prevTime]; omega)]
  exact ⟨_, rfl, ⟨List.take_left, rfl, rfl, rfl⟩, rfl, rfl, rfl, rfl⟩

theorem readyTurn_stop (h : Holds s b [] rest) (hdue : b.time ≤ nextTime)
    (hrest : Ending b.time rest r) :
    ∃ s', host.readyTurn nextTime s = some (.stop (s', r)) ∧
      s'.world = host.play s.oscTime s.world b ∧ s'.oscTime = s.oscTime ∧
      s'.inputFile = s.inputFile ∧ s'.outputFile = s.outputFile := by
  rw [readyTurn, if_pos (by rw [h.schedTime]; exact hdue), h.packet, h.schedTime, h.file,
    List.flatMap_nil, List.nil_append]
  dsimp only
  cases hrest with
  | atEnd =>
    rw [nextOSCPacket_nil]
    exact ⟨_, rfl, rfl, rfl, rfl, rfl⟩
  | @outOfOrder b' rest h' =>
    rw [nextOSCPacket_framed]
    dsimp only
    rw [if_pos (by rw [h.prevTime]; exact h')]
    exact ⟨_, rfl, rfl, rfl, rfl, rfl⟩

/-! ## The ready commands -/

/-- What the loop over the ready commands leaves: the bundles in `now` performed, and the
first of `later` in the packet. -/
structure Readied (host : ScoreHost World Frame) (now later : List ScoreBundle) (rest : List Byte)
    (s s' : Synthesis World Frame) : Prop where
  world : s'.world = now.foldl (host.play s.oscTime) s.world
  oscTime : s'.oscTime = s.oscTime
  inputFile : s'.inputFile = s.inputFile
  outputFile : s'.outputFile = s.outputFile
  holds : ∀ b bundles, later = b :: bundles → Holds s' b bundles rest

theorem loop_ready {now later : List ScoreBundle} {b : ScoreBundle} {n : ℕ}
    (hholds : Holds s b (now ++ later) rest) (hdue : ∀ a ∈ b :: now, a.time ≤ nextTime)
    (hlater : ∀ a ∈ later, nextTime < a.time) (horder : (b :: now).Pairwise (·.time ≤ ·.time))
    (hrest : later = [] → Ending ((b :: now).getLast (by simp)).time rest r)
    (hn : (now ++ later).length < n) :
    ∃ s', loop (host.readyTurn nextTime) n s = some (s', if later = [] then r else .later) ∧
      Readied host (b :: now) later rest s s' := by
  obtain ⟨n, rfl⟩ : ∃ m, n = m + 1 := ⟨n - 1, by omega⟩
  induction now generalizing s b n with
  | nil =>
    cases later with
    | nil =>
      obtain ⟨s', hturn, hworld, hosc, hin, hout⟩ :=
        readyTurn_stop hholds (hdue b List.mem_cons_self) (hrest rfl)
      exact ⟨s', loop_stop hturn, hworld, hosc, hin, hout, nofun⟩
    | cons b' later =>
      have hb' := hlater b' List.mem_cons_self
      have hb := hdue b List.mem_cons_self
      obtain ⟨s', hturn, hholds', hworld, hosc, hin, hout⟩ :=
        readyTurn_again hholds hb (by omega)
      obtain ⟨n, rfl⟩ : ∃ m, n = m + 1 := ⟨n - 1, by simp at hn; omega⟩
      refine ⟨s', ?_, hworld, hosc, hin, hout, ?_⟩
      · rw [loop_again hturn, loop_stop (readyTurn_later (by rw [hholds'.schedTime]; exact hb'))]
        rfl
      · intro c bundles heq
        cases heq
        exact hholds'
  | cons b' now ih =>
    obtain ⟨s', hturn, hholds', hworld, hosc, hin, hout⟩ := readyTurn_again hholds
      (hdue b List.mem_cons_self) ((List.pairwise_cons.mp horder).1 b' List.mem_cons_self)
    obtain ⟨n, rfl⟩ : ∃ m, n = m + 1 := ⟨n - 1, by simp at hn; omega⟩
    obtain ⟨s'', hloop, hready⟩ := ih hholds' (fun a ha => hdue a (List.mem_cons_of_mem _ ha))
      (List.pairwise_cons.mp horder).2
      (fun hnone => by
        have h := hrest hnone
        rwa [List.getLast_cons_cons] at h)
      n (by simp at hn ⊢; omega)
    refine ⟨s'', by rw [loop_again hturn, hloop], ?_, ?_, ?_, ?_, hready.holds⟩
    · rw [hready.world, hosc, hworld]
      rfl
    · rw [hready.oscTime, hosc]
    · rw [hready.inputFile, hin]
    · rw [hready.outputFile, hout]

theorem length_le_flatMap_framed (bundles : List ScoreBundle) :
    bundles.length ≤ (bundles.flatMap ScoreBundle.framed).length := by
  induction bundles with
  | nil => exact le_rfl
  | cons b bundles ih =>
    rw [List.flatMap_cons, List.length_append, ScoreBundle.framed, BundleLoop.element,
      List.length_append, BundleLoop.length_lengthBytes, List.length_cons]
    omega

/-- The file is long enough for as many turns as there are bundles. -/
theorem readyCommands_eq {now later : List ScoreBundle} {b : ScoreBundle}
    (hholds : Holds s b (now ++ later) rest) (hdue : ∀ a ∈ b :: now, a.time ≤ nextTime)
    (hlater : ∀ a ∈ later, nextTime < a.time) (horder : (b :: now).Pairwise (·.time ≤ ·.time))
    (hrest : later = [] → Ending ((b :: now).getLast (by simp)).time rest r) :
    ∃ s', host.readyCommands nextTime s = some (s', if later = [] then r else .later) ∧
      Readied host (b :: now) later rest s s' := by
  apply loop_ready hholds hdue hlater horder hrest
  have hlength := length_le_flatMap_framed (now ++ later)
  have hfile : s.cmdFile.length
      = ((now ++ later).flatMap ScoreBundle.framed).length + rest.length := by
    rw [hholds.file, List.length_append]
  omega

theorem readyCommands_none (h : nextTime < s.schedTime) :
    host.readyCommands nextTime s = some (s, .later) :=
  loop_stop (readyTurn_later h)

/-! ## The blocks -/

/-- What is left of a score of which so many blocks are rendered. -/
structure AtBlock (host : ScoreHost World Frame) (score : List ScoreBundle) (rest : List Byte)
    (inputFile : Option (List Frame)) (world : World) (i : ℕ) (s : Synthesis World Frame)
    (outputFileBuf : List Frame) : Prop where
  oscTime : s.oscTime = i * host.oscInc
  holds : ∃ b bundles, pending host.blockOf i score = b :: bundles ∧ Holds s b bundles rest
  rendered : (s.world, s.outputFile ++ outputFileBuf) = host.rendered score inputFile world i

/-- What is left in the end. A block in which a bundle is out of order is not written. -/
def outcome (host : ScoreHost World Frame) (score : List ScoreBundle)
    (inputFile : Option (List Frame)) (world : World) (last : ℕ) (r : Ready) :
    World × List Frame :=
  if r = .outOfOrder then
    let before := host.rendered score inputFile world last
    (host.played score last before.1, before.2)
  else host.rendered score inputFile world (last + 1)

section Score

variable {score : List ScoreBundle} {inputFile : Option (List Frame)} {world : World} {i : ℕ}
  {outputFileBuf : List Frame}

theorem blockOf_le_iff (hinc : 0 < host.oscInc) {b : ScoreBundle} :
    host.blockOf b ≤ i ↔ b.time ≤ i * host.oscInc + host.oscInc := by
  rw [blockOf, Int.toNat_le, ← Int.lt_add_one_iff, Int.ediv_lt_iff_lt_mul hinc, add_mul, one_mul]
  omega

theorem sorted_blockOf (hinc : 0 < host.oscInc) (h : score.Pairwise (·.time ≤ ·.time)) :
    score.Pairwise (host.blockOf · ≤ host.blockOf ·) := by
  refine h.imp fun {a b} hab => ?_
  rw [blockOf_le_iff hinc]
  exact hab.trans ((blockOf_le_iff hinc).mp le_rfl)

theorem ready_block (hinc : 0 < host.oscInc) (h : score.Pairwise (·.time ≤ ·.time))
    (hne : score ≠ []) (hrest : Ending (score.getLast hne).time rest r)
    (hat : AtBlock host score rest inputFile world i s outputFileBuf) :
    ∃ s', host.readyCommands (s.oscTime + host.oscInc) s
        = some (s', if pending host.blockOf (i + 1) score = [] then r else .later) ∧
      Readied host (due host.blockOf i score) (pending host.blockOf (i + 1) score) rest s s' := by
  obtain ⟨hosc, ⟨b, bundles, hpending, hholds⟩, -⟩ := hat
  have hsplit := due_append_pending (i := i) (sorted_blockOf hinc h)
  have hlater : ∀ a ∈ pending host.blockOf (i + 1) score, s.oscTime + host.oscInc < a.time := by
    intro a ha
    have hle := (mem_pending.mp ha).2
    have hnot := mt (blockOf_le_iff hinc).mpr (show ¬ host.blockOf a ≤ i by omega)
    omega
  generalize hl : pending host.blockOf (i + 1) score = later at *
  cases hd : due host.blockOf i score with
  | nil =>
    rw [hd, List.nil_append, hpending] at hsplit
    subst hsplit
    have hb := hlater b List.mem_cons_self
    refine ⟨s, readyCommands_none (by rw [hholds.schedTime]; exact hb), rfl, rfl, rfl, rfl, ?_⟩
    intro b' bundles' heq
    cases heq
    exact hholds
  | cons b' now =>
    rw [hd, hpending, List.cons_append, List.cons.injEq] at hsplit
    obtain ⟨rfl, rfl⟩ := hsplit
    have hsub : b' :: now <+ score := hd ▸ List.filter_sublist
    apply readyCommands_eq hholds _ hlater (h.sublist hsub)
    · intro hnone
      -- the last one that is due is the last one of the score
      have hall := flatMap_due (n := i) (sorted_blockOf hinc h)
      rw [hpending, hnone, List.append_nil] at hall
      have hlast : score.getLast hne = (b' :: now).getLast (List.cons_ne_nil _ _) :=
        (List.getLast_congr hne (by simp) hall.symm).trans (List.getLast_append_of_ne_nil _ _)
      rwa [← hlast]
    · intro a ha
      have hmem : a ∈ due host.blockOf i score := hd ▸ ha
      have hle := (blockOf_le_iff (i := i) hinc).mp (mem_due.mp hmem).2.le
      omega

/-- The block that a nonempty list of pending bundles is worked on in. -/
theorem AtBlock.le_last (h : score.Pairwise (·.time ≤ ·.time)) (hinc : 0 < host.oscInc)
    (hne : score ≠ []) (hat : AtBlock host score rest inputFile world i s outputFileBuf) :
    i ≤ host.blockOf (score.getLast hne) := by
  obtain ⟨b, bundles, hpending, -⟩ := hat.holds
  rw [← pending_ne_nil (sorted_blockOf hinc h) hne, hpending]
  exact List.cons_ne_nil _ _

/-- Once nothing is pending behind a block, it is the last one. -/
theorem AtBlock.eq_last (h : score.Pairwise (·.time ≤ ·.time)) (hinc : 0 < host.oscInc)
    (hne : score ≠ []) (hat : AtBlock host score rest inputFile world i s outputFileBuf)
    (hnone : pending host.blockOf (i + 1) score = []) : i = host.blockOf (score.getLast hne) := by
  have hle := hat.le_last h hinc hne
  have hnot := mt (pending_ne_nil (sorted_blockOf hinc h) hne).mpr (not_not.mpr hnone)
  omega

variable (host) in
/-- The pieces of the input that the blocks of a buffer take. -/
def pieces (inputFile : Option (List Frame)) (i left : ℕ) : Option (List Frame) :=
  inputFile.map fun l => piece host.silence (left * host.bufLength) (l.drop (i * host.bufLength))

theorem pieces_take (left : ℕ) : (host.pieces inputFile i (left + 1)).map (List.take host.bufLength)
    = host.blockInput inputFile i := by
  rw [pieces, blockInput, Option.map_map]
  congr 1
  funext l
  rw [Function.comp_apply, add_mul, one_mul, add_comm, take_piece]

theorem pieces_drop (left : ℕ) : (host.pieces inputFile i (left + 1)).map (List.drop host.bufLength)
    = host.pieces inputFile (i + 1) left := by
  rw [pieces, pieces, Option.map_map]
  congr 1
  funext l
  rw [Function.comp_apply, add_mul, one_mul, add_comm, drop_piece, List.drop_drop, add_mul, one_mul]

/-- A block: the ready commands, and `World_Run` unless they were out of order. -/
theorem blocks_succ {inputFileBuf : Option (List Frame)} {left : ℕ} {s₁ : Synthesis World Frame}
    {ready : Ready} {ran : World × List Frame}
    (hready : host.readyCommands (s.oscTime + host.oscInc) s = some (s₁, ready))
    (hrun : host.worldRun s₁.world (inputFileBuf.map (List.take host.bufLength)) = ran) :
    host.blocks inputFileBuf (left + 1) s outputFileBuf =
      if ready = .outOfOrder then some (s₁, outputFileBuf, false)
      else if ready = .atEnd then
        some ({ s₁ with world := ran.1, oscTime := s.oscTime + host.oscInc },
          outputFileBuf ++ ran.2, false)
      else host.blocks (inputFileBuf.map (List.drop host.bufLength)) left
        { s₁ with world := ran.1, oscTime := s.oscTime + host.oscInc }
        (outputFileBuf ++ ran.2) := by
  subst hrun
  rw [blocks, hready]
  rfl

/-- The blocks of a buffer: either all of them are rendered and there is more to come, or the score
has come to its end. -/
theorem blocks_run (hinc : 0 < host.oscInc) (h : score.Pairwise (·.time ≤ ·.time))
    (hne : score ≠ []) (hrest : Ending (score.getLast hne).time rest r) (left : ℕ)
    (hat : AtBlock host score rest inputFile world i s outputFileBuf) :
    ∃ s' frames run, host.blocks (host.pieces inputFile i left) left s outputFileBuf
        = some (s', frames, run) ∧
      s'.inputFile = s.inputFile ∧
      (run = true → AtBlock host score rest inputFile world (i + left) s' frames) ∧
      (run = false → (s'.world, s'.outputFile ++ frames)
        = host.outcome score inputFile world (host.blockOf (score.getLast hne)) r) := by
  induction left generalizing i s outputFileBuf with
  | zero => exact ⟨s, outputFileBuf, true, rfl, rfl, fun _ => hat, nofun⟩
  | succ left ih =>
    obtain ⟨s₁, hready, hs₁⟩ := ready_block hinc h hne hrest hat
    have hworld : s.world = (host.rendered score inputFile world i).1 :=
      congrArg Prod.fst hat.rendered
    have hout : s.outputFile ++ outputFileBuf = (host.rendered score inputFile world i).2 :=
      congrArg Prod.snd hat.rendered
    have hplayed : s₁.world = host.played score i s.world := by
      rw [hs₁.world, hat.oscTime, played]
    -- a block that is run is the next one of the rendering
    have hnext : ∀ ran, host.worldRun s₁.world (host.blockInput inputFile i) = ran →
        (ran.1, s₁.outputFile ++ (outputFileBuf ++ ran.2))
          = host.rendered score inputFile world (i + 1) := by
      intro ran hrun
      rw [hplayed, hworld] at hrun
      rw [rendered, hrun, hs₁.outputFile, ← List.append_assoc, hout]
    generalize hrun : host.worldRun s₁.world (host.blockInput inputFile i) = ran
    rw [blocks_succ hready (by rw [pieces_take, hrun]), pieces_drop]
    by_cases hnone : pending host.blockOf (i + 1) score = []
    · rw [if_pos hnone]
      have hlast := hat.eq_last h hinc hne hnone
      cases hrest with
      | atEnd =>
        rw [if_neg (by decide), if_pos rfl]
        refine ⟨_, _, _, rfl, hs₁.inputFile, nofun, fun _ => ?_⟩
        rw [outcome, if_neg (by decide), ← hlast]
        exact hnext ran hrun
      | outOfOrder _ =>
        rw [if_pos rfl]
        refine ⟨_, _, _, rfl, hs₁.inputFile, nofun, fun _ => ?_⟩
        rw [outcome, if_pos rfl, ← hlast, hs₁.outputFile, hout, hplayed, hworld]
    · rw [if_neg hnone, if_neg (by decide), if_neg (by decide)]
      obtain ⟨b, bundles, hpending⟩ := List.exists_cons_of_ne_nil hnone
      have hat' : AtBlock host score rest inputFile world (i + 1)
          { s₁ with world := ran.1, oscTime := s.oscTime + host.oscInc }
          (outputFileBuf ++ ran.2) := by
        refine ⟨?_, ⟨b, bundles, hpending, ?_⟩, hnext ran hrun⟩
        · rw [hat.oscTime]
          push_cast
          ring
        · have hholds := hs₁.holds b bundles hpending
          exact ⟨hholds.packet, hholds.schedTime, hholds.prevTime, hholds.file⟩
      obtain ⟨s', frames', run, hblocks, hin, hagain, hstop⟩ := ih hat'
      refine ⟨s', frames', run, hblocks, hin.trans hs₁.inputFile, ?_, hstop⟩
      rw [← Nat.add_assoc, Nat.add_right_comm i left 1]
      exact hagain

theorem readBuffer_eq (n : ℕ) (l : List Frame) : host.readBuffer n l = piece host.silence n l := by
  rw [readBuffer, piece, List.length_take]
  congr 2
  omega

/-- One buffer. -/
theorem bufferTurn_run (hinc : 0 < host.oscInc) (h : score.Pairwise (·.time ≤ ·.time))
    (hne : score ≠ []) (hrest : Ending (score.getLast hne).time rest r) (bufMultiple : ℕ)
    (hat : AtBlock host score rest inputFile world i s [])
    (hin : s.inputFile = inputFile.map (List.drop (i * host.bufLength))) :
    (∃ s', host.bufferTurn bufMultiple s = some (.again s') ∧
      AtBlock host score rest inputFile world (i + bufMultiple) s' [] ∧
      s'.inputFile = inputFile.map (List.drop ((i + bufMultiple) * host.bufLength))) ∨
    ∃ s', host.bufferTurn bufMultiple s = some (.stop s') ∧ (s'.world, s'.outputFile)
      = host.outcome score inputFile world (host.blockOf (score.getLast hne)) r := by
  have hpieces : s.inputFile.map (host.readBuffer (bufMultiple * host.bufLength))
      = host.pieces inputFile i bufMultiple := by
    rw [hin, Option.map_map, pieces]
    congr 1
    funext l
    exact readBuffer_eq _ _
  have hbehind : s.inputFile.map (List.drop (bufMultiple * host.bufLength))
      = inputFile.map (List.drop ((i + bufMultiple) * host.bufLength)) := by
    rw [hin, Option.map_map]
    congr 1
    funext l
    rw [Function.comp_apply, List.drop_drop, add_mul]
  have hat' : AtBlock host score rest inputFile world i
      { s with inputFile := s.inputFile.map (List.drop (bufMultiple * host.bufLength)) } [] := by
    obtain ⟨b, bundles, hpending, hholds⟩ := hat.holds
    exact ⟨hat.oscTime, ⟨b, bundles, hpending, hholds.packet, hholds.schedTime, hholds.prevTime,
      hholds.file⟩, hat.rendered⟩
  obtain ⟨s', frames, run, hblocks, hin', hagain, hstop⟩ :=
    blocks_run hinc h hne hrest bufMultiple hat'
  rw [bufferTurn]
  simp only [hpieces, hblocks, Option.bind_eq_bind, Option.bind_some]
  cases run with
  | true =>
    have hnext := hagain rfl
    obtain ⟨b, bundles, hpending, hholds⟩ := hnext.holds
    refine .inl ⟨_, rfl, ⟨hnext.oscTime, ⟨b, bundles, hpending, hholds.packet, hholds.schedTime,
      hholds.prevTime, hholds.file⟩, ?_⟩, hin'.trans hbehind⟩
    rw [List.append_nil]
    exact hnext.rendered
  | false => exact .inr ⟨_, rfl, hstop rfl⟩

theorem ends_of_atBlock (hinc : 0 < host.oscInc) (h : score.Pairwise (·.time ≤ ·.time))
    (hne : score ≠ []) (hrest : Ending (score.getLast hne).time rest r) {bufMultiple : ℕ}
    (hpos : 0 < bufMultiple) (hat : AtBlock host score rest inputFile world i s [])
    (hin : s.inputFile = inputFile.map (List.drop (i * host.bufLength))) :
    ∃ s', Ends (host.bufferTurn bufMultiple) s s' ∧ (s'.world, s'.outputFile)
      = host.outcome score inputFile world (host.blockOf (score.getLast hne)) r := by
  -- each buffer brings the loop nearer to the block of the last bundle
  generalize hk : host.blockOf (score.getLast hne) + 1 - i = k
  induction k using Nat.strong_induction_on generalizing i s with
  | _ k ih =>
    have hle := hat.le_last h hinc hne
    rcases bufferTurn_run hinc h hne hrest bufMultiple hat hin with
      ⟨s', hturn, hat', hin'⟩ | ⟨s', hturn, hs'⟩
    · have hlt : host.blockOf (score.getLast hne) + 1 - (i + bufMultiple) < k := by omega
      obtain ⟨s'', hends, hs''⟩ := ih _ hlt hat' hin' rfl
      exact ⟨s'', .again hturn hends, hs''⟩
    · exact ⟨s', .stop hturn, hs'⟩

theorem bufMultiple_pos (hbuf : 0 < host.bufLength) (n : ℤ) : 0 < host.bufMultiple n := by
  rw [bufMultiple]
  apply Nat.div_pos _ hbuf
  split_ifs <;> omega

theorem synthesizes_outcome (hbuf : 0 < host.bufLength) (hinc : 0 < host.oscInc)
    (hne : score ≠ []) (h : score.Pairwise (·.time ≤ ·.time))
    (hrest : Ending (score.getLast hne).time rest r) (world : World)
    (inputFile : Option (List Frame)) (msgbuf : List Byte) (n : ℤ) :
    ∃ s, host.Synthesizes n world (score.flatMap ScoreBundle.framed ++ rest) msgbuf inputFile s ∧
      (s.world, s.outputFile)
        = host.outcome score inputFile world (host.blockOf (score.getLast hne)) r := by
  obtain ⟨b, bundles, rfl⟩ := List.exists_cons_of_ne_nil hne
  have hstart : ∃ s₀, start world ((b :: bundles).flatMap ScoreBundle.framed ++ rest) msgbuf
      inputFile = some s₀ ∧ AtBlock host (b :: bundles) rest inputFile world 0 s₀ [] ∧
      s₀.inputFile = inputFile := by
    rw [List.flatMap_cons, List.append_assoc, start, nextOSCPacket_framed]
    refine ⟨_, rfl, ⟨?_, ⟨b, bundles, pending_zero, List.take_left, rfl, rfl, rfl⟩, rfl⟩, rfl⟩
    simp
  obtain ⟨s₀, hs₀, hat, hin⟩ := hstart
  have hin' : s₀.inputFile = inputFile.map (List.drop (0 * host.bufLength)) := by
    rw [hin, Nat.zero_mul]
    cases inputFile <;> rfl
  obtain ⟨s, hends, hs⟩ :=
    ends_of_atBlock hinc h hne hrest (host.bufMultiple_pos hbuf n) hat hin'
  exact ⟨s, ⟨s₀, hs₀, hends⟩, hs⟩

variable (host) in
/-- A score in order of time comes to the same world and the same output with any size of the
buffers: its blocks one after the other up to the one of the last bundle, with each bundle
performed once, in its block. Behind a bundle out of order the synthesis ends, and does not write
the block. -/
theorem synthesis_renders (hbuf : 0 < host.bufLength) (hinc : 0 < host.oscInc)
    (hne : score ≠ []) (h : score.Pairwise (·.time ≤ ·.time)) (world : World)
    (inputFile : Option (List Frame)) (msgbuf : List Byte)
    (mPreferredHardwareBufferFrameSize : ℤ) :
    (∃ s, host.Synthesizes mPreferredHardwareBufferFrameSize world
        (score.flatMap ScoreBundle.framed) msgbuf inputFile s ∧
      (s.world, s.outputFile) = host.rendered score inputFile world
        (host.blockOf (score.getLast hne) + 1)) ∧
    (∀ (b : ScoreBundle) (rest : List Byte), b.time < (score.getLast hne).time →
      ∃ s, host.Synthesizes mPreferredHardwareBufferFrameSize world
          (score.flatMap ScoreBundle.framed ++ (b.framed ++ rest)) msgbuf inputFile s ∧
        s.world = host.played score (host.blockOf (score.getLast hne))
          (host.rendered score inputFile world (host.blockOf (score.getLast hne))).1 ∧
        s.outputFile
          = (host.rendered score inputFile world (host.blockOf (score.getLast hne))).2) ∧
    (List.range (host.blockOf (score.getLast hne) + 1)).flatMap (due host.blockOf · score)
      = score := by
  refine ⟨?_, ?_, ?_⟩
  · obtain ⟨s, hs, hout⟩ := synthesizes_outcome hbuf hinc hne h .atEnd world inputFile msgbuf
      mPreferredHardwareBufferFrameSize
    rw [List.append_nil] at hs
    exact ⟨s, hs, hout⟩
  · intro b rest hb
    have hrest : Ending (score.getLast hne).time (b.framed ++ rest) .outOfOrder := .outOfOrder hb
    obtain ⟨s, hs, hout⟩ := synthesizes_outcome hbuf hinc hne h hrest world inputFile msgbuf
      mPreferredHardwareBufferFrameSize
    exact ⟨s, hs, congrArg Prod.fst hout, congrArg Prod.snd hout⟩
  · have hsorted := sorted_blockOf hinc h
    have hnone : pending host.blockOf (host.blockOf (score.getLast hne) + 1) score = [] := by
      by_contra hsome
      have hle := (pending_ne_nil hsorted hne).mp hsome
      omega
    have hall := flatMap_due (n := host.blockOf (score.getLast hne) + 1) hsorted
    rwa [hnone, List.append_nil] at hall

end Score

/-- A block of two frames lasts ten, the world counts the bundles, and the output says how many
there were and what was read. -/
def counting : ScoreHost ℕ ℕ where
  bufLength := 2
  oscInc := 10
  diffTimeFloor t := t / 5
  performOSCBundle world _ _ := world + 1
  worldRun world input := (world, world :: (input.getD []).take 1)
  silence := 0

/-- An empty bundle. -/
def emptyBundle (t : Byte) : ScoreBundle where
  bytes := bundleString ++ [0#8] ++ [0#8, 0#8, 0#8, 0#8, 0#8, 0#8, 0#8, t]
  outTime := 0#56 ++ t
  isBundle := rfl
  hasTime := by
    revert t
    decide
  short := by
    change 16 ≤ 8192
    omega

/-- Two bundles, in the first and in the third block. The input ends in the second one. -/
theorem synthesis_renders_two :
    ∃ s, counting.Synthesizes 4 0 ([emptyBundle 3#8, emptyBundle 25#8].flatMap ScoreBundle.framed)
      [] (some [7, 8, 9]) s ∧ s.world = 2 ∧ s.outputFile = [1, 7, 1, 9, 2, 0] := by
  have h : [emptyBundle 3#8, emptyBundle 25#8].Pairwise (·.time ≤ ·.time) := by
    simp only [List.pairwise_cons, List.mem_singleton, forall_eq, List.not_mem_nil, false_imp_iff,
      implies_true, List.Pairwise.nil, and_true]
    decide
  obtain ⟨s, hs, hout⟩ := (synthesis_renders counting (by decide) (by decide)
    (List.cons_ne_nil _ _) h 0 (some [7, 8, 9]) [] 4).1
  exact ⟨s, hs, congrArg Prod.fst hout, congrArg Prod.snd hout⟩

end ScoreHost

end PoopWorms.Server
