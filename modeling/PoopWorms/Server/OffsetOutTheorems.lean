import PoopWorms.Server.OffsetOut
import PoopWorms.Lib.DelayLine
import PoopWorms.Lib.Runs

/-!
# A delay by the sample offset

Sample by sample, a call of `OffsetOut` adds to the cells of its channels: what it has kept of the
last block, and then its input. Over all blocks this is its input, later by the offset.
-/

namespace PoopWorms.Server

open Stamped DelayLine

/-! ## One channel -/

namespace Bus

variable {Sample : Type} {bufLength offset j len : ℕ} {bufCounter : BitVec 32}

/-- The places from `offset` on in the block of a channel. -/
theorem window_iff (hj : j < bufLength) (hlen : offset + len ≤ bufLength) (channel channel' : ℕ) :
    (channel * bufLength + offset ≤ channel' * bufLength + j ∧
      channel' * bufLength + j < channel * bufLength + offset + len) ↔
      channel' = channel ∧ offset ≤ j ∧ j < offset + len := by
  constructor
  · intro h
    have hchannel : channel' = channel := (place_iff hj channel channel').mp ⟨by omega, by omega⟩
    subst hchannel
    exact ⟨rfl, by omega, by omega⟩
  · rintro ⟨rfl, h⟩
    omega

theorem copy_window (hj : j < bufLength) (hlen : offset + len ≤ bufLength) (channel channel' : ℕ)
    (input samples : ℕ → Sample) :
    copy len (channel * bufLength + offset) input samples (channel' * bufLength + j) =
      if channel' = channel ∧ offset ≤ j ∧ j < offset + len then input (j - offset)
      else samples (channel' * bufLength + j) := by
  unfold copy
  rw [if_congr (window_iff hj hlen channel channel') rfl rfl]
  split_ifs with h
  · rw [h.1, show channel * bufLength + j - (channel * bufLength + offset) = j - offset by omega]
  · rfl

theorem accum_window [Add Sample] (hj : j < bufLength) (hlen : offset + len ≤ bufLength)
    (channel channel' : ℕ) (input samples : ℕ → Sample) :
    accum len (channel * bufLength + offset) input samples (channel' * bufLength + j) =
      if channel' = channel ∧ offset ≤ j ∧ j < offset + len then
        samples (channel' * bufLength + j) + input (j - offset)
      else samples (channel' * bufLength + j) := by
  unfold accum
  rw [if_congr (window_iff hj hlen channel channel') rfl rfl]
  split_ifs with h
  · rw [h.1, show channel * bufLength + j - (channel * bufLength + offset) = j - offset by omega]
  · rfl

/-- The front of the block of a channel. -/
theorem copy_front (hj : j < bufLength) (hlen : len ≤ bufLength) (channel channel' : ℕ)
    (input samples : ℕ → Sample) :
    copy len (channel * bufLength) input samples (channel' * bufLength + j) =
      if channel' = channel ∧ j < len then input j else samples (channel' * bufLength + j) := by
  have hcopy := copy_window hj (by omega : 0 + len ≤ bufLength) channel channel' input samples
  simpa using hcopy

theorem accum_front [Add Sample] (hj : j < bufLength) (hlen : len ≤ bufLength)
    (channel channel' : ℕ) (input samples : ℕ → Sample) :
    accum len (channel * bufLength) input samples (channel' * bufLength + j) =
      if channel' = channel ∧ j < len then samples (channel' * bufLength + j) + input j
      else samples (channel' * bufLength + j) := by
  have haccum := accum_window hj (by omega : 0 + len ≤ bufLength) channel channel' input samples
  simpa using haccum

/-- A bus of which one channel has been written, at sample `j`. -/
theorem stampedAt_eq_alter {bus bus' : Bus Sample} {channel : ℕ} {x : Sample}
    {f : Option Sample → Sample}
    (hcell : ∀ channel', bus'.samples (channel' * bufLength + j) =
      if channel' = channel then x else bus.samples (channel' * bufLength + j))
    (hstamp : bus'.touched = Function.update bus.touched channel bufCounter)
    (hf : f ((bus.stampedAt bufLength j bufCounter).look channel) = x) :
    bus'.stampedAt bufLength j bufCounter =
      (bus.stampedAt bufLength j bufCounter).alter channel f := by
  unfold stampedAt alter
  congr 1
  funext channel'
  rw [hcell, Function.update_apply]
  split_ifs
  · exact hf.symm
  · rfl

theorem touched_self {bus : Bus Sample} {channel : ℕ} (h : bus.touched channel = bufCounter) :
    bus.touched = Function.update bus.touched channel bufCounter := by
  rw [← h, Function.update_eq_self]

variable [AddCommGroup Sample] {bus : Bus Sample}

/-- The saved part in front, the input behind: whatever was on the channel, they are added. -/
theorem stampedAt_offsetChannel (hj : j < bufLength) (hoffset : offset ≤ bufLength)
    (empty : Bool) (channel : ℕ) (input saved : ℕ → Sample) :
    (bus.offsetChannel bufCounter bufLength offset empty (channel * bufLength) channel input
        saved).stampedAt bufLength j bufCounter =
      (bus.stampedAt bufLength j bufCounter).alter channel (ChannelWrite.add
        (if j < offset then if empty then 0 else saved j else input (j - offset))).onto := by
  have hback : offset + (bufLength - offset) ≤ bufLength := by omega
  unfold offsetChannel
  by_cases htouched : bus.touched channel = bufCounter
  · -- the channel holds what the others have written
    have hlook : (bus.stampedAt bufLength j bufCounter).look channel =
        some (bus.samples (channel * bufLength + j)) := if_pos htouched
    rw [if_pos htouched]
    refine stampedAt_eq_alter (x := bus.samples (channel * bufLength + j) +
      if j < offset then if empty then 0 else saved j else input (j - offset)) ?_
      (touched_self htouched) ?_
    · intro channel'
      dsimp only
      rw [accum_window hj hback]
      by_cases h : channel' = channel
      · subst h
        by_cases hlt : j < offset
        · cases empty <;> simp [accum_front hj hoffset, hlt, Nat.not_le.mpr hlt]
        · have hle : offset ≤ j ∧ j < offset + (bufLength - offset) := by omega
          cases empty <;> simp [accum_front hj hoffset, hlt, hle]
      · cases empty <;> simp [accum_front hj hoffset, h]
    · rw [hlook]
      rfl
  · -- what the channel holds is of an earlier block
    have hlook : (bus.stampedAt bufLength j bufCounter).look channel = none := if_neg htouched
    rw [if_neg htouched]
    refine stampedAt_eq_alter (x :=
      if j < offset then if empty then 0 else saved j else input (j - offset)) ?_ rfl ?_
    · intro channel'
      dsimp only
      rw [copy_window hj hback]
      by_cases h : channel' = channel
      · subst h
        by_cases hlt : j < offset
        · cases empty <;> simp [copy_front hj hoffset, hlt, Nat.not_le.mpr hlt]
        · have hle : offset ≤ j ∧ j < offset + (bufLength - offset) := by omega
          cases empty <;> simp [hlt, hle]
      · cases empty <;> simp [copy_front hj hoffset, h]
    · rw [hlook]
      rfl

/-- The saved part, and silence behind it. -/
theorem stampedAt_offsetTail (hj : j < bufLength) (hoffset : offset ≤ bufLength)
    (channel : ℕ) (saved : ℕ → Sample) :
    (bus.offsetTail bufCounter bufLength offset false (channel * bufLength) channel
        saved).stampedAt bufLength j bufCounter =
      (bus.stampedAt bufLength j bufCounter).alter channel (ChannelWrite.add
        (if j < offset then saved j else 0)).onto := by
  have hback : offset + (bufLength - offset) ≤ bufLength := by omega
  unfold offsetTail
  rw [if_neg Bool.false_ne_true]
  by_cases htouched : bus.touched channel = bufCounter
  · have hlook : (bus.stampedAt bufLength j bufCounter).look channel =
        some (bus.samples (channel * bufLength + j)) := if_pos htouched
    rw [if_pos htouched]
    refine stampedAt_eq_alter (x := bus.samples (channel * bufLength + j) +
      if j < offset then saved j else 0) ?_ (touched_self htouched) ?_
    · intro channel'
      dsimp only
      rw [accum_front hj hoffset]
      by_cases h : channel' = channel
      · by_cases hlt : j < offset <;> simp [h, hlt]
      · simp [h]
    · rw [hlook]
      rfl
  · have hlook : (bus.stampedAt bufLength j bufCounter).look channel = none := if_neg htouched
    rw [if_neg htouched]
    refine stampedAt_eq_alter (x := if j < offset then saved j else 0) ?_ rfl ?_
    · intro channel'
      dsimp only
      rw [copy_window hj hback, copy_front hj hoffset]
      by_cases h : channel' = channel
      · by_cases hlt : j < offset
        · simp [h, hlt, Nat.not_le.mpr hlt]
        · have hle : offset ≤ j ∧ j < offset + (bufLength - offset) := by omega
          simp [h, hlt, hle]
      · simp [h]
    · rw [hlook]
      rfl

end Bus

/-! ## All channels -/

namespace Bus

variable {Sample : Type} [AddCommGroup Sample] {bufLength offset j : ℕ} {bufCounter : BitVec 32}

/-- The changes of writers that add `v`. -/
abbrev addChanges (first numChannels j : ℕ) (v : ℕ → ℕ → Sample) :
    List (ℕ × (Option Sample → Sample)) :=
  loopChanges (fun a => (ChannelWrite.add a).onto) first numChannels j v

/-- A channel that is added to has what it had, and what is added. -/
theorem content_of_addChanges {bus bus' : Bus Sample} {first numChannels channel : ℕ}
    {v : ℕ → ℕ → Sample}
    (h : bus'.stampedAt bufLength j bufCounter = (bus.stampedAt bufLength j bufCounter).alterAll
      (addChanges first numChannels j v)) :
    bus'.content bufLength bufCounter channel j = bus.content bufLength bufCounter channel j +
      if first ≤ channel ∧ channel < first + numChannels then v (channel - first) j else 0 := by
  unfold content
  rw [h, look_alterAll, folded_loopChanges]
  split_ifs
  · cases (bus.stampedAt bufLength j bufCounter).look channel with
    | none => exact (zero_add _).symm
    | some b => rfl
  · exact (add_zero _).symm

/-- A channel that is not among those is left alone. -/
theorem samples_of_addChanges {bus bus' : Bus Sample} {first numChannels channel : ℕ}
    {v : ℕ → ℕ → Sample}
    (h : bus'.stampedAt bufLength j bufCounter = (bus.stampedAt bufLength j bufCounter).alterAll
      (addChanges first numChannels j v))
    (hchannel : channel < first ∨ first + numChannels ≤ channel) :
    bus'.samples (channel * bufLength + j) = bus.samples (channel * bufLength + j) ∧
      bus'.touched channel = bus.touched channel := by
  show (bus'.stampedAt bufLength j bufCounter).cell channel =
      (bus.stampedAt bufLength j bufCounter).cell channel ∧
    (bus'.stampedAt bufLength j bufCounter).stamp channel =
      (bus.stampedAt bufLength j bufCounter).stamp channel
  rw [h]
  apply alterAll_of_forall_ne
  intro change hmem
  obtain ⟨i, hi, rfl⟩ := List.mem_map.mp hmem
  rw [List.mem_range] at hi
  show first + i ≠ channel
  omega

end Bus

section Out

variable {Sample : Type} [AddCommGroup Sample]

/-- `Out` as one of the others. -/
def OtherWriters.out (bufCounter : BitVec 32) (bufLength : ℕ) (unit : IOUnit)
    (input : ℕ → ℕ → Sample) : OtherWriters Sample where
  write := Bus.forChannels (Bus.mixChannel bufCounter bufLength) bufLength unit input
  numBusChannels_write _ := Bus.numBusChannels_forChannels Bus.numBusChannels_mixChannel unit input

/-- `Out` adds its input to the channels it has found. -/
theorem OtherWriters.adds_out {bufCounter : BitVec 32} {bufLength first : ℕ} {unit : IOUnit}
    (hbus : unit.m_bus = first * bufLength) (htouched : unit.m_busTouched = first)
    (input : ℕ → ℕ → Sample) :
    (OtherWriters.out bufCounter bufLength unit input).Adds bufLength bufCounter
      fun channel j => if first ≤ channel ∧ channel < first + unit.numChannels
        then input (channel - first) j else 0 := by
  intro bus channel j hj
  apply Bus.content_of_addChanges
  exact Bus.stampedAt_forChannels (fun a => (ChannelWrite.add a).onto)
    (fun channel input bus => Bus.stampedAt_mixChannel hj channel input) hbus htouched input

end Out

namespace OffsetOut

variable {Sample : Type} [AddCommGroup Sample] {bufLength first j : ℕ} {bufCounter : BitVec 32}
  {unit : OffsetOut Sample} {bus : Bus Sample} {input : ℕ → ℕ → Sample}

omit [AddCommGroup Sample] in
theorem numChannels_sought (bufLength : ℕ) (unit : OffsetOut Sample) (fbusChannel : ℚ)
    (bus : Bus Sample) :
    (unit.sought bufLength fbusChannel bus).numChannels = unit.numChannels :=
  congrArg (fun f => f.2.2) (IOUnit.form_seek fbusChannel)

/-- What the unit has kept for a channel. -/
def held (unit : OffsetOut Sample) (i j : ℕ) : Sample :=
  if unit.m_empty then 0 else unit.m_saved (i * unit.mSampleOffset + j)

/-- What the unit adds in a block. -/
def stitchedSample (unit : OffsetOut Sample) (input : ℕ → ℕ → Sample) (i j : ℕ) : Sample :=
  if j < unit.mSampleOffset then unit.held i j else input i (j - unit.mSampleOffset)

/-- The loop keeps the tail of the input of each channel that it has passed. -/
theorem foldl_nextChannel_saved (bufCounter : BitVec 32) (bufLength : ℕ) (unit : OffsetOut Sample)
    (input : ℕ → ℕ → Sample) (bus : Bus Sample) (n i : ℕ) {k : ℕ}
    (hk : k < unit.mSampleOffset) :
    ((List.range n).foldl (unit.nextChannel bufCounter bufLength input)
      (unit.m_saved, bus)).1 (i * unit.mSampleOffset + k) =
        if i < n then input i (bufLength - unit.mSampleOffset + k)
        else unit.m_saved (i * unit.mSampleOffset + k) := by
  induction n with
  | zero => rfl
  | succ n ih =>
    rw [List.range_succ, List.foldl_append, List.foldl_cons, List.foldl_nil]
    generalize (List.range n).foldl (unit.nextChannel bufCounter bufLength input)
      (unit.m_saved, bus) = s at ih ⊢
    unfold nextChannel
    dsimp only
    rw [Bus.copy_front hk le_rfl n i, ih]
    by_cases hi : i = n
    · subst hi
      rw [if_pos (by omega), if_pos (by omega)]
    · by_cases hlt : i < n
      · rw [if_neg (by omega), if_pos hlt, if_pos (by omega)]
      · rw [if_neg (by omega), if_neg hlt, if_neg (by omega)]

/-- The loop adds to each channel, and reads its part of the memory before it is overwritten. -/
theorem foldl_nextChannel (unit : OffsetOut Sample) (hj : j < bufLength)
    (hoffset : unit.mSampleOffset ≤ bufLength) (hbus : unit.m_bus = first * bufLength)
    (htouched : unit.m_busTouched = first) (n : ℕ) :
    ((List.range n).foldl (unit.nextChannel bufCounter bufLength input)
        (unit.m_saved, bus)).2.stampedAt bufLength j bufCounter =
      (bus.stampedAt bufLength j bufCounter).alterAll
        (Bus.addChanges first n j (unit.stitchedSample input)) := by
  induction n with
  | zero => rfl
  | succ n ih =>
    rw [List.range_succ, List.foldl_append, List.foldl_cons, List.foldl_nil]
    have hsaved := fun hlt : j < unit.mSampleOffset =>
      foldl_nextChannel_saved bufCounter bufLength unit input bus n n hlt
    generalize (List.range n).foldl (unit.nextChannel bufCounter bufLength input)
      (unit.m_saved, bus) = s at hsaved ih ⊢
    have hheld : (if j < unit.mSampleOffset then
          if unit.m_empty then 0 else s.1 (n * unit.mSampleOffset + j)
        else input n (j - unit.mSampleOffset)) = unit.stitchedSample input n j := by
      unfold stitchedSample held
      split_ifs with hlt
      · rfl
      · rw [hsaved hlt, if_neg (lt_irrefl n)]
      · rfl
    unfold Bus.addChanges Bus.loopChanges at ih ⊢
    rw [List.range_succ, List.map_append, alterAll_append, ← ih]
    show (s.2.offsetChannel _ _ _ _ (unit.m_bus + n * bufLength) (unit.m_busTouched + n) _
      _).stampedAt _ _ _ = _
    rw [hbus, htouched, ← Nat.add_mul, Bus.stampedAt_offsetChannel hj hoffset, hheld]
    rfl

theorem foldl_offsetTail (hj : j < bufLength) (hoffset : unit.mSampleOffset ≤ bufLength)
    (hempty : unit.m_empty = false) (hbus : unit.m_bus = first * bufLength)
    (htouched : unit.m_busTouched = first) :
    (unit.dtor bufCounter bufLength bus).stampedAt bufLength j bufCounter =
      (bus.stampedAt bufLength j bufCounter).alterAll
        (Bus.addChanges first unit.numChannels j (unit.stitchedSample fun _ _ => 0)) := by
  unfold dtor
  generalize unit.numChannels = n
  induction n with
  | zero => rfl
  | succ n ih =>
    unfold Bus.addChanges Bus.loopChanges at ih ⊢
    rw [List.range_succ, List.map_append, alterAll_append, ← ih, List.foldl_append, hempty, hbus,
      htouched]
    dsimp only [List.foldl_cons, List.foldl_nil]
    have hheld : (if j < unit.mSampleOffset then unit.m_saved (n * unit.mSampleOffset + j) else 0) =
        unit.stitchedSample (fun _ _ => 0) n j := by
      simp [stitchedSample, held, hempty]
    rw [← Nat.add_mul, Bus.stampedAt_offsetTail hj hoffset, hheld]
    rfl

/-- A unit that has written nothing has nothing to write when it is deleted. -/
theorem dtor_of_empty (hempty : unit.m_empty = true) :
    unit.dtor bufCounter bufLength bus = bus := by
  unfold dtor
  rw [hempty]
  induction List.range unit.numChannels with
  | nil => rfl
  | cons i is ih => exact ih

end OffsetOut

/-! ## A block -/

/-- The channels from `fbusChannel` on are inside the bus array, which has as many samples as
`World_New` allocates. -/
structure Bus.HasChannels {Sample : Type} (bus : Bus Sample) (bufLength : ℕ) (fbusChannel : ℚ)
    (numChannels : ℕ) : Prop where
  lower : -1 < fbusChannel
  upper : fbusChannel < 2 ^ 32
  channels : uint32 fbusChannel + numChannels ≤ bus.numBusChannels
  samples : (uint32 fbusChannel + numChannels) * bufLength ≤
    bufLength * bus.numBusChannels % 2 ^ 32

/-- The first lookup of a unit finds the channel. -/
theorem IOUnit.seek_of_hasChannels {Sample : Type} {bus : Bus Sample} {bufLength : ℕ}
    {fbusChannel : ℚ} {unit : IOUnit} (hset : unit.m_fbusChannel = -1)
    (h : bus.HasChannels bufLength fbusChannel unit.numChannels) :
    (unit.seek bus.numBusChannels bufLength fbusChannel).m_bus =
        uint32 fbusChannel * bufLength ∧
      (unit.seek bus.numBusChannels bufLength fbusChannel).m_busTouched = uint32 fbusChannel := by
  have hne : fbusChannel ≠ unit.m_fbusChannel := by
    rw [hset]
    exact ne_of_gt h.lower
  have hlast : ¬ bus.numBusChannels < (uint32 fbusChannel + unit.numChannels) % 2 ^ 32 := by
    have hle := Nat.mod_le (uint32 fbusChannel + unit.numChannels) (2 ^ 32)
    have hchannels := h.channels
    omega
  have hplace : uint32 fbusChannel * bufLength % 2 ^ 32 = uint32 fbusChannel * bufLength := by
    apply Nat.mod_eq_of_lt
    calc uint32 fbusChannel * bufLength
        ≤ (uint32 fbusChannel + unit.numChannels) * bufLength :=
          Nat.mul_le_mul_right _ (Nat.le_add_right _ _)
      _ ≤ bufLength * bus.numBusChannels % 2 ^ 32 := h.samples
      _ < 2 ^ 32 := Nat.mod_lt _ (by decide)
  unfold IOUnit.seek
  rw [if_pos hne]
  dsimp only
  rw [if_pos hlast]
  exact ⟨hplace, rfl⟩

namespace OffsetRun

variable {Sample : Type} [AddCommGroup Sample] {s : OffsetRun Sample} {fbusChannel : ℚ}

/-- The unit has not been calculated yet, or it knows its channels. -/
structure Sound (fbusChannel : ℚ) (s : OffsetRun Sample) : Prop where
  offset : s.unit.mSampleOffset ≤ s.mBufLength
  fresh : s.unit.m_empty = true → s.unit.m_fbusChannel = -1 ∧
    s.mAudioBus.HasChannels s.mBufLength fbusChannel s.unit.numChannels
  found : s.unit.m_empty = false → s.unit.m_fbusChannel = fbusChannel ∧
    s.unit.m_bus = uint32 fbusChannel * s.mBufLength ∧
    s.unit.m_busTouched = uint32 fbusChannel

omit [AddCommGroup Sample] in
/-- Others do not change where the channels are. -/
theorem hasChannels_write (others : OtherWriters Sample) {bus : Bus Sample} {bufLength n : ℕ}
    (h : bus.HasChannels bufLength fbusChannel n) :
    (others.write bus).HasChannels bufLength fbusChannel n := by
  have hnum := others.numBusChannels_write bus
  exact ⟨h.lower, h.upper, hnum ▸ h.channels, hnum ▸ h.samples⟩

omit [AddCommGroup Sample] in
/-- After its lookup the unit knows its channels. -/
theorem Sound.sought (h : Sound fbusChannel s) (others : OtherWriters Sample) :
    (s.unit.sought s.mBufLength fbusChannel (others.write s.mAudioBus)).m_bus =
        uint32 fbusChannel * s.mBufLength ∧
      (s.unit.sought s.mBufLength fbusChannel (others.write s.mAudioBus)).m_busTouched =
        uint32 fbusChannel := by
  cases hempty : s.unit.m_empty with
  | true =>
    obtain ⟨hset, hchannels⟩ := h.fresh hempty
    exact IOUnit.seek_of_hasChannels hset (hasChannels_write others hchannels)
  | false =>
    obtain ⟨hset, hplaces⟩ := h.found hempty
    have hsame : s.unit.seek (others.write s.mAudioBus).numBusChannels s.mBufLength fbusChannel =
        s.unit.toIOUnit := by
      unfold IOUnit.seek
      exact if_neg (by rw [hset]; exact not_not_intro rfl)
    unfold OffsetOut.sought
    rw [hsame]
    exact hplaces

/-- What a step records of a block. -/
def record (fbusChannel : ℚ) (s : OffsetRun Sample)
    (e : OffsetBlock Sample × Option (ℕ → ℕ → Sample)) : BlockRecord Sample :=
  let found := e.1.before.write s.mAudioBus
  let left := (s.act fbusChannel found e.2).2
  ⟨e.1, s.mBufCounter, s.mAudioBus, found, left, e.1.after.write left⟩

/-- What a run records. -/
def records (fbusChannel : ℚ) : OffsetRun Sample →
    List (OffsetBlock Sample × Option (ℕ → ℕ → Sample)) → List (BlockRecord Sample)
  | _, [] => []
  | s, e :: es => s.record fbusChannel e :: records fbusChannel (s.step fbusChannel e) es

theorem log_run (es : List (OffsetBlock Sample × Option (ℕ → ℕ → Sample)))
    (s : OffsetRun Sample) :
    (Runs.run (step fbusChannel) s es).log = s.log ++ s.records fbusChannel es := by
  induction es generalizing s with
  | nil => exact (List.append_nil _).symm
  | cons e es ih =>
    have hlog : (s.step fbusChannel e).log = s.log ++ [s.record fbusChannel e] := rfl
    rw [Runs.run_cons, ih, hlog, List.append_assoc]
    rfl

/-- In a calculation the unit adds what it kept and the head of its input. -/
theorem Sound.stampedAt_calc (h : Sound fbusChannel s) (b : OffsetBlock Sample)
    (input : ℕ → ℕ → Sample) {j : ℕ} (hj : j < s.mBufLength) :
    (s.record fbusChannel (b, some input)).left.stampedAt s.mBufLength j s.mBufCounter =
      ((s.record fbusChannel (b, some input)).found.stampedAt s.mBufLength j
        s.mBufCounter).alterAll (Bus.addChanges (uint32 fbusChannel) s.unit.numChannels j
          (s.unit.stitchedSample input)) := by
  obtain ⟨hbus, htouched⟩ := h.sought b.before
  have hnum := s.unit.numChannels_sought s.mBufLength fbusChannel (b.before.write s.mAudioBus)
  rw [← hnum]
  exact OffsetOut.foldl_nextChannel (s.unit.sought s.mBufLength fbusChannel _) hj h.offset hbus
    htouched _

/-- It keeps the tail of its input. -/
theorem held_calc (b : OffsetBlock Sample) (input : ℕ → ℕ → Sample) {i k : ℕ}
    (hi : i < s.unit.numChannels) (hk : k < s.unit.mSampleOffset) :
    (s.step fbusChannel (b, some input)).unit.held i k =
      input i (s.mBufLength - s.unit.mSampleOffset + k) := by
  have hnum := s.unit.numChannels_sought s.mBufLength fbusChannel (b.before.write s.mAudioBus)
  rw [← hnum] at hi
  exact (OffsetOut.foldl_nextChannel_saved s.mBufCounter s.mBufLength
    (s.unit.sought s.mBufLength fbusChannel _) input _ _ i hk).trans (if_pos hi)

theorem Sound.calc (h : Sound fbusChannel s) (b : OffsetBlock Sample) (input : ℕ → ℕ → Sample) :
    Sound fbusChannel (s.step fbusChannel (b, some input)) where
  offset := h.offset
  fresh hempty := by cases hempty
  found _ := ⟨IOUnit.m_fbusChannel_seek fbusChannel, h.sought b.before⟩

/-- When it is deleted, the unit adds what it kept. -/
theorem Sound.stampedAt_delete (h : Sound fbusChannel s) (b : OffsetBlock Sample) {j : ℕ}
    (hj : j < s.mBufLength) (hempty : s.unit.m_empty = false) :
    (s.record fbusChannel (b, none)).left.stampedAt s.mBufLength j s.mBufCounter =
      ((s.record fbusChannel (b, none)).found.stampedAt s.mBufLength j
        s.mBufCounter).alterAll (Bus.addChanges (uint32 fbusChannel) s.unit.numChannels j
          (s.unit.stitchedSample fun _ _ => 0)) := by
  obtain ⟨-, hbus, htouched⟩ := h.found hempty
  exact OffsetOut.foldl_offsetTail hj h.offset hempty hbus htouched

/-- A channel of the unit in a block in which it has added the stitched samples. -/
theorem contributions_of_stitched {bufLength i channel : ℕ} {unit : OffsetOut Sample}
    (input : ℕ → ℕ → Sample) {e : BlockRecord Sample} (hoffset : unit.mSampleOffset ≤ bufLength)
    (h : ∀ j < bufLength, e.contribution bufLength channel j = unit.stitchedSample input i j) :
    e.contributions bufLength channel = (List.range unit.mSampleOffset).map (unit.held i) ++
      (List.range (bufLength - unit.mSampleOffset)).map (input i) := by
  have hsplit : bufLength = unit.mSampleOffset + (bufLength - unit.mSampleOffset) := by omega
  calc e.contributions bufLength channel
      = (List.range bufLength).map (unit.stitchedSample input i) := by
        apply List.map_congr_left
        intro j hj
        exact h j (List.mem_range.mp hj)
    _ = (List.range (unit.mSampleOffset + (bufLength - unit.mSampleOffset))).map
          (unit.stitchedSample input i) := by rw [← hsplit]
    _ = _ := by
        rw [List.range_add, List.map_append, List.map_map]
        congr 1
        · apply List.map_congr_left
          intro j hj
          exact if_pos (List.mem_range.mp hj)
        · apply List.map_congr_left
          intro j hj
          show unit.stitchedSample input i (unit.mSampleOffset + j) = input i j
          unfold OffsetOut.stitchedSample
          rw [if_neg (by omega), Nat.add_sub_cancel_left]

/-- What the unit adds to one of its channels. -/
theorem contribution_of_addChanges {bufLength i j first numChannels : ℕ} {e : BlockRecord Sample}
    {v : ℕ → ℕ → Sample} (hi : i < numChannels)
    (h : e.left.stampedAt bufLength j e.bufCounter =
      (e.found.stampedAt bufLength j e.bufCounter).alterAll
        (Bus.addChanges first numChannels j v)) :
    e.contribution bufLength (first + i) j = v i j := by
  have hrange : first ≤ first + i ∧ first + i < first + numChannels := by omega
  unfold BlockRecord.contribution
  rw [Bus.content_of_addChanges h, if_pos hrange, add_sub_cancel_left, Nat.add_sub_cancel_left]

theorem Sound.contributions_calc (h : Sound fbusChannel s) (b : OffsetBlock Sample)
    (input : ℕ → ℕ → Sample) {i : ℕ} (hi : i < s.unit.numChannels) :
    (s.record fbusChannel (b, some input)).contributions s.mBufLength (uint32 fbusChannel + i) =
      (List.range s.unit.mSampleOffset).map (s.unit.held i) ++
        ((List.range s.mBufLength).map (input i)).take (s.mBufLength - s.unit.mSampleOffset) := by
  rw [← List.map_take, List.take_range, Nat.min_eq_left (Nat.sub_le _ _)]
  apply contributions_of_stitched input h.offset
  intro j hj
  exact contribution_of_addChanges hi (h.stampedAt_calc b input hj)

theorem Sound.contributions_delete (h : Sound fbusChannel s) (b : OffsetBlock Sample) {i : ℕ}
    (hi : i < s.unit.numChannels) :
    (s.record fbusChannel (b, none)).contributions s.mBufLength (uint32 fbusChannel + i) =
      (List.range s.unit.mSampleOffset).map (s.unit.held i) ++
        List.replicate (s.mBufLength - s.unit.mSampleOffset) 0 := by
  have hsilence : List.replicate (s.mBufLength - s.unit.mSampleOffset) (0 : Sample) =
      (List.range (s.mBufLength - s.unit.mSampleOffset)).map fun _ => 0 := by
    rw [List.map_const', List.length_range]
  rw [hsilence]
  apply contributions_of_stitched (fun _ _ => 0) h.offset
  intro j hj
  cases hempty : s.unit.m_empty with
  | false => exact contribution_of_addChanges hi (h.stampedAt_delete b hj hempty)
  | true =>
    -- nothing was kept, and nothing is written
    have hleft : (s.record fbusChannel (b, none)).left =
        (s.record fbusChannel (b, none)).found := OffsetOut.dtor_of_empty hempty
    unfold BlockRecord.contribution
    rw [hleft, sub_self]
    simp [OffsetOut.stitchedSample, OffsetOut.held, hempty]

/-- The tail of the input is what the unit holds in the next block. -/
theorem map_held_calc (fbusChannel : ℚ) (b : OffsetBlock Sample) (input : ℕ → ℕ → Sample) {i : ℕ}
    (hi : i < s.unit.numChannels) (hoffset : s.unit.mSampleOffset ≤ s.mBufLength) :
    (List.range s.unit.mSampleOffset).map ((s.step fbusChannel (b, some input)).unit.held i) =
      ((List.range s.mBufLength).map (input i)).drop (s.mBufLength - s.unit.mSampleOffset) := by
  have hsplit : s.mBufLength =
      (s.mBufLength - s.unit.mSampleOffset) + s.unit.mSampleOffset := by omega
  have hdrop : (List.range s.mBufLength).drop (s.mBufLength - s.unit.mSampleOffset) =
      (List.range s.unit.mSampleOffset).map (s.mBufLength - s.unit.mSampleOffset + ·) := by
    calc (List.range s.mBufLength).drop (s.mBufLength - s.unit.mSampleOffset)
        = (List.range ((s.mBufLength - s.unit.mSampleOffset) + s.unit.mSampleOffset)).drop
            (s.mBufLength - s.unit.mSampleOffset) := by rw [← hsplit]
      _ = _ := by
        rw [List.range_add]
        exact List.drop_left' List.length_range
  rw [← List.map_drop, hdrop, List.map_map]
  apply List.map_congr_left
  intro k hk
  exact held_calc b input hi (List.mem_range.mp hk)

/-- Every block of a run is stitched from two blocks of the input. -/
theorem Sound.contributions (h : Sound fbusChannel s)
    (calcs : List (OffsetBlock Sample × (ℕ → ℕ → Sample))) (last : OffsetBlock Sample) {i : ℕ}
    (hi : i < s.unit.numChannels) :
    (s.records fbusChannel (events calcs last)).map
        (fun e => e.contributions s.mBufLength (uint32 fbusChannel + i)) =
      stitched (s.mBufLength - s.unit.mSampleOffset)
        (List.replicate (s.mBufLength - s.unit.mSampleOffset) 0)
        ((List.range s.unit.mSampleOffset).map (s.unit.held i))
        (calcs.map fun c => (List.range s.mBufLength).map (c.2 i)) := by
  induction calcs generalizing s with
  | nil =>
    show [(s.record fbusChannel (last, none)).contributions _ _] = _
    rw [h.contributions_delete last hi]
    rfl
  | cons c calcs ih =>
    have hnum : (s.step fbusChannel (c.1, some c.2)).unit.numChannels = s.unit.numChannels :=
      s.unit.numChannels_sought s.mBufLength fbusChannel (c.1.before.write s.mAudioBus)
    show (s.record fbusChannel (c.1, some c.2)).contributions _ _ ::
      ((s.step fbusChannel (c.1, some c.2)).records fbusChannel (events calcs last)).map _ = _
    rw [List.map_cons, stitched_cons, h.contributions_calc c.1 c.2 hi,
      ← map_held_calc fbusChannel c.1 c.2 hi h.offset]
    congr 1
    exact ih (h.calc c.1 c.2) (hnum ▸ hi)

/-- A block does nothing to the channels of others. -/
def Spares (e : BlockRecord Sample) (bufLength first numChannels : ℕ) : Prop :=
  ∀ channel, (channel < first ∨ first + numChannels ≤ channel) →
    (∀ j < bufLength, e.left.samples (channel * bufLength + j) =
      e.found.samples (channel * bufLength + j)) ∧
    e.left.touched channel = e.found.touched channel

theorem spares_of_addChanges {bufLength first numChannels : ℕ} {e : BlockRecord Sample}
    {v : ℕ → ℕ → Sample} (hlen : 0 < bufLength)
    (h : ∀ j < bufLength, e.left.stampedAt bufLength j e.bufCounter =
      (e.found.stampedAt bufLength j e.bufCounter).alterAll
        (Bus.addChanges first numChannels j v)) :
    Spares e bufLength first numChannels := by
  intro channel hchannel
  exact ⟨fun j hj => (Bus.samples_of_addChanges (h j hj) hchannel).1,
    (Bus.samples_of_addChanges (h 0 hlen) hchannel).2⟩

theorem Sound.spares (h : Sound fbusChannel s) (hlen : 0 < s.mBufLength)
    (calcs : List (OffsetBlock Sample × (ℕ → ℕ → Sample))) (last : OffsetBlock Sample) :
    ∀ e ∈ s.records fbusChannel (events calcs last),
      Spares e s.mBufLength (uint32 fbusChannel) s.unit.numChannels := by
  induction calcs generalizing s with
  | nil =>
    intro e he
    have he : e = s.record fbusChannel (last, none) := List.mem_singleton.mp he
    subst he
    cases hempty : s.unit.m_empty with
    | false =>
      exact spares_of_addChanges hlen fun j hj => h.stampedAt_delete last hj hempty
    | true =>
      have hleft : (s.record fbusChannel (last, none)).left =
          (s.record fbusChannel (last, none)).found := OffsetOut.dtor_of_empty hempty
      intro channel hchannel
      rw [hleft]
      exact ⟨fun j hj => rfl, rfl⟩
  | cons c calcs ih =>
    have hnum : (s.step fbusChannel (c.1, some c.2)).unit.numChannels = s.unit.numChannels :=
      s.unit.numChannels_sought s.mBufLength fbusChannel (c.1.before.write s.mAudioBus)
    intro e he
    rcases List.mem_cons.mp he with rfl | he
    · exact spares_of_addChanges hlen fun j hj => h.stampedAt_calc c.1 c.2 hj
    · have hrest := ih (h.calc c.1 c.2) hlen e he
      rw [hnum] at hrest
      exact hrest

theorem record_writes {es : List (OffsetBlock Sample × Option (ℕ → ℕ → Sample))}
    {e : BlockRecord Sample} (he : e ∈ s.records fbusChannel es) :
    e.found = e.block.before.write e.start ∧ e.finish = e.block.after.write e.left := by
  induction es generalizing s with
  | nil => cases he
  | cons x es ih =>
    rcases List.mem_cons.mp he with rfl | he
    · exact ⟨rfl, rfl⟩
    · exact ih he

/-- What others add stays. -/
theorem content_finish_of_adds {bufLength j : ℕ}
    {es : List (OffsetBlock Sample × Option (ℕ → ℕ → Sample))} {e : BlockRecord Sample}
    (he : e ∈ s.records fbusChannel es) {d d' : ℕ → ℕ → Sample}
    (hbefore : e.block.before.Adds bufLength e.bufCounter d)
    (hafter : e.block.after.Adds bufLength e.bufCounter d') (channel : ℕ) (hj : j < bufLength) :
    e.finish.content bufLength e.bufCounter channel j =
      e.start.content bufLength e.bufCounter channel j + d channel j +
        e.contribution bufLength channel j + d' channel j := by
  obtain ⟨hfound, hfinish⟩ := record_writes he
  unfold BlockRecord.contribution
  rw [hfinish, hafter _ _ _ hj, hfound, hbefore _ _ _ hj, add_sub_cancel]

/-- The unit as its constructor leaves it, and a bus of any content. -/
def start (mBufLength mSampleOffset numChannels : ℕ) (mBufCounter : BitVec 32)
    (mAudioBus : Bus Sample) (memory : ℕ → Sample) : OffsetRun Sample where
  mBufLength := mBufLength
  mBufCounter := mBufCounter
  mAudioBus := mAudioBus
  unit := .ctor numChannels mSampleOffset memory
  log := []

omit [AddCommGroup Sample] in
theorem Sound.start {bufLength offset numChannels : ℕ} {bus : Bus Sample}
    (hoffset : offset ≤ bufLength)
    (hchannels : bus.HasChannels bufLength fbusChannel numChannels) (bufCounter : BitVec 32)
    (memory : ℕ → Sample) :
    Sound fbusChannel (start bufLength offset numChannels bufCounter bus memory) where
  offset := hoffset
  fresh _ := ⟨rfl, hchannels⟩
  found hempty := by cases hempty

/-- Over the blocks in which it is calculated and the one in which it is deleted, the unit adds to
its channels `offset` zeros, its input, and zeros, whatever others do to the bus. It leaves the
other channels alone, and what others add is there at the end of each block. -/
theorem delaysByOffset {bufLength offset numChannels : ℕ} {fbusChannel : ℚ} {bus : Bus Sample}
    (hoffset : offset < bufLength) (hchannels : bus.HasChannels bufLength fbusChannel numChannels)
    (bufCounter : BitVec 32) (memory : ℕ → Sample)
    (calcs : List (OffsetBlock Sample × (ℕ → ℕ → Sample))) (last : OffsetBlock Sample) :
    let s := Runs.run (step fbusChannel)
      (start bufLength offset numChannels bufCounter bus memory) (events calcs last)
    (∀ i < numChannels,
      (s.log.map fun e => e.contributions bufLength (uint32 fbusChannel + i)).flatten =
        List.replicate offset 0 ++
          (calcs.map fun c => (List.range bufLength).map (c.2 i)).flatten ++
            List.replicate (bufLength - offset) 0) ∧
    (∀ e ∈ s.log, Spares e bufLength (uint32 fbusChannel) numChannels) ∧
    ∀ e ∈ s.log, ∀ d d', e.block.before.Adds bufLength e.bufCounter d →
      e.block.after.Adds bufLength e.bufCounter d' → ∀ channel, ∀ j < bufLength,
        e.finish.content bufLength e.bufCounter channel j =
          e.start.content bufLength e.bufCounter channel j + d channel j +
            e.contribution bufLength channel j + d' channel j := by
  intro s
  have hstart := Sound.start hoffset.le hchannels bufCounter memory
  have hlog : s.log = (start bufLength offset numChannels bufCounter bus memory).records
      fbusChannel (events calcs last) := log_run _ _
  rw [hlog]
  refine ⟨?_, ?_, ?_⟩
  · intro i hi
    -- at first nothing is held
    have hheld : (List.range offset).map
        ((OffsetOut.ctor numChannels offset memory).held i) = List.replicate offset 0 := by
      show (List.range offset).map (fun _ => (0 : Sample)) = _
      rw [List.map_const', List.length_range]
    have hstitched := hstart.contributions calcs last hi
    rw [← hheld, ← flatten_stitched]
    exact congrArg List.flatten hstitched
  · exact hstart.spares (Nat.zero_lt_of_lt hoffset) calcs last
  · intro e he d d' hbefore hafter channel j hj
    exact content_finish_of_adds he hbefore hafter channel hj

/-- Two blocks of two channels, between an `Out` that is calculated before the unit and one that
is calculated after it. -/
theorem delaysByOffset_twoBlocks :
    let bus : Bus ℤ := ⟨fun _ => 9, fun _ => -1, 3⟩
    let out (numChannels : ℕ) (a : ℤ) (bufCounter : BitVec 32) : OtherWriters ℤ :=
      .out bufCounter 4 ⟨.out, .fullRate, numChannels, 1, 4, 1⟩ fun _ _ => a
    let calcs : List (OffsetBlock ℤ × (ℕ → ℕ → ℤ)) :=
      [(⟨out 1 100 5, out 2 200 5⟩, fun i j => 10 * i + j),
        (⟨out 2 300 6, out 0 0 6⟩, fun i j => 10 * i + j + 4)]
    let s := Runs.run (step 1) (start 4 1 2 5 bus fun _ => 7)
      (events calcs ⟨out 1 100 7, out 1 100 7⟩)
    bus.HasChannels 4 1 2 ∧
      (s.log.map fun e => e.contributions 4 1).flatten = [0, 0, 1, 2, 3, 4, 5, 6, 7, 0, 0, 0] ∧
      (s.log.map fun e => e.contributions 4 2).flatten =
        [0, 10, 11, 12, 13, 14, 15, 16, 17, 0, 0, 0] := by
  intro bus out calcs s
  have hchannels : bus.HasChannels 4 1 2 := by
    constructor <;> decide
  obtain ⟨hstream, -, -⟩ := delaysByOffset (by decide : 1 < 4) hchannels 5 (fun _ => 7) calcs
    ⟨out 1 100 7, out 1 100 7⟩
  exact ⟨hchannels, hstream 0 (by decide), hstream 1 (by decide)⟩

end OffsetRun

end PoopWorms.Server
