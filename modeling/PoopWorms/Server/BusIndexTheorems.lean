import PoopWorms.Server.BusIndex
import PoopWorms.Lib.Runs
import Mathlib.Data.Rat.Floor
import Mathlib.Tactic.Linarith

/-!
# When the units stay on the bus

A unit that has found the channels of its index touches these and no others. The index is only
looked up if its channels exist, but the loops that follow are entered in any case: they go over
the channels that were found before, at first those of the hardware.
-/

namespace PoopWorms.Server

/-! ## The accesses of a loop -/

namespace BusAccess

/-- The access is to one of `numSamples` samples from `out` on, or to the stamp of a channel. -/
def At (out numSamples channel : ℕ) : BusAccess → Prop
  | readSample place | writeSample place => out ≤ place ∧ place < out + numSamples
  | readStamp channel' | writeStamp channel' => channel' = channel

variable {out numSamples channel : ℕ} {a : BusAccess}

theorem At.mono {out' numSamples' : ℕ} (h : a.At out' numSamples' channel) (hout : out ≤ out')
    (hlen : out' + numSamples' ≤ out + numSamples) : a.At out numSamples channel := by
  cases a with
  | readSample place =>
    have hplace : out' ≤ place ∧ place < out' + numSamples' := h
    exact ⟨by omega, by omega⟩
  | writeSample place =>
    have hplace : out' ≤ place ∧ place < out' + numSamples' := h
    exact ⟨by omega, by omega⟩
  | readStamp channel' => exact h
  | writeStamp channel' => exact h

/-- A channel that exists is inside the arrays. -/
theorem At.inside {options : BusOptions} {rate : BusRate} {first i numChannels : ℕ}
    (h : a.At (first * options.channelLength rate + i * options.channelLength rate)
      (options.channelLength rate) (first + i))
    (hi : i < numChannels) (hfirst : first + numChannels ≤ options.numBusChannels rate) :
    a.Inside options rate := by
  have hchannel : first + i + 1 ≤ options.numBusChannels rate := by omega
  have hplaces := Nat.mul_le_mul_right (options.channelLength rate) hchannel
  rw [Nat.add_mul, Nat.add_mul, Nat.one_mul] at hplaces
  cases a with
  | readSample place => exact lt_of_lt_of_le h.2 hplaces
  | writeSample place => exact lt_of_lt_of_le h.2 hplaces
  | readStamp channel' =>
    have hstamp : channel' = first + i := h
    show channel' < _
    omega
  | writeStamp channel' =>
    have hstamp : channel' = first + i := h
    show channel' < _
    omega

theorem at_of_mem_copyAccesses (h : a ∈ copyAccesses numSamples out) :
    a.At out numSamples channel := by
  obtain ⟨k, hk, rfl⟩ := List.mem_map.mp h
  have hlt := List.mem_range.mp hk
  exact ⟨by omega, by omega⟩

theorem at_of_mem_readAccesses (h : a ∈ readAccesses numSamples out) :
    a.At out numSamples channel := by
  obtain ⟨k, hk, rfl⟩ := List.mem_map.mp h
  have hlt := List.mem_range.mp hk
  exact ⟨by omega, by omega⟩

theorem at_of_mem_mixAccesses (h : a ∈ mixAccesses numSamples out) :
    a.At out numSamples channel := by
  obtain ⟨k, hk, ha⟩ := List.mem_flatMap.mp h
  have hlt := List.mem_range.mp hk
  rcases List.mem_pair.mp ha with rfl | rfl
  · exact ⟨by omega, by omega⟩
  · exact ⟨by omega, by omega⟩

end BusAccess

section Loops

variable {σ : Type} {body : ℕ → σ → σ × List BusAccess} {numChannels : ℕ} {s : σ}

theorem forBusChannels_succ (n : ℕ) : (forBusChannels body (n + 1) s).2 =
    (forBusChannels body n s).2 ++ (body n (forBusChannels body n s).1).2 := by
  unfold forBusChannels
  rw [List.range_succ, List.foldl_append]
  rfl

theorem exists_of_mem_forBusChannels {a : BusAccess}
    (h : a ∈ (forBusChannels body numChannels s).2) :
    ∃ i < numChannels, ∃ t, a ∈ (body i t).2 := by
  induction numChannels with
  | zero => cases h
  | succ n ih =>
    rw [forBusChannels_succ, List.mem_append] at h
    rcases h with h | h
    · obtain ⟨i, hi, t, ht⟩ := ih h
      exact ⟨i, by omega, t, ht⟩
    · exact ⟨n, by omega, _, h⟩

theorem forBusChannels_ne_nil (hbody : ∀ i t, (body i t).2 ≠ []) (hpos : 0 < numChannels) :
    (forBusChannels body numChannels s).2 ≠ [] := by
  cases numChannels with
  | zero => omega
  | succ n =>
    rw [forBusChannels_succ]
    exact List.append_ne_nil_of_right_ne_nil _ (hbody n _)

end Loops

/-! ## One channel -/

/-- Accesses to one channel, at least one. -/
structure OnChannel (out numSamples channel : ℕ) (l : List BusAccess) : Prop where
  ne_nil : l ≠ []
  at_channel : ∀ a ∈ l, a.At out numSamples channel

namespace BusArrays

open BusAccess

variable {Sample : Type} (m : BusArrays Sample) (bufCounter : BitVec 32)
  (numSamples out channel : ℕ)

theorem onChannel_write : OnChannel out numSamples channel
    (copyAccesses numSamples out ++ [.writeStamp channel]) where
  ne_nil := List.append_ne_nil_of_right_ne_nil _ (List.cons_ne_nil _ _)
  at_channel a ha := by
    rcases List.mem_append.mp ha with ha | ha
    · exact at_of_mem_copyAccesses ha
    · rw [List.mem_singleton.mp ha]
      rfl

variable {numSamples out channel} in
theorem onChannel_readStamp {l : List BusAccess} (h : ∀ a ∈ l, a.At out numSamples channel) :
    OnChannel out numSamples channel (.readStamp channel :: l) where
  ne_nil := List.cons_ne_nil _ _
  at_channel a ha := by
    rcases List.mem_cons.mp ha with rfl | ha
    · rfl
    · exact h a ha

theorem onChannel_replaceChannel (input : ℕ → Sample) : OnChannel out numSamples channel
    (m.replaceChannel bufCounter numSamples out channel input).2 :=
  onChannel_write numSamples out channel

theorem onChannel_mixChannel [Add Sample] (input : ℕ → Sample) :
    OnChannel out numSamples channel
      (m.mixChannel bufCounter numSamples out channel input).2 := by
  unfold mixChannel
  split_ifs
  · exact onChannel_readStamp fun a ha => at_of_mem_mixAccesses ha
  · exact onChannel_readStamp (onChannel_write numSamples out channel).at_channel

theorem onChannel_fadeChannel [Ring Sample] (xfade input : ℕ → Sample) :
    OnChannel out numSamples channel
      (m.fadeChannel bufCounter numSamples out channel xfade input).2 := by
  unfold fadeChannel
  split_ifs
  · exact onChannel_readStamp fun a ha => at_of_mem_mixAccesses ha
  · exact onChannel_readStamp (onChannel_write numSamples out channel).at_channel

theorem onChannel_readChannel {len : ℕ} (hlen : numSamples ≤ len) : OnChannel out len channel
    (m.readChannel bufCounter numSamples out channel).2 := by
  apply onChannel_readStamp
  intro a ha
  split_ifs at ha
  · exact (at_of_mem_readAccesses ha).mono le_rfl (by omega)
  · cases ha

/-- The two parts of a stitched block are in the block. -/
theorem onChannel_stitched {offset : ℕ} (hoffset : offset ≤ numSamples) :
    OnChannel out numSamples channel (.readStamp channel ::
      (copyAccesses offset out ++ copyAccesses (numSamples - offset) (out + offset) ++
        [.writeStamp channel])) := by
  apply onChannel_readStamp
  intro a ha
  rw [List.append_assoc, List.mem_append] at ha
  rcases ha with ha | ha
  · exact (at_of_mem_copyAccesses ha).mono le_rfl (by omega)
  · exact ((onChannel_write (numSamples - offset) (out + offset) channel).at_channel a ha).mono
      (by omega) (by omega)

theorem onChannel_offsetChannel [AddMonoid Sample] {offset : ℕ} (hoffset : offset ≤ numSamples)
    (empty : Bool) (input saved : ℕ → Sample) : OnChannel out numSamples channel
      (m.offsetChannel bufCounter numSamples out channel offset empty input saved).2 := by
  unfold offsetChannel
  split_ifs
  · apply onChannel_readStamp
    intro a ha
    rcases List.mem_append.mp ha with ha | ha
    · cases ha
    · exact (at_of_mem_mixAccesses ha).mono (by omega) (by omega)
  · apply onChannel_readStamp
    intro a ha
    rcases List.mem_append.mp ha with ha | ha
    · exact (at_of_mem_mixAccesses ha).mono le_rfl (by omega)
    · exact (at_of_mem_mixAccesses ha).mono (by omega) (by omega)
  · exact onChannel_stitched numSamples out channel hoffset
  · exact onChannel_stitched numSamples out channel hoffset

theorem at_offsetTail [AddMonoid Sample] {offset : ℕ} (hoffset : offset ≤ numSamples)
    (empty : Bool) (saved : ℕ → Sample) :
    ∀ a ∈ (m.offsetTail bufCounter numSamples out channel offset empty saved).2,
      empty = false ∧ a.At out numSamples channel := by
  unfold offsetTail
  cases empty with
  | true =>
    intro a ha
    cases ha
  | false =>
    rw [if_neg Bool.false_ne_true]
    intro a ha
    refine ⟨rfl, ?_⟩
    split_ifs at ha
    · refine (onChannel_readStamp (fun a ha => ?_)).at_channel a ha
      exact (at_of_mem_mixAccesses ha).mono le_rfl (by omega)
    · exact (onChannel_stitched numSamples out channel hoffset).at_channel a ha

end BusArrays

/-! ## One call -/

namespace BusUnit

variable {Sample : Type} {bufLength : ℕ} {options : BusOptions}

/-- What a loop over the channels of the unit does, of which each turn touches its channel. -/
def Visits (unit : BusUnit Sample bufLength) (len : ℕ) (l : List BusAccess) : Prop :=
  ∃ (σ : Type) (body : ℕ → σ → σ × List BusAccess) (s : σ),
    l = (forBusChannels body unit.numChannels s).2 ∧
    ∀ i t, OnChannel (unit.m_bus + i * len) len (unit.m_busTouched + i) (body i t).2

/-- An `XOut` whose fade stays at 0 does nothing. -/
def Closed [Zero Sample] (unit : BusUnit Sample bufLength) (nextXfade : Sample) : Prop :=
  unit.kind = .xOut ∧ unit.mCalcRate = .fullRate ∧ unit.m_xfade = 0 ∧ nextXfade = 0

theorem visits_forChannels (unit : BusUnit Sample bufLength) {len : ℕ}
    {body : BusArrays Sample → ℕ → ℕ → ℕ → BusArrays Sample × List BusAccess}
    (h : ∀ m out channel i, OnChannel out len channel (body m out channel i).2)
    (m : BusArrays Sample) : unit.Visits len (unit.forChannels len body m).2 :=
  ⟨_, _, m, rfl, fun _ _ => h _ _ _ _⟩

theorem Visits.eq_nil {unit : BusUnit Sample bufLength} {len : ℕ} {l : List BusAccess}
    (h : unit.Visits len l) (hnum : unit.numChannels = 0) : l = [] := by
  obtain ⟨σ, body, s, rfl, -⟩ := h
  rw [hnum]
  rfl

theorem Visits.ne_nil {unit : BusUnit Sample bufLength} {len : ℕ} {l : List BusAccess}
    (h : unit.Visits len l) (hnum : unit.numChannels ≠ 0) : l ≠ [] := by
  obtain ⟨σ, body, s, rfl, hbody⟩ := h
  exact forBusChannels_ne_nil (fun i t => (hbody i t).ne_nil) (Nat.pos_of_ne_zero hnum)

/-- The pointers of the unit are those of the channel `first`. -/
def PointsTo (options : BusOptions) (unit : BusUnit Sample bufLength) (first : ℕ) : Prop :=
  unit.m_bus = first * options.channelLength unit.mCalcRate ∧ unit.m_busTouched = first

theorem Visits.inside {unit : BusUnit Sample bufLength} {first : ℕ} {l : List BusAccess}
    (h : unit.Visits (options.channelLength unit.mCalcRate) l)
    (hpoints : unit.PointsTo options first)
    (hfirst : first + unit.numChannels ≤ options.numBusChannels unit.mCalcRate) :
    ∀ a ∈ l, a.Inside options unit.mCalcRate := by
  obtain ⟨σ, body, s, rfl, hbody⟩ := h
  intro a ha
  obtain ⟨i, hi, t, ht⟩ := exists_of_mem_forBusChannels ha
  have hat := (hbody i t).at_channel a ht
  rw [hpoints.1, hpoints.2] at hat
  exact hat.inside hi hfirst

variable [Field Sample] [DecidableEq Sample]

theorem visits_xOutNextA (unit : BusUnit Sample bufLength) (c : Call Sample)
    (m : BusArrays Sample) :
    (unit.m_xfade = 0 ∧ c.nextXfade = 0 ∧ (unit.xOutNextA c m).2.2 = []) ∨
      ¬ (unit.m_xfade = 0 ∧ c.nextXfade = 0) ∧
        unit.Visits bufLength (unit.xOutNextA c m).2.2 := by
  unfold xOutNextA
  dsimp only
  by_cases hfade : unit.m_xfade ≠ c.nextXfade
  · rw [if_pos hfade]
    refine .inr ⟨fun hzero => hfade (hzero.1.trans hzero.2.symm), ?_⟩
    exact unit.visits_forChannels (fun m _ _ _ => m.onChannel_fadeChannel _ _ _ _ _ _) m
  · rw [if_neg hfade]
    have heq : unit.m_xfade = c.nextXfade := not_not.mp hfade
    by_cases hone : unit.m_xfade = 1
    · rw [if_pos hone]
      refine .inr ⟨fun hzero => one_ne_zero (hone.symm.trans hzero.1), ?_⟩
      exact unit.visits_forChannels (fun m _ _ _ => m.onChannel_replaceChannel _ _ _ _ _) m
    · rw [if_neg hone]
      by_cases hzero : unit.m_xfade = 0
      · rw [if_pos hzero]
        exact .inl ⟨hzero, heq.symm.trans hzero, rfl⟩
      · rw [if_neg hzero]
        refine .inr ⟨fun h => hzero h.1, ?_⟩
        exact unit.visits_forChannels (fun m _ _ _ => m.onChannel_fadeChannel _ _ _ _ _ _) m

omit [DecidableEq Sample] in
theorem visits_offsetOutNextA (unit : BusUnit Sample bufLength) (c : Call Sample)
    (m : BusArrays Sample) : unit.Visits bufLength (unit.offsetOutNextA c m).2.2 :=
  ⟨_, _, (unit.m_saved, m), rfl, fun _ t =>
    t.2.onChannel_offsetChannel _ _ _ _ unit.mSampleOffset.isLt.le _ _ _⟩

/-- Every calc function goes over the channels of the unit, but for an `XOut` that is closed. -/
theorem calcFunc_visits (unit : BusUnit Sample options.mBufLength) (c : Call Sample)
    (m : BusArrays Sample) (hlen : c.inNumSamples ≤ options.mBufLength)
    (hrate : unit.kind = .offsetOut → unit.mCalcRate = .fullRate) :
    (unit.Closed c.nextXfade ∧ (unit.calcFunc c m).2.2 = []) ∨
      ¬ unit.Closed c.nextXfade ∧
        unit.Visits (options.channelLength unit.mCalcRate) (unit.calcFunc c m).2.2 := by
  unfold calcFunc Closed
  cases hkind : unit.kind with
  | input =>
    refine .inr ⟨fun h => (by cases h.1), ?_⟩
    cases hcalc : unit.mCalcRate with
    | fullRate =>
      exact unit.visits_forChannels (fun m _ _ _ => m.onChannel_readChannel _ _ _ _ hlen) m
    | bufRate =>
      refine unit.visits_forChannels (fun m out _ _ => ⟨List.cons_ne_nil _ _, ?_⟩) m
      intro a ha
      rw [List.mem_singleton.mp ha]
      exact ⟨le_rfl, Nat.lt_succ_self out⟩
  | out =>
    refine .inr ⟨fun h => (by cases h.1), ?_⟩
    cases hcalc : unit.mCalcRate with
    | fullRate => exact unit.visits_forChannels (fun m _ _ _ => m.onChannel_mixChannel _ _ _ _ _) m
    | bufRate => exact unit.visits_forChannels (fun m _ _ _ => m.onChannel_mixChannel _ _ _ _ _) m
  | replaceOut =>
    refine .inr ⟨fun h => (by cases h.1), ?_⟩
    cases hcalc : unit.mCalcRate with
    | fullRate =>
      exact unit.visits_forChannels (fun m _ _ _ => m.onChannel_replaceChannel _ _ _ _ _) m
    | bufRate =>
      exact unit.visits_forChannels (fun m _ _ _ => m.onChannel_replaceChannel _ _ _ _ _) m
  | xOut =>
    cases hcalc : unit.mCalcRate with
    | fullRate =>
      rcases unit.visits_xOutNextA c m with ⟨hzero, hnext, hnil⟩ | ⟨hopen, hvisits⟩
      · exact .inl ⟨⟨rfl, rfl, hzero, hnext⟩, hnil⟩
      · exact .inr ⟨fun h => hopen h.2.2, hvisits⟩
    | bufRate =>
      refine .inr ⟨fun h => (by cases h.2.1), ?_⟩
      exact unit.visits_forChannels (fun m _ _ _ => m.onChannel_fadeChannel _ _ _ _ _ _) m
  | offsetOut =>
    rw [hrate hkind]
    exact .inr ⟨fun h => (by cases h.1), unit.visits_offsetOutNextA c m⟩

end BusUnit

/-! ## The lookup -/

namespace BusOptions

variable {options : BusOptions} {rate : BusRate} {numChannels : ℕ} {fbusChannel : ℚ}

theorem numBusChannels_lt (options : BusOptions) (rate : BusRate) :
    options.numBusChannels rate < 2 ^ 32 ∧
      options.numBusChannels rate * options.channelLength rate < 2 ^ 32 := by
  have hcontrol := options.controlBus_lt
  cases rate with
  | fullRate =>
    have haudio := options.audioBus_lt
    have hle := Nat.le_mul_of_pos_left options.mNumAudioBusChannels options.bufLength_pos
    constructor
    · show options.mNumAudioBusChannels < _
      omega
    · show options.mNumAudioBusChannels * options.mBufLength < _
      rw [Nat.mul_comm]
      omega
  | bufRate =>
    constructor
    · exact hcontrol
    · show options.mNumControlBusChannels * 1 < _
      omega

/-- Where all channels exist, the conversion is defined. -/
theorem Names.convert (h : options.Names rate numChannels fbusChannel)
    (conversion : UInt32Conversion) :
    (conversion.convert fbusChannel).toNat = ⌊fbusChannel⌋.toNat := by
  apply conversion.convert_eq _ h.1
  have hchannels := h.2
  have hlt := (options.numBusChannels_lt rate).1
  have hfloor : ⌊fbusChannel⌋ + 1 ≤ 2 ^ 32 := by omega
  calc fbusChannel < ⌊fbusChannel⌋ + 1 := Int.lt_floor_add_one _
    _ ≤ 2 ^ 32 := by exact_mod_cast hfloor

end BusOptions

namespace BusUnit

variable {Sample : Type} {bufLength : ℕ} {options : BusOptions} {unit : BusUnit Sample bufLength}
  {conversion : UInt32Conversion} {fbusChannel : ℚ}

/-- What all calls leave in a unit: the pointers are those of its index, if its channels exist; an
`OffsetOut` that has kept samples has been given such an index, or has no channels. -/
structure Sound (options : BusOptions) (unit : BusUnit Sample bufLength) : Prop where
  points : options.Names unit.mCalcRate unit.numChannels unit.m_fbusChannel →
    unit.PointsTo options ⌊unit.m_fbusChannel⌋.toNat
  rate : unit.kind = .offsetOut → unit.mCalcRate = .fullRate
  kept : unit.kind = .offsetOut → unit.m_empty = false → unit.numChannels = 0 ∨
    options.Names unit.mCalcRate unit.numChannels unit.m_fbusChannel

theorem Sound.ctor (kind : BusUnitKind) (mCalcRate : BusRate) (numChannels : ℕ) (xfade : Sample)
    (mSampleOffset : Fin bufLength) (memory : ℕ → Sample) :
    Sound options (ctor kind mCalcRate numChannels xfade mSampleOffset memory) where
  points hnames := absurd hnames.1 (lt_irrefl _)
  rate hkind := if_pos hkind
  kept _ hempty := by cases hempty

/-- What does not change from call to call. -/
def form (unit : BusUnit Sample bufLength) : BusUnitKind × BusRate × ℕ :=
  (unit.kind, unit.mCalcRate, unit.numChannels)

theorem form_seek (conversion : UInt32Conversion) (options : BusOptions)
    (unit : BusUnit Sample bufLength) (fbusChannel : ℚ) :
    (unit.seek conversion options fbusChannel).form = unit.form := by
  unfold seek
  dsimp only
  split_ifs <;> rfl

theorem kind_seek (conversion : UInt32Conversion) (options : BusOptions)
    (unit : BusUnit Sample bufLength) (fbusChannel : ℚ) :
    (unit.seek conversion options fbusChannel).kind = unit.kind :=
  congrArg (fun f => f.1) (unit.form_seek conversion options fbusChannel)

theorem mCalcRate_seek (conversion : UInt32Conversion) (options : BusOptions)
    (unit : BusUnit Sample bufLength) (fbusChannel : ℚ) :
    (unit.seek conversion options fbusChannel).mCalcRate = unit.mCalcRate :=
  congrArg (fun f => f.2.1) (unit.form_seek conversion options fbusChannel)

theorem numChannels_seek (conversion : UInt32Conversion) (options : BusOptions)
    (unit : BusUnit Sample bufLength) (fbusChannel : ℚ) :
    (unit.seek conversion options fbusChannel).numChannels = unit.numChannels :=
  congrArg (fun f => f.2.2) (unit.form_seek conversion options fbusChannel)

theorem closed_seek [Zero Sample] (conversion : UInt32Conversion) (options : BusOptions)
    (unit : BusUnit Sample bufLength) (fbusChannel : ℚ) (nextXfade : Sample) :
    (unit.seek conversion options fbusChannel).Closed nextXfade ↔ unit.Closed nextXfade := by
  unfold seek
  dsimp only
  split_ifs <;> exact Iff.rfl

theorem m_fbusChannel_seek (conversion : UInt32Conversion) (options : BusOptions)
    (unit : BusUnit Sample bufLength) (fbusChannel : ℚ) :
    (unit.seek conversion options fbusChannel).m_fbusChannel = fbusChannel := by
  unfold seek
  dsimp only
  split_ifs with hne
  · rfl
  · rfl
  · exact (not_not.mp hne).symm

/-- The lookup finds channels that exist. -/
theorem Sound.seek_points (h : unit.Sound options)
    (hnames : options.Names unit.mCalcRate unit.numChannels fbusChannel) :
    (unit.seek conversion options fbusChannel).PointsTo options ⌊fbusChannel⌋.toNat := by
  by_cases hne : fbusChannel ≠ unit.m_fbusChannel
  · have hconvert := hnames.convert conversion
    have hchannels := hnames.2
    obtain ⟨hnum, hsamples⟩ := options.numBusChannels_lt unit.mCalcRate
    have hlast : ¬ options.numBusChannels unit.mCalcRate <
        (conversion.convert fbusChannel + BitVec.ofNat 32 unit.numChannels).toNat := by
      rw [BitVec.toNat_add, BitVec.toNat_ofNat, hconvert, Nat.add_mod_mod]
      have hle := Nat.mod_le (⌊fbusChannel⌋.toNat + unit.numChannels) (2 ^ 32)
      omega
    have hplace : ⌊fbusChannel⌋.toNat * options.channelLength unit.mCalcRate % 2 ^ 32 =
        ⌊fbusChannel⌋.toNat * options.channelLength unit.mCalcRate := by
      apply Nat.mod_eq_of_lt
      refine lt_of_le_of_lt (Nat.mul_le_mul_right _ ?_) hsamples
      omega
    unfold seek
    rw [if_pos hne]
    dsimp only
    rw [if_pos hlast, hconvert, hplace]
    exact ⟨rfl, rfl⟩
  · have hsame : fbusChannel = unit.m_fbusChannel := not_not.mp hne
    unfold seek
    rw [if_neg hne, hsame]
    apply h.points
    rw [← hsame]
    exact hnames

end BusUnit

/-! ## Runs -/

namespace BusIndexWorld

variable {Sample : Type} [Field Sample] [DecidableEq Sample] {options : BusOptions}
  {conversion : UInt32Conversion} {mSlopeFactor : Sample} {w : BusIndexWorld Sample options}

/-- The accesses of a call are inside the bus, and there are none if a channel does not exist. -/
def Harmless (options : BusOptions) (rate : BusRate) (numChannels : ℕ) (fbusChannel : ℚ)
    (l : List BusAccess) : Prop :=
  (∀ a ∈ l, a.Inside options rate) ∧ (¬ options.Names rate numChannels fbusChannel → l = [])

/-- The synth has a `LocalIn` of as many channels. -/
def HasLocalIn (w : BusIndexWorld Sample options) (graph : ℕ) (rate : BusRate)
    (numChannels : ℕ) : Prop :=
  ∃ localIn, w.localIns graph rate = some localIn ∧ localIn.mNumOutputs = numChannels

/-- An event goes well: the units stay inside the bus array and touch no bus with an index out of
range, and a `LocalOut` without its `LocalIn` writes nothing. -/
def Safe (conversion : UInt32Conversion) (mSlopeFactor : Sample)
    (w : BusIndexWorld Sample options) (e : BusEvent Sample options.mBufLength) : Prop :=
  ∃ r, w.perform conversion mSlopeFactor e = some r ∧
    match e with
    | .create _ kind rate numChannels _ _ _ fbusChannel =>
      kind = .input → Harmless options rate numChannels fbusChannel r.2
    | .calcUnit n fbusChannel _ _ =>
      ∀ unit, w.units n = some unit →
        Harmless options unit.mCalcRate unit.numChannels fbusChannel r.2
    | .delete _ => ∀ a ∈ r.2, a.Inside options .fullRate
    | .calcLocalOut graph rate numChannels _ => ¬ w.HasLocalIn graph rate numChannels → r.2 = []
    | _ => True

/-- All indices are in range, apart from those of a unit without channels or of a closed `XOut`, and
a `LocalOut` has its `LocalIn`, or one if it has no channels. -/
def Admissible (w : BusIndexWorld Sample options) : BusEvent Sample options.mBufLength → Prop
  | .create _ kind rate numChannels _ _ _ fbusChannel =>
    kind = .input → numChannels = 0 ∨ options.Names rate numChannels fbusChannel
  | .calcUnit n fbusChannel nextXfade _ =>
    ∀ unit, w.units n = some unit → unit.numChannels = 0 ∨
      options.Names unit.mCalcRate unit.numChannels fbusChannel ∨ unit.Closed nextXfade
  | .calcLocalOut graph rate numChannels _ =>
    ∃ localIn, w.localIns graph rate = some localIn ∧
      (localIn.mNumOutputs = numChannels ∨ numChannels = 0)
  | _ => True

/-- All units are sound. -/
def Sound (w : BusIndexWorld Sample options) : Prop :=
  ∀ n unit, w.units n = some unit → unit.Sound options

omit [DecidableEq Sample] in
theorem Sound.new : (new Sample options).Sound := by
  intro n unit hunit
  cases hunit

omit [Field Sample] [DecidableEq Sample] in
theorem Sound.update (h : w.Sound) {n : ℕ} {unit : Option (BusUnit Sample options.mBufLength)}
    (hunit : ∀ u, unit = some u → u.Sound options) {w' : BusIndexWorld Sample options}
    (hw : w'.units = Function.update w.units n unit) : w'.Sound := by
  intro k u hu
  rw [hw, Function.update_apply] at hu
  split_ifs at hu
  · exact hunit u hu
  · exact h k u hu

variable {unit : BusUnit Sample options.mBufLength} {n inNumSamples : ℕ} {fbusChannel : ℚ}
  {nextXfade : Sample} {input : ℕ → ℕ → Sample}

/-- A call is harmless if and only if its index is in range, or nothing is done. -/
theorem callUnit_harmless_iff (conversion : UInt32Conversion) (mSlopeFactor : Sample)
    (w : BusIndexWorld Sample options) (n : ℕ) (fbusChannel : ℚ) (nextXfade : Sample)
    (input : ℕ → ℕ → Sample) (hunit : unit.Sound options)
    (hlen : inNumSamples ≤ options.mBufLength) :
    Harmless options unit.mCalcRate unit.numChannels fbusChannel
        (w.callUnit conversion mSlopeFactor n unit fbusChannel inNumSamples nextXfade input).2 ↔
      unit.numChannels = 0 ∨ options.Names unit.mCalcRate unit.numChannels fbusChannel ∨
        unit.Closed nextXfade := by
  have hkind := unit.kind_seek conversion options fbusChannel
  have hcalc := unit.mCalcRate_seek conversion options fbusChannel
  have hnum := unit.numChannels_seek conversion options fbusChannel
  have hclosed := unit.closed_seek conversion options fbusChannel nextXfade
  unfold callUnit
  dsimp only
  have hrate : (unit.seek conversion options fbusChannel).kind = .offsetOut →
      (unit.seek conversion options fbusChannel).mCalcRate = .fullRate := by
    rw [hkind, hcalc]
    exact hunit.rate
  rcases (unit.seek conversion options fbusChannel).calcFunc_visits
      ⟨w.mBufCounter, mSlopeFactor, inNumSamples, nextXfade, input⟩
      (w.bus (unit.seek conversion options fbusChannel).mCalcRate) hlen hrate with
    ⟨hshut, hnil⟩ | ⟨hopen, hvisits⟩
  · rw [hnil]
    refine iff_of_true ⟨fun a ha => (by cases ha), fun _ => rfl⟩ (.inr (.inr ?_))
    exact hclosed.mp hshut
  · constructor
    · rintro ⟨-, hout⟩
      by_contra hcon
      rw [not_or, not_or] at hcon
      apply hvisits.ne_nil
      · rw [hnum]
        exact hcon.1
      · exact hout hcon.2.1
    · rintro (hzero | hnames | hshut)
      · rw [hvisits.eq_nil (hnum.trans hzero)]
        exact ⟨fun a ha => (by cases ha), fun _ => rfl⟩
      · refine ⟨?_, fun hnot => absurd hnames hnot⟩
        rw [← hcalc]
        apply hvisits.inside (hunit.seek_points hnames)
        rw [hnum, hcalc]
        exact hnames.2
      · exact absurd (hclosed.mpr hshut) hopen

/-- A calc function changes only what a unit remembers of its input. -/
theorem calcFunc_fst {bufLength : ℕ} (unit : BusUnit Sample bufLength) (c : BusUnit.Call Sample)
    (m : BusArrays Sample) : ∃ xfade saved empty, (unit.calcFunc c m).1 =
      { unit with m_xfade := xfade, m_saved := saved, m_empty := empty } := by
  obtain ⟨kind, mCalcRate, _, _, _, _, _, _, _, _⟩ := unit
  cases kind with
  | input => cases mCalcRate <;> exact ⟨_, _, _, rfl⟩
  | out => cases mCalcRate <;> exact ⟨_, _, _, rfl⟩
  | replaceOut => cases mCalcRate <;> exact ⟨_, _, _, rfl⟩
  | xOut => cases mCalcRate <;> exact ⟨_, _, _, rfl⟩
  | offsetOut => exact ⟨_, _, _, rfl⟩

/-- A call with such an index leaves a sound unit. -/
theorem Sound.callUnit (h : w.Sound) (hunit : unit.Sound options)
    (hindex : unit.numChannels = 0 ∨
      options.Names unit.mCalcRate unit.numChannels fbusChannel ∨ unit.Closed nextXfade) :
    (w.callUnit conversion mSlopeFactor n unit fbusChannel inNumSamples nextXfade
      input).1.Sound := by
  have hkind := unit.kind_seek conversion options fbusChannel
  have hcalc := unit.mCalcRate_seek conversion options fbusChannel
  have hnum := unit.numChannels_seek conversion options fbusChannel
  have hfbus := unit.m_fbusChannel_seek conversion options fbusChannel
  refine h.update (fun u hu => ?_) rfl
  obtain ⟨xfade, saved, empty, hfst⟩ := calcFunc_fst
    (unit.seek conversion options fbusChannel)
    ⟨w.mBufCounter, mSlopeFactor, inNumSamples, nextXfade, input⟩
    (w.bus (unit.seek conversion options fbusChannel).mCalcRate)
  rw [hfst, Option.some.injEq] at hu
  subst hu
  constructor
  · intro hnames
    replace hnames : options.Names (unit.seek conversion options fbusChannel).mCalcRate
      (unit.seek conversion options fbusChannel).numChannels
      (unit.seek conversion options fbusChannel).m_fbusChannel := hnames
    rw [hcalc, hnum, hfbus] at hnames
    show (unit.seek conversion options fbusChannel).PointsTo options
      ⌊(unit.seek conversion options fbusChannel).m_fbusChannel⌋.toNat
    rw [hfbus]
    exact hunit.seek_points hnames
  · intro hoffset
    exact hcalc.trans (hunit.rate (hkind.symm.trans hoffset))
  · intro hoffset hempty
    show (unit.seek conversion options fbusChannel).numChannels = 0 ∨
      options.Names (unit.seek conversion options fbusChannel).mCalcRate
        (unit.seek conversion options fbusChannel).numChannels
        (unit.seek conversion options fbusChannel).m_fbusChannel
    rw [hcalc, hnum, hfbus]
    rcases hindex with hzero | hnames | hclosed
    · exact .inl hzero
    · exact .inr hnames
    · -- only an `XOut` can be closed
      have hxOut := hclosed.1.symm.trans (hkind.symm.trans hoffset)
      cases hxOut

omit [DecidableEq Sample] in
/-- A unit that has kept samples knows channels that exist. -/
theorem offsetOutDtor_inside (hunit : unit.Sound options) (hkind : unit.kind = .offsetOut)
    (m : BusArrays Sample) (bufCounter : BitVec 32) :
    ∀ a ∈ (unit.offsetOutDtor m bufCounter).2, a.Inside options .fullRate := by
  intro a ha
  obtain ⟨i, hi, t, ht⟩ := exists_of_mem_forBusChannels ha
  obtain ⟨hempty, hat⟩ :=
    BusArrays.at_offsetTail t bufCounter options.mBufLength (unit.m_bus + i * options.mBufLength)
      (unit.m_busTouched + i) unit.mSampleOffset.isLt.le unit.m_empty _ a ht
  have hrate := hunit.rate hkind
  rcases hunit.kept hkind hempty with hzero | hnames
  · omega
  · obtain ⟨hbus, htouched⟩ := hunit.points hnames
    have hfirst := hnames.2
    rw [hrate] at hbus hfirst
    rw [hbus, htouched] at hat
    exact hat.inside hi hfirst

theorem createUnit_harmless_iff {kind : BusUnitKind} {rate : BusRate} {numChannels : ℕ}
    {xfade : Sample} {offset : Fin options.mBufLength} {memory : ℕ → Sample} :
    (kind = .input → Harmless options rate numChannels fbusChannel
        (w.createUnit conversion mSlopeFactor n
          (.ctor kind rate numChannels xfade offset memory) fbusChannel).2) ↔
      (kind = .input → numChannels = 0 ∨ options.Names rate numChannels fbusChannel) := by
  apply imp_congr_right
  rintro rfl
  have hiff := callUnit_harmless_iff conversion mSlopeFactor w n fbusChannel 0 (fun _ _ => 0)
    (BusUnit.Sound.ctor .input rate numChannels xfade offset memory) options.bufLength_pos
  refine hiff.trans (or_congr Iff.rfl (or_iff_left fun hclosed => ?_))
  cases hclosed.1

theorem calcUnit_harmless_iff (hw : w.Sound) :
    (∀ unit, w.units n = some unit → Harmless options unit.mCalcRate unit.numChannels fbusChannel
        (w.calcUnit conversion mSlopeFactor n fbusChannel nextXfade input).2) ↔
      ∀ unit, w.units n = some unit → unit.numChannels = 0 ∨
        options.Names unit.mCalcRate unit.numChannels fbusChannel ∨ unit.Closed nextXfade := by
  apply forall_congr'
  intro unit
  apply imp_congr_right
  intro hn
  unfold calcUnit
  rw [hn]
  exact callUnit_harmless_iff conversion mSlopeFactor w n fbusChannel nextXfade input (hw n unit hn)
    le_rfl

omit [DecidableEq Sample] in
theorem deleteUnit_inside (hw : w.Sound) (n : ℕ) :
    ∀ a ∈ (w.deleteUnit n).2, a.Inside options .fullRate := by
  unfold deleteUnit
  cases hn : w.units n with
  | none =>
    intro a ha
    cases ha
  | some unit =>
    dsimp only
    split_ifs with hkind
    · exact offsetOutDtor_inside (hw n unit hn) hkind _ _
    · intro a ha
      cases ha

omit [DecidableEq Sample] in
/-- Without its `LocalIn`, a `LocalOut` writes nothing only if it has no channels, and crashes if
there is none. -/
theorem calcLocalOut_iff {graph : ℕ} {rate : BusRate} {numChannels : ℕ} :
    (∃ r, w.calcLocalOut graph rate numChannels input = some r ∧
        (¬ w.HasLocalIn graph rate numChannels → r.2 = [])) ↔
      ∃ localIn, w.localIns graph rate = some localIn ∧
        (localIn.mNumOutputs = numChannels ∨ numChannels = 0) := by
  unfold HasLocalIn calcLocalOut localOutNext
  cases hlocal : w.localIns graph rate with
  | none => simp
  | some localIn =>
    have hnil : (forBusChannels (fun i m => m.mixChannel w.mBufCounter
        (options.channelLength rate) (i * options.channelLength rate) i (input i))
        numChannels localIn.memory).2 = [] ↔ numChannels = 0 := by
      constructor
      · intro hnil
        by_contra hne
        refine forBusChannels_ne_nil (fun i m => ?_) (Nat.pos_of_ne_zero hne) hnil
        exact (m.onChannel_mixChannel _ _ _ _ _).ne_nil
      · rintro rfl
        rfl
    simp only [Option.map_some, Option.some.injEq, exists_eq_left', hnil]
    exact or_iff_not_imp_left.symm

/-- One event goes well if and only if it is admissible. -/
theorem safe_iff_admissible (hw : w.Sound) (e : BusEvent Sample options.mBufLength) :
    w.Safe conversion mSlopeFactor e ↔ w.Admissible e := by
  unfold Safe
  cases e with
  | create n kind rate numChannels xfade offset memory fbusChannel =>
    simp only [perform, Option.some.injEq, exists_eq_left']
    exact createUnit_harmless_iff
  | calcUnit n fbusChannel nextXfade input =>
    simp only [perform, Option.some.injEq, exists_eq_left']
    exact calcUnit_harmless_iff hw
  | delete n =>
    simp only [perform, Option.some.injEq, exists_eq_left']
    exact iff_of_true (deleteUnit_inside hw n) trivial
  | createLocalIn graph rate localIn => exact iff_of_true ⟨_, rfl, trivial⟩ trivial
  | calcLocalOut graph rate numChannels input => exact calcLocalOut_iff
  | nextBlock => exact iff_of_true ⟨_, rfl, trivial⟩ trivial

omit [DecidableEq Sample] in
theorem Sound.deleteUnit (h : w.Sound) (n : ℕ) : (w.deleteUnit n).1.Sound := by
  have hdeleted : ∀ u : BusUnit Sample options.mBufLength, none = some u → u.Sound options := by
    intro u hu
    cases hu
  unfold BusIndexWorld.deleteUnit
  cases w.units n with
  | none => exact h
  | some unit =>
    dsimp only
    split_ifs
    · exact h.update hdeleted rfl
    · exact h.update hdeleted rfl

omit [DecidableEq Sample] in
theorem Sound.calcLocalOut (h : w.Sound) {graph : ℕ} {rate : BusRate} {numChannels : ℕ}
    {r : BusIndexWorld Sample options × List BusAccess}
    (hr : w.calcLocalOut graph rate numChannels input = some r) : r.1.Sound := by
  obtain ⟨x, -, rfl⟩ := Option.map_eq_some_iff.mp hr
  exact h

/-- An admissible event leaves sound units. -/
theorem Sound.step (h : w.Sound) {e : BusEvent Sample options.mBufLength}
    (he : w.Admissible e) : (w.step conversion mSlopeFactor e).Sound := by
  unfold BusIndexWorld.step
  cases e with
  | create n kind rate numChannels xfade offset memory fbusChannel =>
    show (w.createUnit conversion mSlopeFactor n _ fbusChannel).1.Sound
    have hctor : (BusUnit.ctor kind rate numChannels xfade offset memory).Sound options :=
      .ctor kind rate numChannels xfade offset memory
    unfold createUnit
    split_ifs with hkind
    · have hinput : kind = .input := hkind
      subst hinput
      exact h.callUnit hctor ((he rfl).imp_right .inl)
    · refine h.update (fun u hu => ?_) rfl
      rw [Option.some.injEq] at hu
      exact hu ▸ hctor
  | calcUnit n fbusChannel nextXfade input =>
    show (w.calcUnit conversion mSlopeFactor n fbusChannel nextXfade input).1.Sound
    unfold BusIndexWorld.calcUnit
    cases hn : w.units n with
    | none => exact h
    | some unit => exact h.callUnit (h n unit hn) (he unit hn)
  | delete n => exact h.deleteUnit n
  | createLocalIn graph rate localIn => exact h
  | calcLocalOut graph rate numChannels input =>
    show ((w.calcLocalOut graph rate numChannels input).map Prod.fst).getD w |>.Sound
    cases hr : w.calcLocalOut graph rate numChannels input with
    | none => exact h
    | some r => exact h.calcLocalOut hr
  | nextBlock => exact h

/-- In a run, all goes well if and only if every event is admissible: the indices are in range,
and a `LocalOut` has its `LocalIn`. -/
theorem staysOnBus_iff (options : BusOptions) (conversion : UInt32Conversion)
    (mSlopeFactor : Sample) (es : List (BusEvent Sample options.mBufLength)) :
    Runs.Guarded (step conversion mSlopeFactor) (Safe conversion mSlopeFactor) (new Sample options)
        es ↔
      Runs.Guarded (step conversion mSlopeFactor) Admissible (new Sample options) es := by
  symm
  apply Runs.guarded_congr_of_guarded (I := Sound)
  · exact fun w e hw he => hw.step he
  · exact fun w e hw => (safe_iff_admissible hw e).symm
  · exact Sound.new

/-- An `Out` of one channel, whose first index is just behind the two channels of the audio bus,
writes the first hardware channel. -/
theorem not_staysOnBus :
    ¬ ∀ (options : BusOptions) (conversion : UInt32Conversion)
      (es : List (BusEvent ℚ options.mBufLength)),
      Runs.Guarded (step conversion 1) (Safe conversion 1) (new ℚ options) es := by
  intro hall
  let options : BusOptions := ⟨1, 2, 1, by decide, by decide, by decide⟩
  let conversion : UInt32Conversion := ⟨fun f => BitVec.ofNat 32 ⌊f⌋.toNat, by
    intro f hlower hupper
    have hfloor : ⌊f⌋ < 2 ^ 32 := Int.floor_lt.mpr (by exact_mod_cast hupper)
    rw [BitVec.toNat_ofNat, Nat.mod_eq_of_lt (by omega)]⟩
  have hrun := hall options conversion
    [.create 0 .out .fullRate 1 0 ⟨0, by decide⟩ (fun _ => 0) 2, .calcUnit 0 2 0 fun _ _ => 5]
  obtain ⟨-, ⟨r, hr, hsafe⟩, -⟩ := hrun
  have haccesses : some [BusAccess.readStamp 0, .writeSample 0, .writeStamp 0] = some r.2 :=
    congrArg (Option.map Prod.snd) hr
  have hnil : r.2 = [] := by
    refine (hsafe _ rfl).2 fun hnames => ?_
    have hlast : ⌊(2 : ℚ)⌋.toNat + 1 ≤ 2 := hnames.2
    revert hlast
    decide
  rw [hnil] at haccesses
  cases haccesses

end BusIndexWorld

end PoopWorms.Server
