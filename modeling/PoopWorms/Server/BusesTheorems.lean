import PoopWorms.Server.Buses
import Mathlib.Data.Rat.Floor
import Mathlib.Tactic.Linarith

/-!
# What a block leaves on the buses

Sample by sample a bus is an array of stamped cells, one for each channel, that the block
counter clears. A call of a writer changes the cells of its channels, and a block folds its
writers.
-/

namespace PoopWorms.Server

open Stamped

namespace IOUnit

variable {numBusChannels bufLength : ℕ} {unit : IOUnit}

/-- A unit that its constructor made, and that has looked up channels since. -/
inductive Built (numBusChannels bufLength : ℕ) : IOUnit → Prop
  | ctor (kind : IOKind) (mCalcRate : BusRate) (numChannels : ℕ) :
    Built numBusChannels bufLength (ctor kind mCalcRate numChannels)
  | seek {unit : IOUnit} (fbusChannel : ℚ) (h : Built numBusChannels bufLength unit) :
    Built numBusChannels bufLength (unit.seek numBusChannels bufLength fbusChannel)

/-- What does not change from call to call. -/
def form (unit : IOUnit) : IOKind × BusRate × ℕ := (unit.kind, unit.mCalcRate, unit.numChannels)

@[simp] theorem form_seek (fbusChannel : ℚ) :
    (unit.seek numBusChannels bufLength fbusChannel).form = unit.form := by
  unfold seek
  simp only
  split_ifs <;> rfl

@[simp] theorem m_fbusChannel_seek (fbusChannel : ℚ) :
    (unit.seek numBusChannels bufLength fbusChannel).m_fbusChannel = fbusChannel := by
  unfold seek
  simp only
  split_ifs with hne
  · rfl
  · rfl
  · exact (not_not.mp hne).symm

/-- The pointers of a unit are those of the channel in `m_fbusChannel`, if that is in range. -/
theorem Built.found (h : Built numBusChannels bufLength unit) (hset : unit.m_fbusChannel ≠ -1)
    (hrange : uint32 unit.m_fbusChannel + unit.numChannels ≤ numBusChannels) :
    unit.m_bus = uint32 unit.m_fbusChannel * bufLength % 2 ^ 32 ∧
      unit.m_busTouched = uint32 unit.m_fbusChannel := by
  induction h with
  | ctor => exact absurd rfl hset
  | @seek unit fbusChannel h ih =>
    have hform : (unit.seek numBusChannels bufLength fbusChannel).numChannels = unit.numChannels :=
      congrArg (fun f => f.2.2) (form_seek fbusChannel)
    rw [m_fbusChannel_seek] at hset hrange ⊢
    rw [hform] at hrange
    by_cases hsame : fbusChannel = unit.m_fbusChannel
    · -- nothing is looked up, so the unit was right before
      subst hsame
      have hseek : unit.seek numBusChannels bufLength unit.m_fbusChannel = unit := if_neg (by simp)
      rw [hseek]
      exact ih hset hrange
    · have hlast : ¬ numBusChannels < (uint32 fbusChannel + unit.numChannels) % 2 ^ 32 := by
        have hle := Nat.mod_le (uint32 fbusChannel + unit.numChannels) (2 ^ 32)
        omega
      unfold IOUnit.seek
      rw [if_pos hsame]
      simp only
      rw [if_pos hlast]
      exact ⟨rfl, rfl⟩

end IOUnit

/-! ## What is written to a channel -/

/-- One sample that a writer has for a channel. -/
inductive ChannelWrite (Sample : Type)
  | add (a : Sample)
  | replace (a : Sample)

/-- The sample after the write. `none`: nobody has written in this block. -/
def ChannelWrite.onto {Sample : Type} [Add Sample] : ChannelWrite Sample → Option Sample → Sample
  | add a, none => a
  | add a, some b => b + a
  | replace a, _ => a

/-- The left fold of the writers. -/
def mixed {Sample : Type} [Add Sample] (writes : List (ChannelWrite Sample)) : Option Sample :=
  writes.foldl (fun content write => some (write.onto content)) none

theorem mixed_eq_none_iff {Sample : Type} [Add Sample] (writes : List (ChannelWrite Sample)) :
    mixed writes = none ↔ writes = [] := by
  have hsome : ∀ (ws : List (ChannelWrite Sample)) (a : Sample), ws.foldl
      (fun content write => some (write.onto content)) (some a) ≠ none := by
    intro ws
    induction ws with
    | nil => exact fun a => Option.some_ne_none a
    | cons write ws ih => exact fun a => ih _
  cases writes with
  | nil => simp [mixed]
  | cons write ws => exact iff_of_false (hsome ws _) (List.cons_ne_nil _ _)

def IOKind.write {Sample : Type} : IOKind → Option (Sample → ChannelWrite Sample)
  | out => some .add
  | replaceOut => some .replace
  | input => none

namespace BusWorld

variable {Sample : Type}

/-- What the call has for sample `j` of a channel. -/
def writeOf (w : BusWorld Sample) (rate : BusRate) (channel j : ℕ) (c : IOCall Sample) :
    Option (ChannelWrite Sample) :=
  let unit := w.units c.unit
  let first := uint32 c.fbusChannel
  if unit.mCalcRate = rate ∧ first ≤ channel ∧ channel < first + unit.numChannels then
    unit.kind.write.map fun write => write (c.input (channel - first) j)
  else none

def writes (w : BusWorld Sample) (rate : BusRate) (channel j : ℕ) (cs : List (IOCall Sample)) :
    List (ChannelWrite Sample) :=
  cs.filterMap (w.writeOf rate channel j)

/-- All channels of the call exist. -/
structure InRange (w : BusWorld Sample) (c : IOCall Sample) : Prop where
  lower : -1 < c.fbusChannel
  upper : c.fbusChannel < 2 ^ 32
  channels : uint32 c.fbusChannel + (w.units c.unit).numChannels ≤
    (w.bus (w.units c.unit).mCalcRate).numBusChannels
  samples : (uint32 c.fbusChannel + (w.units c.unit).numChannels) *
    w.channelLength (w.units c.unit).mCalcRate ≤ w.numsamples (w.units c.unit).mCalcRate

/-- Every unit was made by its constructor, and has only been called since. -/
def UnitsBuilt (w : BusWorld Sample) : Prop :=
  ∀ n, (w.units n).Built (w.bus (w.units n).mCalcRate).numBusChannels
    (w.channelLength (w.units n).mCalcRate)

end BusWorld

/-! ## A bus as stamped cells -/

namespace Bus

variable {Sample : Type} {bus : Bus Sample} {bufLength j : ℕ} {bufCounter : BitVec 32}

/-- Sample `j` of every channel. -/
def stampedAt (bus : Bus Sample) (bufLength j : ℕ) (bufCounter : BitVec 32) :
    Stamped ℕ (BitVec 32) Sample where
  cell channel := bus.samples (channel * bufLength + j)
  stamp := bus.touched
  now := bufCounter

theorem place_iff (hj : j < bufLength) (channel channel' : ℕ) :
    (channel * bufLength ≤ channel' * bufLength + j ∧
      channel' * bufLength + j < channel * bufLength + bufLength) ↔ channel' = channel := by
  constructor
  · intro h
    rcases lt_trichotomy channel' channel with hlt | heq | hgt
    · have hle := Nat.mul_le_mul_right bufLength (Nat.succ_le_of_lt hlt)
      rw [Nat.succ_mul] at hle
      omega
    · exact heq
    · have hle := Nat.mul_le_mul_right bufLength (Nat.succ_le_of_lt hgt)
      rw [Nat.succ_mul] at hle
      omega
  · intro h
    subst h
    omega

theorem stampedAt_replaceChannel (hj : j < bufLength) (channel : ℕ) (input : ℕ → Sample) :
    (bus.replaceChannel bufCounter bufLength (channel * bufLength) channel input).stampedAt
        bufLength j bufCounter =
      (bus.stampedAt bufLength j bufCounter).alter channel fun _ => input j := by
  have hcell : ∀ channel', copy bufLength (channel * bufLength) input bus.samples
      (channel' * bufLength + j) =
        Function.update (fun channel => bus.samples (channel * bufLength + j)) channel (input j)
          channel' := by
    intro channel'
    unfold copy
    by_cases h : channel' = channel
    · subst h
      rw [if_pos ((place_iff hj _ _).2 rfl), Function.update_self, Nat.add_sub_cancel_left]
    · rw [if_neg (mt (place_iff hj _ _).1 h), Function.update_of_ne h]
  unfold stampedAt replaceChannel alter
  congr 1
  funext channel'
  exact hcell channel'

theorem stampedAt_mixChannel [Add Sample] (hj : j < bufLength) (channel : ℕ)
    (input : ℕ → Sample) :
    (bus.mixChannel bufCounter bufLength (channel * bufLength) channel input).stampedAt
        bufLength j bufCounter =
      (bus.stampedAt bufLength j bufCounter).alter channel
        (ChannelWrite.add (input j)).onto := by
  by_cases htouched : bus.touched channel = bufCounter
  · have hlook : (bus.stampedAt bufLength j bufCounter).look channel =
        some (bus.samples (channel * bufLength + j)) := if_pos htouched
    have hcell : ∀ channel', accum bufLength (channel * bufLength) input bus.samples
        (channel' * bufLength + j) =
          Function.update (fun channel => bus.samples (channel * bufLength + j)) channel
            (bus.samples (channel * bufLength + j) + input j) channel' := by
      intro channel'
      unfold accum
      by_cases h : channel' = channel
      · subst h
        rw [if_pos ((place_iff hj _ _).2 rfl), Function.update_self, Nat.add_sub_cancel_left]
      · rw [if_neg (mt (place_iff hj _ _).1 h), Function.update_of_ne h]
    unfold alter mixChannel
    rw [hlook, if_pos htouched]
    unfold stampedAt
    congr 1
    · funext channel'
      exact hcell channel'
    · rw [← htouched]
      exact (Function.update_eq_self _ _).symm
  · have hlook : (bus.stampedAt bufLength j bufCounter).look channel = none := if_neg htouched
    unfold mixChannel
    rw [if_neg htouched, stampedAt_replaceChannel hj]
    unfold alter
    rw [hlook]
    rfl

/-- The channels that a loop changes, and how. -/
def loopChanges (onto : Sample → Option Sample → Sample) (first numChannels j : ℕ)
    (input : ℕ → ℕ → Sample) : List (ℕ × (Option Sample → Sample)) :=
  (List.range numChannels).map fun i => (first + i, onto (input i j))

theorem folded_loopChanges (onto : Sample → Option Sample → Sample)
    (first numChannels j channel : ℕ) (input : ℕ → ℕ → Sample) (content : Option Sample) :
    folded (loopChanges onto first numChannels j input) channel content =
      if first ≤ channel ∧ channel < first + numChannels then
        some (onto (input (channel - first) j) content)
      else content := by
  induction numChannels with
  | zero =>
    rw [if_neg (by omega)]
    rfl
  | succ n ih =>
    unfold loopChanges at ih ⊢
    rw [List.range_succ, List.map_append, folded_append, ih]
    simp only [List.map_cons, List.map_nil, folded_cons, folded_nil]
    by_cases hlast : first + n = channel
    · rw [if_pos hlast, if_neg (by omega), if_pos (by omega), show channel - first = n by omega]
    · rw [if_neg hlast]
      by_cases h : first ≤ channel ∧ channel < first + n
      · rw [if_pos h, if_pos ⟨h.1, by omega⟩]
      · rw [if_neg h, if_neg (by omega)]

variable {body : ℕ → ℕ → (ℕ → Sample) → Bus Sample → Bus Sample}

/-- A loop whose body changes one channel. -/
theorem stampedAt_forChannels (onto : Sample → Option Sample → Sample) (hbody : ∀ channel input bus,
      (body (channel * bufLength) channel input bus).stampedAt bufLength j bufCounter =
        (bus.stampedAt bufLength j bufCounter).alter channel (onto (input j)))
    {unit : IOUnit} {first : ℕ} (hbus : unit.m_bus = first * bufLength)
    (htouched : unit.m_busTouched = first) (input : ℕ → ℕ → Sample) :
    (bus.forChannels body bufLength unit input).stampedAt bufLength j bufCounter =
      (bus.stampedAt bufLength j bufCounter).alterAll
        (loopChanges onto first unit.numChannels j input) := by
  unfold forChannels loopChanges
  generalize unit.numChannels = n
  induction n with
  | zero => rfl
  | succ n ih =>
    rw [List.range_succ, List.map_append, alterAll_append, ← ih, List.foldl_append]
    simp only [List.foldl_cons, List.foldl_nil, List.map_cons, List.map_nil]
    rw [hbus, htouched, ← Nat.add_mul, hbody]
    rfl

/-- A loop sets no stamp but the present one. -/
theorem touched_forChannels (hbody : ∀ out touched input bus channel,
      (body out touched input bus).touched channel = bufCounter ∨
        (body out touched input bus).touched channel = bus.touched channel)
    (unit : IOUnit) (input : ℕ → ℕ → Sample) (channel : ℕ) :
    (bus.forChannels body bufLength unit input).touched channel = bufCounter ∨
      (bus.forChannels body bufLength unit input).touched channel = bus.touched channel := by
  unfold forChannels
  induction List.range unit.numChannels generalizing bus with
  | nil => exact .inr rfl
  | cons i is ih =>
    rw [List.foldl_cons]
    rcases @ih (body _ _ (input i) bus) with h | h
    · exact .inl h
    · rw [h]
      exact hbody _ _ _ _ channel

theorem numBusChannels_forChannels (hbody : ∀ out touched input bus,
      (body out touched input bus).numBusChannels = bus.numBusChannels)
    (unit : IOUnit) (input : ℕ → ℕ → Sample) :
    (bus.forChannels body bufLength unit input).numBusChannels = bus.numBusChannels := by
  unfold forChannels
  induction List.range unit.numChannels generalizing bus with
  | nil => rfl
  | cons i is ih => rw [List.foldl_cons, ih, hbody]

theorem touched_replaceChannel (out touched : ℕ) (input : ℕ → Sample) (bus : Bus Sample)
    (channel : ℕ) :
    (bus.replaceChannel bufCounter bufLength out touched input).touched channel = bufCounter ∨
      (bus.replaceChannel bufCounter bufLength out touched input).touched channel =
        bus.touched channel := by
  show Function.update bus.touched touched bufCounter channel = _ ∨
    Function.update bus.touched touched bufCounter channel = _
  by_cases h : channel = touched
  · exact .inl (by rw [h, Function.update_self])
  · exact .inr (Function.update_of_ne h _ _)

theorem touched_mixChannel [Add Sample] (out touched : ℕ) (input : ℕ → Sample)
    (bus : Bus Sample) (channel : ℕ) :
    (bus.mixChannel bufCounter bufLength out touched input).touched channel = bufCounter ∨
      (bus.mixChannel bufCounter bufLength out touched input).touched channel =
        bus.touched channel := by
  unfold mixChannel
  split_ifs
  · exact .inr rfl
  · exact touched_replaceChannel out touched input bus channel

theorem numBusChannels_replaceChannel (out touched : ℕ) (input : ℕ → Sample)
    (bus : Bus Sample) :
    (bus.replaceChannel bufCounter bufLength out touched input).numBusChannels =
      bus.numBusChannels := rfl

theorem numBusChannels_mixChannel [Add Sample] (out touched : ℕ) (input : ℕ → Sample)
    (bus : Bus Sample) :
    (bus.mixChannel bufCounter bufLength out touched input).numBusChannels =
      bus.numBusChannels := by
  unfold mixChannel
  split_ifs <;> rfl

end Bus

namespace BusWorld

variable {Sample : Type}

@[simp] theorem form_sought (w : BusWorld Sample) (c : IOCall Sample) :
    (w.sought c).form = (w.units c.unit).form := IOUnit.form_seek _

theorem numsamples_lt {w : BusWorld Sample} {rate : BusRate} {channel : ℕ}
    (hchannel : channel < 2 ^ 32) (h : channel * w.channelLength rate ≤ w.numsamples rate) :
    channel * w.channelLength rate % 2 ^ 32 = channel * w.channelLength rate := by
  apply Nat.mod_eq_of_lt
  cases rate with
  | fullRate =>
    have hlt : w.numsamples .fullRate < 2 ^ 32 := Nat.mod_lt _ (by decide)
    omega
  | bufRate =>
    show channel * 1 < 2 ^ 32
    omega

theorem uint32_lt (f : ℚ) : uint32 f < 2 ^ 32 := Nat.mod_lt _ (by decide)

/-- A call works on the channels its input says. -/
theorem sought_found {w : BusWorld Sample} {c : IOCall Sample} (hunits : w.UnitsBuilt)
    (h : w.InRange c) :
    (w.sought c).m_bus = uint32 c.fbusChannel * w.channelLength (w.units c.unit).mCalcRate ∧
      (w.sought c).m_busTouched = uint32 c.fbusChannel := by
  have hfbus : (w.sought c).m_fbusChannel = c.fbusChannel := IOUnit.m_fbusChannel_seek _
  have hnum : (w.sought c).numChannels = (w.units c.unit).numChannels :=
    congrArg (fun f => f.2.2) (w.form_sought c)
  have hset : (w.sought c).m_fbusChannel ≠ -1 := by
    rw [hfbus]
    exact ne_of_gt h.lower
  have hbuilt : (w.sought c).Built _ _ := (hunits c.unit).seek c.fbusChannel
  have hfound := hbuilt.found hset (by
    rw [hfbus, hnum]
    exact h.channels)
  have hsamples : uint32 c.fbusChannel * w.channelLength (w.units c.unit).mCalcRate ≤
      w.numsamples (w.units c.unit).mCalcRate :=
    (Nat.mul_le_mul_right _ (Nat.le_add_right _ _)).trans h.samples
  rw [hfbus, numsamples_lt (uint32_lt _) hsamples] at hfound
  exact hfound

variable [Add Sample]

/-- What a call does to the bus of its rate. -/
theorem bus_call (w : BusWorld Sample) (c : IOCall Sample) (rate : BusRate) :
    (w.call c).bus rate =
      if (w.sought c).mCalcRate = rate then
        match (w.sought c).kind with
        | .out => (w.bus rate).forChannels
            (Bus.mixChannel w.mBufCounter (w.channelLength rate)) (w.channelLength rate)
            (w.sought c) c.input
        | .replaceOut => (w.bus rate).forChannels
            (Bus.replaceChannel w.mBufCounter (w.channelLength rate)) (w.channelLength rate)
            (w.sought c) c.input
        | .input => w.bus rate
      else w.bus rate := by
  unfold call
  generalize w.sought c = unit
  obtain ⟨kind, mCalcRate, numChannels, m_fbusChannel, m_bus, m_busTouched⟩ := unit
  cases kind <;> cases mCalcRate <;> cases rate <;> rfl

theorem mBufLength_call (w : BusWorld Sample) (c : IOCall Sample) :
    (w.call c).mBufLength = w.mBufLength := by
  unfold call
  simp only
  split <;> rfl

theorem mBufCounter_call (w : BusWorld Sample) (c : IOCall Sample) :
    (w.call c).mBufCounter = w.mBufCounter := by
  unfold call
  simp only
  split <;> rfl

theorem units_call (w : BusWorld Sample) (c : IOCall Sample) :
    (w.call c).units = Function.update w.units c.unit (w.sought c) := by
  unfold call
  simp only
  split <;> rfl

theorem numBusChannels_call (w : BusWorld Sample) (c : IOCall Sample) (rate : BusRate) :
    ((w.call c).bus rate).numBusChannels = (w.bus rate).numBusChannels := by
  rw [bus_call]
  split_ifs
  · split
    · exact Bus.numBusChannels_forChannels Bus.numBusChannels_mixChannel _ _
    · exact Bus.numBusChannels_forChannels Bus.numBusChannels_replaceChannel _ _
    · rfl
  · rfl

/-- What the calls of a block leave alone. -/
structure Alike (w w' : BusWorld Sample) : Prop where
  mBufLength : w'.mBufLength = w.mBufLength
  mBufCounter : w'.mBufCounter = w.mBufCounter
  numBusChannels : ∀ rate, (w'.bus rate).numBusChannels = (w.bus rate).numBusChannels
  form : ∀ n, (w'.units n).form = (w.units n).form

omit [Add Sample] in
theorem Alike.channelLength {w w' : BusWorld Sample} (h : Alike w w') (rate : BusRate) :
    w'.channelLength rate = w.channelLength rate := by
  cases rate with
  | fullRate => exact h.mBufLength
  | bufRate => rfl

omit [Add Sample] in
theorem Alike.numsamples {w w' : BusWorld Sample} (h : Alike w w') (rate : BusRate) :
    w'.numsamples rate = w.numsamples rate := by
  cases rate with
  | fullRate =>
    show w'.mBufLength * (w'.bus .fullRate).numBusChannels % 2 ^ 32 =
      w.mBufLength * (w.bus .fullRate).numBusChannels % 2 ^ 32
    rw [h.mBufLength, h.numBusChannels]
  | bufRate => exact h.numBusChannels .bufRate

omit [Add Sample] in
theorem Alike.unit {w w' : BusWorld Sample} (h : Alike w w') (n : ℕ) :
    (w'.units n).kind = (w.units n).kind ∧ (w'.units n).mCalcRate = (w.units n).mCalcRate ∧
      (w'.units n).numChannels = (w.units n).numChannels := by
  have hform := h.form n
  simp only [IOUnit.form, Prod.mk.injEq] at hform
  exact hform

omit [Add Sample] in
theorem Alike.inRange {w w' : BusWorld Sample} (h : Alike w w') {c : IOCall Sample}
    (hc : w.InRange c) : w'.InRange c := by
  obtain ⟨-, hrate, hnum⟩ := h.unit c.unit
  constructor
  · exact hc.lower
  · exact hc.upper
  · rw [hrate, hnum, h.numBusChannels]
    exact hc.channels
  · rw [hrate, hnum, h.channelLength, h.numsamples]
    exact hc.samples

omit [Add Sample] in
theorem Alike.writeOf {w w' : BusWorld Sample} (h : Alike w w') (rate : BusRate)
    (channel j : ℕ) : w'.writeOf rate channel j = w.writeOf rate channel j := by
  funext c
  obtain ⟨hkind, hrate, hnum⟩ := h.unit c.unit
  unfold BusWorld.writeOf
  simp only [hkind, hrate, hnum]

omit [Add Sample] in
theorem Alike.trans {w₁ w₂ w₃ : BusWorld Sample} (h₁ : Alike w₁ w₂) (h₂ : Alike w₂ w₃) :
    Alike w₁ w₃ where
  mBufLength := h₂.mBufLength.trans h₁.mBufLength
  mBufCounter := h₂.mBufCounter.trans h₁.mBufCounter
  numBusChannels rate := (h₂.numBusChannels rate).trans (h₁.numBusChannels rate)
  form n := (h₂.form n).trans (h₁.form n)

theorem alike_call (w : BusWorld Sample) (c : IOCall Sample) : Alike w (w.call c) where
  mBufLength := w.mBufLength_call c
  mBufCounter := w.mBufCounter_call c
  numBusChannels := w.numBusChannels_call c
  form n := by
    rw [units_call]
    by_cases h : n = c.unit
    · subst h
      rw [Function.update_self, form_sought]
    · rw [Function.update_of_ne h]

theorem UnitsBuilt.call {w : BusWorld Sample} (h : w.UnitsBuilt) (c : IOCall Sample) :
    (w.call c).UnitsBuilt := by
  intro n
  have hrate := ((w.alike_call c).unit n).2.1
  rw [hrate, numBusChannels_call, (w.alike_call c).channelLength, units_call]
  by_cases hn : n = c.unit
  · subst hn
    rw [Function.update_self]
    exact (h c.unit).seek c.fbusChannel
  · rw [Function.update_of_ne hn]
    exact h n

/-! ## What the calls of a block write -/

/-- Sample `j` of every channel, as the present block sees it. -/
def cells (w : BusWorld Sample) (rate : BusRate) (j : ℕ) : Stamped ℕ (BitVec 32) Sample :=
  (w.bus rate).stampedAt (w.channelLength rate) j w.mBufCounter

/-- The content of a channel after a write, if the call has one for it. -/
def written (content : Option Sample) (write : Option (ChannelWrite Sample)) : Option Sample :=
  match write with
  | none => content
  | some write => some (write.onto content)

variable {w : BusWorld Sample} {c : IOCall Sample} {rate : BusRate} {j : ℕ}

/-- A call changes the cells that it writes. -/
theorem cells_call (hunits : w.UnitsBuilt) (hc : w.InRange c) (hj : j < w.channelLength rate) :
    ∃ changes, (w.call c).cells rate j = (w.cells rate j).alterAll changes ∧
      ∀ channel content, folded changes channel content =
        written content (w.writeOf rate channel j c) := by
  obtain ⟨hbus, htouched⟩ := sought_found hunits hc
  obtain ⟨hkind, hrate, hnum⟩ := (w.alike_call c).unit c.unit
  rw [units_call, Function.update_self] at hkind hrate hnum
  have hcells : (w.call c).cells rate j =
      ((w.call c).bus rate).stampedAt (w.channelLength rate) j w.mBufCounter := by
    unfold cells
    rw [(w.alike_call c).channelLength, mBufCounter_call]
  have hnone : ∀ channel content,
      folded ([] : List (ℕ × (Option Sample → Sample))) channel content = written content none :=
    fun _ _ => rfl
  rw [hcells, bus_call, hrate, hkind]
  unfold writeOf
  by_cases h : (w.units c.unit).mCalcRate = rate
  · subst h
    rw [if_pos rfl]
    simp only [true_and]
    cases (w.units c.unit).kind with
    | out =>
      refine ⟨_, Bus.stampedAt_forChannels (fun a => (ChannelWrite.add a).onto)
        (fun channel input bus => Bus.stampedAt_mixChannel hj channel input) hbus htouched _, ?_⟩
      intro channel content
      rw [Bus.folded_loopChanges, hnum]
      split_ifs <;> rfl
    | replaceOut =>
      refine ⟨_, Bus.stampedAt_forChannels (fun a => (ChannelWrite.replace a).onto)
        (fun channel input bus => Bus.stampedAt_replaceChannel hj channel input) hbus htouched _,
        ?_⟩
      intro channel content
      rw [Bus.folded_loopChanges, hnum]
      split_ifs <;> rfl
    | input =>
      refine ⟨[], rfl, ?_⟩
      intro channel content
      rw [hnone]
      split_ifs <;> rfl
  · rw [if_neg h]
    refine ⟨[], rfl, ?_⟩
    intro channel content
    rw [if_neg fun hw => h hw.1]
    exact hnone channel content

/-- A block changes the cells that its calls write, in their order. -/
theorem cells_calls {cs : List (IOCall Sample)} (hunits : w.UnitsBuilt)
    (hcs : ∀ c ∈ cs, w.InRange c) (hj : j < w.channelLength rate) :
    Alike w (w.calls cs) ∧ (w.calls cs).UnitsBuilt ∧
    ∃ changes, (w.calls cs).cells rate j = (w.cells rate j).alterAll changes ∧
      ∀ channel content, folded changes channel content =
        (w.writes rate channel j cs).foldl (fun content write => some (write.onto content))
          content := by
  induction cs generalizing w with
  | nil => exact ⟨⟨rfl, rfl, fun _ => rfl, fun _ => rfl⟩, hunits, [], rfl, fun _ _ => rfl⟩
  | cons c cs ih =>
    have halike := w.alike_call c
    obtain ⟨changes, hchanges, hfold⟩ := cells_call hunits (hcs c List.mem_cons_self) hj
    obtain ⟨halike', hunits', changes', hchanges', hfold'⟩ := ih (hunits.call c)
      (fun c' hc' => halike.inRange (hcs c' (List.mem_cons_of_mem c hc')))
      (by rw [halike.channelLength]; exact hj)
    refine ⟨halike.trans halike', hunits', changes ++ changes', ?_, ?_⟩
    · show ((w.call c).calls cs).cells rate j = _
      rw [hchanges', hchanges, alterAll_append]
    · intro channel content
      rw [folded_append, hfold, hfold']
      unfold writes
      rw [halike.writeOf, List.filterMap_cons]
      cases w.writeOf rate channel j c <;> rfl

/-- A channel that nobody has written yet in the present block. -/
def Stale (w : BusWorld Sample) (rate : BusRate) (channel : ℕ) : Prop :=
  (w.bus rate).touched channel ≠ w.mBufCounter

theorem look_cells_calls {cs : List (IOCall Sample)} (hunits : w.UnitsBuilt)
    (hcs : ∀ c ∈ cs, w.InRange c) (hj : j < w.channelLength rate) {channel : ℕ}
    (hstale : w.Stale rate channel) :
    ((w.calls cs).cells rate j).look channel = mixed (w.writes rate channel j cs) ∧
      ((w.calls cs).cells rate j).cell channel =
        (mixed (w.writes rate channel j cs)).getD ((w.cells rate j).cell channel) := by
  obtain ⟨-, -, changes, hchanges, hfold⟩ := cells_calls hunits hcs hj
  have hlook : (w.cells rate j).look channel = none := look_of_stale _ hstale
  rw [hchanges, look_alterAll, cell_alterAll, hlook, hfold]
  exact ⟨rfl, rfl⟩

omit [Add Sample] in
/-- What a call of an `In` finds at an output. -/
theorem read_eq [Zero Sample] (hunits : w.UnitsBuilt) (hc : w.InRange c) (i : ℕ)
    (hj : j < w.channelLength (w.units c.unit).mCalcRate) :
    w.read c i j =
      match (w.units c.unit).mCalcRate with
      | .fullRate => ((w.cells .fullRate j).look (uint32 c.fbusChannel + i)).getD 0
      | .bufRate => (w.cells .bufRate j).cell (uint32 c.fbusChannel + i) := by
  obtain ⟨hbus, htouched⟩ := sought_found hunits hc
  unfold read
  cases hrate : (w.units c.unit).mCalcRate with
  | fullRate =>
    rw [hrate] at hbus
    unfold inNextA
    simp only [hbus, htouched]
    rw [show uint32 c.fbusChannel * w.channelLength .fullRate + i * w.mBufLength =
      (uint32 c.fbusChannel + i) * w.mBufLength from (Nat.add_mul _ _ _).symm]
    show (if w.mAudioBus.touched _ = w.mBufCounter then _ else 0) =
      (if w.mAudioBus.touched _ = w.mBufCounter then some _ else none).getD 0
    split_ifs <;> rfl
  | bufRate =>
    rw [hrate] at hbus hj
    have hzero : j = 0 := Nat.lt_one_iff.mp hj
    subst hzero
    unfold inNextK
    rw [hbus]
    show w.mControlBus.samples (uint32 c.fbusChannel * 1 + i) =
      w.mControlBus.samples ((uint32 c.fbusChannel + i) * 1 + 0)
    rw [Nat.mul_one, Nat.mul_one, Nat.add_zero]

/-- After a block every channel holds the left fold of its writers, and what it held before if it
has none. An audio-rate `In` reads the fold of the writers before it, and zero if there are
none. -/
theorem calls_mixed [Zero Sample] (w : BusWorld Sample) (hunits : w.UnitsBuilt)
    (cs : List (IOCall Sample)) (hcs : ∀ c ∈ cs, w.InRange c) :
    (∀ rate channel j, w.Stale rate channel → j < w.channelLength rate →
      ((w.calls cs).bus rate).samples (channel * w.channelLength rate + j) =
        (mixed (w.writes rate channel j cs)).getD
          ((w.bus rate).samples (channel * w.channelLength rate + j))) ∧
    (∀ before c after, cs = before ++ c :: after → (w.units c.unit).kind = .input →
      (w.units c.unit).mCalcRate = .fullRate → ∀ i < (w.units c.unit).numChannels,
      w.Stale .fullRate (uint32 c.fbusChannel + i) → ∀ j < w.mBufLength,
      (w.calls before).read c i j =
        (mixed (w.writes .fullRate (uint32 c.fbusChannel + i) j before)).getD 0 ∧
      (mixed (w.writes .fullRate (uint32 c.fbusChannel + i) j before) = none ↔
        w.writes .fullRate (uint32 c.fbusChannel + i) j before = [])) := by
  constructor
  · intro rate channel j hstale hj
    obtain ⟨halike, -, -⟩ := cells_calls hunits hcs hj
    have hcell := (look_cells_calls hunits hcs hj hstale).2
    unfold cells Bus.stampedAt at hcell
    simp only [halike.channelLength] at hcell
    exact hcell
  · intro before c after hsplit hkind hrate i hi hstale j hj
    have hbefore : ∀ c' ∈ before, w.InRange c' := by
      intro c' hc'
      apply hcs
      rw [hsplit]
      exact List.mem_append_left _ hc'
    have hc : w.InRange c := by
      apply hcs
      rw [hsplit]
      exact List.mem_append_right _ List.mem_cons_self
    have hj' : j < w.channelLength .fullRate := hj
    obtain ⟨halike, hunits', -⟩ := cells_calls hunits hbefore hj'
    have hrate' := (halike.unit c.unit).2.1.trans hrate
    rw [read_eq hunits' (halike.inRange hc) i (by rw [hrate', halike.channelLength]; exact hj),
      hrate', (look_cells_calls hunits hbefore hj' hstale).1]
    exact ⟨rfl, mixed_eq_none_iff _⟩

/-- Two overlapping writers around an `In`, on a bus with stale samples. -/
theorem calls_mixed_overlap :
    let units : ℕ → IOUnit := fun n =>
      if n = 0 then .ctor .out .fullRate 2
      else if n = 1 then .ctor .input .fullRate 1
      else .ctor .out .fullRate 1
    let stale : Bus ℤ := ⟨fun _ => 9, fun _ => -1, 3⟩
    let w : BusWorld ℤ := ⟨2, 5, stale, stale, units⟩
    let cs : List (IOCall ℤ) :=
      [⟨0, 1, fun i j => 10 * i + j⟩, ⟨1, 2, fun _ _ => 0⟩, ⟨2, 2, fun _ _ => 100⟩]
    w.UnitsBuilt ∧ (∀ c ∈ cs, w.InRange c) ∧
      (∀ j < 2, ((w.calls cs).bus .fullRate).samples (0 * w.channelLength .fullRate + j) = 9) ∧
      (∀ j < 2, ((w.calls cs).bus .fullRate).samples (2 * w.channelLength .fullRate + j) =
        10 + j + 100) ∧
      ∀ j < 2, (w.calls (cs.take 1)).read ⟨1, 2, fun _ _ => 0⟩ 0 j = 10 + j := by
  intro units stale w cs
  have hunits : w.UnitsBuilt := by
    intro n
    show ((if n = 0 then _ else if n = 1 then _ else _ : IOUnit)).Built _ _
    split_ifs <;> exact .ctor _ _ _
  have hrange : ∀ c ∈ cs, w.InRange c := by
    intro c hc
    simp only [cs, List.mem_cons, List.not_mem_nil, or_false] at hc
    rcases hc with rfl | rfl | rfl <;> constructor <;> decide
  obtain ⟨hwrites, hreads⟩ := calls_mixed w hunits cs hrange
  have hstale : ∀ channel, w.Stale .fullRate channel := by
    intro channel
    show (-1 : BitVec 32) ≠ 5
    decide
  have hone : uint32 1 = 1 := by decide
  have htwo : uint32 2 = 2 := by decide
  have hfirst : ∀ j, w.writes .fullRate 0 j cs = [] := by
    simp [writes, writeOf, w, cs, units, hone, htwo, IOUnit.ctor]
  have hthird : ∀ j, w.writes .fullRate 2 j cs = [.add (10 + j), .add 100] := by
    simp [writes, writeOf, w, cs, units, hone, htwo, IOUnit.ctor, IOKind.write]
  have hbefore : ∀ j, w.writes .fullRate (uint32 2 + 0) j (cs.take 1) = [.add (10 + j)] := by
    simp [writes, writeOf, w, cs, units, hone, htwo, IOUnit.ctor, IOKind.write]
  refine ⟨hunits, hrange, ?_, ?_, ?_⟩
  · intro j hj
    have hcontent := hwrites .fullRate 0 j (hstale 0) hj
    rw [hfirst] at hcontent
    exact hcontent
  · intro j hj
    have hcontent := hwrites .fullRate 2 j (hstale 2) hj
    rw [hthird] at hcontent
    exact hcontent
  · intro j hj
    have hread := (hreads (cs.take 1) ⟨1, 2, fun _ _ => 0⟩ (cs.drop 2) rfl rfl rfl 0 (by decide)
      (hstale _) j hj).1
    rw [hbefore] at hread
    exact hread

/-! ## The block counter -/

theorem touched_call (w : BusWorld Sample) (c : IOCall Sample) (rate : BusRate) (channel : ℕ) :
    ((w.call c).bus rate).touched channel = w.mBufCounter ∨
      ((w.call c).bus rate).touched channel = (w.bus rate).touched channel := by
  rw [bus_call]
  split_ifs
  · split
    · exact Bus.touched_forChannels Bus.touched_mixChannel _ _ channel
    · exact Bus.touched_forChannels Bus.touched_replaceChannel _ _ channel
    · exact .inr rfl
  · exact .inr rfl

theorem touched_calls (cs : List (IOCall Sample)) (w : BusWorld Sample) (rate : BusRate)
    (channel : ℕ) :
    (w.calls cs).mBufCounter = w.mBufCounter ∧
    (((w.calls cs).bus rate).touched channel = w.mBufCounter ∨
      ((w.calls cs).bus rate).touched channel = (w.bus rate).touched channel) := by
  induction cs generalizing w with
  | nil => exact ⟨rfl, .inr rfl⟩
  | cons c cs ih =>
    obtain ⟨hcounter, h⟩ := ih (w.call c)
    rw [mBufCounter_call] at hcounter h
    refine ⟨hcounter, ?_⟩
    rcases h with h | h
    · exact .inl h
    · rcases w.touched_call c rate channel with hcall | hcall
      · exact .inl (h.trans hcall)
      · exact .inr (h.trans hcall)

/-- After `n` blocks the counter is `n`, and every stamp is of one of these blocks or `-1`. -/
def Counted (w : BusWorld Sample) (n : ℕ) : Prop :=
  w.mBufCounter = BitVec.ofNat 32 n ∧
    ∀ rate channel, ∃ m ≤ n, (w.bus rate).touched channel + 1 = BitVec.ofNat 32 m

theorem counted_blocks (bs : List (List (IOCall Sample))) {w : BusWorld Sample} {n : ℕ}
    (h : w.Counted n) : (w.blocks bs).Counted (n + bs.length) := by
  induction bs generalizing w n with
  | nil => exact h
  | cons cs bs ih =>
    have hnext : Counted { w.calls cs with mBufCounter := w.mBufCounter + 1 } (n + 1) := by
      constructor
      · show w.mBufCounter + 1 = _
        rw [h.1, BitVec.ofNat_add]
        rfl
      · intro rate channel
        show ∃ m ≤ n + 1, ((w.calls cs).bus rate).touched channel + 1 = BitVec.ofNat 32 m
        rcases (touched_calls cs w rate channel).2 with hnow | hold
        · refine ⟨n + 1, le_refl _, ?_⟩
          rw [hnow, h.1, BitVec.ofNat_add]
          rfl
        · obtain ⟨m, hm, heq⟩ := h.2 rate channel
          rw [hold]
          exact ⟨m, by omega, heq⟩
    have hrun := ih hnext
    rw [List.length_cons, show n + (bs.length + 1) = n + 1 + bs.length by omega]
    exact hrun

/-- Every block starts with stale channels, until the counter has gone round. -/
theorem stale_blocks (w : BusWorld Sample) (bs : List (List (IOCall Sample)))
    (hbs : bs.length + 1 < 2 ^ 32) (rate : BusRate) (channel : ℕ) :
    (w.start.blocks bs).Stale rate channel := by
  have hstart : w.start.Counted 0 := by
    refine ⟨rfl, fun rate channel => ⟨0, le_refl 0, ?_⟩⟩
    have htouched : (w.start.bus rate).touched channel = -1 := by cases rate <;> rfl
    rw [htouched]
    decide
  have hcounted := counted_blocks bs hstart
  rw [Nat.zero_add] at hcounted
  obtain ⟨hcounter, htouched⟩ := hcounted
  obtain ⟨m, hm, heq⟩ := htouched rate channel
  intro hnow
  rw [hnow, hcounter, show (1 : BitVec 32) = BitVec.ofNat 32 1 from rfl, ← BitVec.ofNat_add] at heq
  have hnat := congrArg BitVec.toNat heq
  rw [BitVec.toNat_ofNat, BitVec.toNat_ofNat] at hnat
  omega

end BusWorld

end PoopWorms.Server
