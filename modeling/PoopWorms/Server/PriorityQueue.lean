import PoopWorms.Lib.BinaryHeap

/-!
# `PriorityQueueT`

The scheduler's queue: a binary heap in an array of `N` events, ordered by `mTime`. When the
queue is empty, the first place of the array holds the sentinel time `kMaxInt64`.
-/

namespace PoopWorms.Server

open BinaryHeap

def kMaxInt64 : ℤ := 9223372036854775807

/-- `SC_ScheduledEvent`: its time, and what is to be performed. -/
@[ext]
structure ScheduledEvent (Packet : Type) where
  mTime : ℤ
  mPacket : Packet
deriving DecidableEq

structure PriorityQueue (Packet : Type) (N : ℕ) where
  mSize : ℕ
  mEvents : ℕ → ScheduledEvent Packet

namespace PriorityQueue

variable {Packet : Type} {N : ℕ}

/-- `SetEmptyTime`. -/
def setEmptyTime (q : PriorityQueue Packet N) : PriorityQueue Packet N :=
  { q with mEvents := Function.update q.mEvents 0 { q.mEvents 0 with mTime := kMaxInt64 } }

/-- `Empty`. -/
def empty (q : PriorityQueue Packet N) : PriorityQueue Packet N := { q with mSize := 0 }.setEmptyTime

/-- The constructor, on memory that holds anything. -/
def new (events : ℕ → ScheduledEvent Packet) : PriorityQueue Packet N :=
  empty ⟨0, events⟩

def nextTime (q : PriorityQueue Packet N) : ℤ := (q.mEvents 0).mTime

def ready (q : PriorityQueue Packet N) (inTime : ℤ) : Bool := q.nextTime ≤ inTime

/-- Percolate up the heap, from the free place `me` on, which bounds the turns. -/
def percolateUp (inEvent : ScheduledEvent Packet) :
    ℕ → (ℕ → ScheduledEvent Packet) → ℕ → ℕ → ScheduledEvent Packet
  | 0, mEvents, me => Function.update mEvents me inEvent
  | fuel + 1, mEvents, me =>
    if 0 < me then
      let mom := (me - 1) >>> 1
      if inEvent.mTime < (mEvents mom).mTime then
        percolateUp inEvent fuel (Function.update mEvents me (mEvents mom)) mom
      else Function.update mEvents me inEvent
    else Function.update mEvents me inEvent

/-- `Add`, with its result. -/
def add (q : PriorityQueue Packet N) (inEvent : ScheduledEvent Packet) :
    PriorityQueue Packet N × Bool :=
  if N ≤ q.mSize then (q, false)
  else (⟨q.mSize + 1, percolateUp inEvent q.mSize q.mEvents q.mSize⟩, true)

/-- The child of a place that the demotion looks at: the first, `me`, unless the second is
earlier. -/
def earlierChild (mSize : ℕ) (mEvents : ℕ → ScheduledEvent Packet) (me : ℕ) : ℕ :=
  if me + 1 < mSize ∧ (mEvents me).mTime > (mEvents (me + 1)).mTime then me + 1 else me

/-- Demote the heap, from the free place `mom` with the first child `me` on. -/
def demote (temp : ScheduledEvent Packet) (mSize : ℕ) :
    ℕ → (ℕ → ScheduledEvent Packet) → ℕ → ℕ → ℕ → ScheduledEvent Packet
  | 0, mEvents, mom, _ => Function.update mEvents mom temp
  | fuel + 1, mEvents, mom, me =>
    if me < mSize then
      let me := earlierChild mSize mEvents me
      if temp.mTime > (mEvents me).mTime then
        demote temp mSize fuel (Function.update mEvents mom (mEvents me)) me ((me <<< 1) + 1)
      else Function.update mEvents mom temp
    else Function.update mEvents mom temp

/-- `Remove`. On an empty queue it would read in front of the array, and has no result. -/
def remove (q : PriorityQueue Packet N) : Option (ScheduledEvent Packet × PriorityQueue Packet N) :=
  match q.mSize with
  | 0 => none
  | 1 => some (q.mEvents 0, { q with mSize := 0 }.setEmptyTime)
  | mSize + 1 =>
    some (q.mEvents 0, ⟨mSize, demote (q.mEvents mSize) mSize mSize q.mEvents 0 1⟩)

/-! ## The loops and the heap order -/

variable {r : ScheduledEvent Packet → ScheduledEvent Packet → Prop}
  {a : ℕ → ScheduledEvent Packet} {e temp : ScheduledEvent Packet} {n h me fuel : ℕ}

theorem parent_eq (me : ℕ) : (me - 1) >>> 1 = parent me := Nat.shiftRight_one ..

/-- An order that refines the one of the times is restored, when the new event may stand
below all that are not later. -/
theorem percolateUp_ordered (htrans : ∀ x y z, r x y → r y z → r x z)
    (hlt : ∀ x : ScheduledEvent Packet, e.mTime < x.mTime → r e x)
    (hle : ∀ i < n, i ≠ h → ¬ e.mTime < (a i).mTime → r (a i) e) (hready : UpReady r a n h e)
    (hfuel : h ≤ fuel) (hh : h < n) : Ordered r (percolateUp e fuel a h) n := by
  induction fuel generalizing a h with
  | zero => exact hready.fill (by omega)
  | succ fuel ih =>
    rw [percolateUp]
    split_ifs with hpos
    · rw [parent_eq]
      have hparent := parent_lt hpos
      by_cases hearly : e.mTime < (a (parent h)).mTime
      · rw [if_pos hearly]
        have hr := hlt _ hearly
        apply ih
        · intro i hi hip hlate
          by_cases hih : i = h
          · rw [hih, Function.update_self] at hlate
            exact absurd hearly hlate
          · rw [Function.update_of_ne hih] at hlate ⊢
            exact hle i hi hih hlate
        · exact hready.move htrans hpos hh hr
        · omega
        · omega
      · rw [if_neg hearly]
        apply hready.fill
        intro _
        exact hle _ (by omega) (by omega) hearly
    · apply hready.fill
      intro hpos'
      exact absurd hpos' hpos

theorem percolateUp_contents (hfuel : h ≤ fuel) (hh : h < n) :
    contents (percolateUp e fuel a h) n = contents (Function.update a h e) n := by
  induction fuel generalizing a h with
  | zero => rfl
  | succ fuel ih =>
    rw [percolateUp]
    split_ifs with hpos
    · rw [parent_eq]
      have hparent := parent_lt hpos
      by_cases hearly : e.mTime < (a (parent h)).mTime
      · rw [if_pos hearly, ih (by omega) (by omega)]
        exact contents_move hh (by omega) e
      · rw [if_neg hearly]
    · rfl

/-- The demotion puts no event above one that `r` wants above it. -/
def DemotesWell (r : ScheduledEvent Packet → ScheduledEvent Packet → Prop)
    (temp : ScheduledEvent Packet) (mSize : ℕ) :
    ℕ → (ℕ → ScheduledEvent Packet) → ℕ → ℕ → Prop
  | 0, _, _, _ => True
  | fuel + 1, mEvents, mom, me =>
    me < mSize →
      let child := earlierChild mSize mEvents me
      if temp.mTime > (mEvents child).mTime then
        (∀ i ∈ [me, me + 1], i < mSize → i ≠ child → r (mEvents child) (mEvents i)) ∧
          DemotesWell r temp mSize fuel (Function.update mEvents mom (mEvents child)) child
            ((child <<< 1) + 1)
      else ∀ i ∈ [me, me + 1], i < mSize → r temp (mEvents i)

instance decidableDemotesWell [DecidableRel r] : ∀ fuel mEvents mom me,
    Decidable (DemotesWell r temp n fuel mEvents mom me)
  | 0, _, _, _ => isTrue trivial
  | fuel + 1, mEvents, mom, me =>
    have := decidableDemotesWell fuel
    inferInstanceAs (Decidable (me < n →
      if temp.mTime > (mEvents (earlierChild n mEvents me)).mTime then
        (∀ i ∈ [me, me + 1], i < n → i ≠ earlierChild n mEvents me →
          r (mEvents (earlierChild n mEvents me)) (mEvents i)) ∧
        DemotesWell r temp n fuel
          (Function.update mEvents mom (mEvents (earlierChild n mEvents me)))
          (earlierChild n mEvents me) ((earlierChild n mEvents me <<< 1) + 1)
      else ∀ i ∈ [me, me + 1], i < n → r temp (mEvents i)))

theorem earlierChild_mem (a : ℕ → ScheduledEvent Packet) (hme : me < n) :
    earlierChild n a me ∈ [me, me + 1] ∧ earlierChild n a me < n := by
  unfold earlierChild
  split_ifs with hsecond
  · exact ⟨by simp, hsecond.1⟩
  · exact ⟨by simp, hme⟩

theorem demote_ordered (hlt : ∀ x : ScheduledEvent Packet, x.mTime < temp.mTime → r x temp)
    (hwell : DemotesWell r temp n fuel a h (2 * h + 1)) (hready : DownReady r a n h temp)
    (hfuel : n ≤ h + fuel) (hh : h < n) :
    Ordered r (demote temp n fuel a h (2 * h + 1)) n := by
  induction fuel generalizing a h with
  | zero => omega
  | succ fuel ih =>
    rw [demote]
    rw [DemotesWell] at hwell
    split_ifs with hme
    · have hwell' := hwell hme
      obtain ⟨hmem, hc⟩ := earlierChild_mem a hme
      have hcpos : 0 < earlierChild n a (2 * h + 1) := by
        simp at hmem
        omega
      have hparent : parent (earlierChild n a (2 * h + 1)) = h := by
        rw [parent_eq_iff hcpos]
        simpa using hmem
      have hchild : ∀ i, 0 < i → parent i = h → i ∈ [2 * h + 1, 2 * h + 1 + 1] := by
        intro i hpos hi
        rw [parent_eq_iff hpos] at hi
        simpa using hi
      have hplace := parent_lt hcpos
      by_cases hlate : temp.mTime > (a (earlierChild n a (2 * h + 1))).mTime
      · simp only [if_pos hlate] at hwell' ⊢
        have hshift : (earlierChild n a (2 * h + 1) <<< 1) + 1 =
            2 * earlierChild n a (2 * h + 1) + 1 := by
          rw [Nat.shiftLeft_eq]
          omega
        rw [hshift] at hwell' ⊢
        apply ih hwell'.2
        · apply hready.move hcpos hc hparent
          · intro i hpos hi hp hic
            exact hwell'.1 i (hchild i hpos hp) hi hic
          · exact hlt _ hlate
        · omega
        · exact hc
      · simp only [if_neg hlate] at hwell' ⊢
        apply hready.fill
        intro i hpos hi hp
        exact hwell' i (hchild i hpos hp) hi
    · -- the hole has no child
      apply hready.fill
      intro i hpos hi hp
      rw [parent_eq_iff hpos] at hp
      omega

theorem demote_contents (hme : h < me) (hfuel : n ≤ h + fuel) (hh : h < n) :
    contents (demote temp n fuel a h me) n = contents (Function.update a h temp) n := by
  induction fuel generalizing a h me with
  | zero => omega
  | succ fuel ih =>
    rw [demote]
    split_ifs with hlt
    · obtain ⟨hmem, hc⟩ := earlierChild_mem a hlt
      have hle : me ≤ earlierChild n a me := by
        simp at hmem
        omega
      by_cases hlate : temp.mTime > (a (earlierChild n a me)).mTime
      · simp only [if_pos hlate]
        rw [ih (by rw [Nat.shiftLeft_eq]; omega) (by omega) hc]
        exact contents_move hh hc temp
      · simp only [if_neg hlate]
    · rfl

/-- By time alone, every demotion is right. -/
theorem demotesWell_time : DemotesWell (fun x y => x.mTime ≤ y.mTime) temp n fuel a h me := by
  induction fuel generalizing a h me with
  | zero => trivial
  | succ fuel ih =>
    rw [DemotesWell]
    intro hme
    have hsibling : ∀ i ∈ [me, me + 1], i < n → (a (earlierChild n a me)).mTime ≤ (a i).mTime := by
      intro i hi hin
      unfold earlierChild
      simp only [List.mem_cons, List.not_mem_nil, or_false] at hi
      rcases hi with rfl | rfl
      · split_ifs with hsecond
        · omega
        · omega
      · split_ifs with hsecond
        · omega
        · omega
    by_cases hlate : temp.mTime > (a (earlierChild n a me)).mTime
    · simp only [if_pos hlate]
      exact ⟨fun i hi hin _ => hsibling i hi hin, ih⟩
    · simp only [if_neg hlate]
      intro i hi hin
      have hle := hsibling i hi hin
      omega

/-! ## Adding and removing, for any order that refines the one of the times -/

variable {q q' : PriorityQueue Packet N} {x : ScheduledEvent Packet}

theorem add_room (hroom : q.mSize < N) (e : ScheduledEvent Packet) :
    q.add e = (⟨q.mSize + 1, percolateUp e q.mSize q.mEvents q.mSize⟩, true) := by
  unfold add
  rw [if_neg (by omega)]

theorem add_full (hfull : N ≤ q.mSize) (e : ScheduledEvent Packet) : q.add e = (q, false) :=
  if_pos hfull

theorem add_ordered (htrans : ∀ x y z, r x y → r y z → r x z)
    (hlt : ∀ x : ScheduledEvent Packet, e.mTime < x.mTime → r e x)
    (hle : ∀ x ∈ contents q.mEvents q.mSize, ¬ e.mTime < x.mTime → r x e)
    (ho : Ordered r q.mEvents q.mSize) : Ordered r (q.add e).1.mEvents (q.add e).1.mSize := by
  by_cases hroom : q.mSize < N
  · rw [add_room hroom]
    apply percolateUp_ordered htrans hlt _ ho.upReady (le_refl _) (Nat.lt_succ_self _)
    intro i hi hin hlate
    exact hle _ (mem_contents.mpr ⟨i, by omega, rfl⟩) hlate
  · rw [add_full (by omega)]
    exact ho

theorem add_contents (hroom : q.mSize < N) :
    contents (q.add e).1.mEvents (q.add e).1.mSize = e ::ₘ contents q.mEvents q.mSize := by
  rw [add_room hroom]
  show contents (percolateUp e q.mSize q.mEvents q.mSize) (q.mSize + 1) = _
  rw [percolateUp_contents (le_refl _) (Nat.lt_succ_self _), contents_append]

/-- A removal takes out the first event. -/
theorem remove_contents (hremove : q.remove = some (x, q')) :
    x = q.mEvents 0 ∧ contents q.mEvents q.mSize = x ::ₘ contents q'.mEvents q'.mSize ∧
      q.mSize = q'.mSize + 1 := by
  unfold remove at hremove
  split at hremove
  · cases hremove
  · rename_i hsize
    cases hremove
    rw [hsize]
    exact ⟨rfl, rfl, rfl⟩
  · rename_i n hn hsize
    have hpos : 0 < n := by
      rcases Nat.eq_zero_or_pos n with rfl | hpos
      · exact absurd rfl hn
      · exact hpos
    cases hremove
    refine ⟨rfl, ?_, hsize⟩
    rw [hsize, demote_contents (by omega) (by omega) hpos, contents_root hpos]

theorem remove_ordered (hlt : ∀ x y : ScheduledEvent Packet, x.mTime < y.mTime → r x y)
    (hwell : DemotesWell r (q.mEvents (q.mSize - 1)) (q.mSize - 1) (q.mSize - 1) q.mEvents 0 1)
    (ho : Ordered r q.mEvents q.mSize) (hremove : q.remove = some (x, q')) :
    Ordered r q'.mEvents q'.mSize := by
  unfold remove at hremove
  split at hremove
  · cases hremove
  · cases hremove
    intro i _ hi
    exact absurd hi (Nat.not_lt_zero i)
  · rename_i n hn hsize
    have hpos : 0 < n := by
      rcases Nat.eq_zero_or_pos n with rfl | hpos
      · exact absurd rfl hn
      · exact hpos
    cases hremove
    rw [hsize] at ho hwell
    exact demote_ordered (h := 0) (fun x => hlt x _) hwell ho.downReady (by omega) hpos

/-- The first event is before all others. -/
theorem remove_first (htrans : ∀ x y z, r x y → r y z → r x z) (ho : Ordered r q.mEvents q.mSize)
    (hremove : q.remove = some (x, q')) : ∀ y ∈ contents q'.mEvents q'.mSize, r x y := by
  obtain ⟨rfl, hcontents, hsize⟩ := remove_contents hremove
  rw [hsize] at ho hcontents
  exact ho.root_contents htrans hcontents

theorem remove_eq_none : q.remove = none ↔ q.mSize = 0 := by
  unfold remove
  split <;> simp_all

end PriorityQueue

end PoopWorms.Server
