import Mathlib.Data.Rat.Floor
import Mathlib.Algebra.Order.BigOperators.Group.List
import Mathlib.Algebra.Order.Floor.Ring
import Mathlib.Tactic.Linarith
import Mathlib.Tactic.Ring
import PoopWorms.Lib.Runs

/-!
# The ticker

`EWTicker` turns the time between the callbacks of its timer into ticks. Times are in seconds,
and they are rationals here, as are the rate and the fraction of a tick that is left.
-/

namespace PoopWorms.App

structure EWTicker where
  ticksPerSecond : ℚ
  currentTick : ℚ
  lastTickDate : Option ℚ
  timer : Bool
deriving DecidableEq

namespace EWTicker

/-- `initWithTicksPerSecond:`. -/
def initWithTicksPerSecond (theTicksPerSecond : ℚ) : EWTicker where
  ticksPerSecond := theTicksPerSecond
  currentTick := 0
  lastTickDate := none
  timer := false

/-- `while( currentTick > 1 )`, for so many turns: how many ticks it posts, and what is left. -/
def postTicks : ℕ → ℚ → ℕ × ℚ
  | 0, currentTick => (0, currentTick)
  | turns + 1, currentTick =>
    if currentTick > 1 then
      let (posted, left) := postTicks turns (currentTick - 1)
      (posted + 1, left)
    else (0, currentTick)

/-- `_advance:`, with the number of ticks that it posts. -/
def advanceBy (t : EWTicker) (dt : ℚ) : EWTicker × ℕ :=
  let currentTick := t.currentTick + dt * t.ticksPerSecond
  let (posted, left) := postTicks ⌈currentTick⌉.toNat currentTick
  ({ t with currentTick := left }, posted)

/-- `advance`, which reads the clock twice. -/
def advance (t : EWTicker) (now again : ℚ) : EWTicker × ℕ :=
  let (t, posted) := t.lastTickDate.elim (t, 0) fun lastTickDate => t.advanceBy (now - lastTickDate)
  ({ t with lastTickDate := some again }, posted)

def stop (t : EWTicker) : EWTicker := { t with timer := false }

def start (t : EWTicker) : EWTicker := { t.stop with timer := true }

/-! ## The loop -/

/-- More turns than the loop takes change nothing. -/
theorem postTicks_eq_of_le {c : ℚ} {turns : ℕ} (h : ⌈c⌉.toNat ≤ turns) :
    postTicks turns c = postTicks ⌈c⌉.toNat c := by
  induction turns generalizing c with
  | zero => rw [Nat.le_zero.mp h]
  | succ turns ih =>
    by_cases hc : 1 < c
    · have hceil : ⌈c⌉.toNat = ⌈c - 1⌉.toNat + 1 := by
        have hpos : 1 < ⌈c⌉ := Int.lt_ceil.mpr (by exact_mod_cast hc)
        rw [Int.ceil_sub_one]
        omega
      have hle : ⌈c - 1⌉.toNat ≤ turns := by omega
      rw [hceil, postTicks, postTicks, if_pos hc, if_pos hc, ih hle]
    · rw [postTicks, if_neg hc]
      cases hn : ⌈c⌉.toNat with
      | zero => rfl
      | succ n => rw [postTicks, if_neg hc]

/-- The loop takes whole ticks, as long as more than one is left. -/
structure Posted (c : ℚ) (r : ℕ × ℚ) : Prop where
  sum : r.1 + r.2 = c
  le_one : r.2 ≤ 1
  nonneg : 0 ≤ c → 0 ≤ r.2
  pos : 0 < c → 0 < r.2

theorem posted_postTicks (c : ℚ) : Posted c (postTicks ⌈c⌉.toNat c) := by
  generalize hn : ⌈c⌉.toNat = n
  induction n generalizing c with
  | zero =>
    have hc : ⌈c⌉ ≤ 0 := Int.toNat_eq_zero.mp hn
    have hc' : c ≤ 0 := by
      have := Int.ceil_le.mp hc
      exact_mod_cast this
    exact ⟨by simp [postTicks], by simp only [postTicks]; linarith, id, id⟩
  | succ n ih =>
    by_cases hc : 1 < c
    · have hceil : ⌈c - 1⌉.toNat = n := by
        rw [Int.ceil_sub_one]
        omega
      have h := ih (c - 1) hceil
      have hsum := h.sum
      have hpos := h.pos (by linarith)
      rw [postTicks, if_pos hc]
      refine ⟨?_, h.le_one, fun _ => hpos.le, fun _ => hpos⟩
      push_cast
      linarith
    · rw [postTicks, if_neg hc]
      exact ⟨by simp, not_lt.mp hc, id, id⟩

/-! ## Increments -/

/-- `_advance:` with each of some increments, and how many ticks are posted in all. -/
def advances (t : EWTicker) : List ℚ → EWTicker × ℕ
  | [] => (t, 0)
  | dt :: dts =>
    let (t, posted) := t.advanceBy dt
    let (t, later) := t.advances dts
    (t, posted + later)

variable {t : EWTicker}

@[simp] theorem ticksPerSecond_advanceBy (dt : ℚ) :
    (t.advanceBy dt).1.ticksPerSecond = t.ticksPerSecond := rfl

@[simp] theorem lastTickDate_advanceBy (dt : ℚ) :
    (t.advanceBy dt).1.lastTickDate = t.lastTickDate := rfl

@[simp] theorem timer_advanceBy (dt : ℚ) : (t.advanceBy dt).1.timer = t.timer := rfl

theorem posted_advanceBy (dt : ℚ) : Posted (t.currentTick + dt * t.ticksPerSecond)
    ((t.advanceBy dt).2, (t.advanceBy dt).1.currentTick) :=
  posted_postTicks _

/-- Nothing is lost between the increments, and no more than one tick is left. -/
structure Advanced (t : EWTicker) (total : ℚ) (r : EWTicker × ℕ) : Prop where
  same : r.1 = { t with currentTick := r.1.currentTick }
  sum : r.2 + r.1.currentTick = t.currentTick + total * t.ticksPerSecond
  nonneg : 0 ≤ r.1.currentTick
  le_one : r.1.currentTick ≤ 1
  pos : 0 < t.currentTick + total * t.ticksPerSecond → 0 < r.1.currentTick

theorem advanced_advances (hrate : 0 ≤ t.ticksPerSecond) (hleft : 0 ≤ t.currentTick)
    (hone : t.currentTick ≤ 1) (dts : List ℚ) (hdts : ∀ dt ∈ dts, 0 ≤ dt) :
    Advanced t dts.sum (t.advances dts) := by
  induction dts generalizing t with
  | nil => exact ⟨rfl, by simp [advances], hleft, hone, by simp [advances]⟩
  | cons dt dts ih =>
    have hdt : 0 ≤ dt * t.ticksPerSecond := mul_nonneg (hdts dt List.mem_cons_self) hrate
    have hfirst := t.posted_advanceBy dt
    have hrest : Advanced (t.advanceBy dt).1 dts.sum ((t.advanceBy dt).1.advances dts) :=
      ih hrate (hfirst.nonneg (by linarith)) hfirst.le_one
        fun dt hdt => hdts dt (List.mem_cons_of_mem _ hdt)
    have hsum := hfirst.sum
    have hsum' := hrest.sum
    have htotal : 0 ≤ dts.sum * t.ticksPerSecond :=
      mul_nonneg (List.sum_nonneg fun dt hdt => hdts dt (List.mem_cons_of_mem _ hdt)) hrate
    simp only [ticksPerSecond_advanceBy] at hsum hsum'
    refine ⟨?_, ?_, hrest.nonneg, hrest.le_one, fun hpos => hrest.pos ?_⟩
    · show ((t.advanceBy dt).1.advances dts).1 = _
      rw [hrest.same]
      rfl
    · show (((t.advanceBy dt).2 + ((t.advanceBy dt).1.advances dts).2 : ℕ) : ℚ) +
        ((t.advanceBy dt).1.advances dts).1.currentTick = _
      rw [List.sum_cons]
      push_cast
      linarith
    · rw [List.sum_cons] at hpos
      rw [ticksPerSecond_advanceBy]
      by_cases hfirst' : 0 < t.currentTick + dt * t.ticksPerSecond
      · have := hfirst.pos hfirst'
        linarith
      · have hzero : 0 ≤ t.currentTick + dt * t.ticksPerSecond := by linarith
        have := hfirst.nonneg hzero
        linarith

/-- Whole ticks and a rest of at most one determine each other. -/
theorem posted_unique {n m : ℕ} {x y : ℚ} (h : (n : ℚ) + x = m + y) (hx : x ≤ 1) (hx' : 0 < x)
    (hy : y ≤ 1) (hy' : 0 < y) : n = m := by
  have hlt : (n : ℚ) < m + 1 := by linarith
  have hlt' : (m : ℚ) < n + 1 := by linarith
  have hle : n < m + 1 := by exact_mod_cast hlt
  have hle' : m < n + 1 := by exact_mod_cast hlt'
  omega

/-- Two ways to the same total. -/
theorem Advanced.unique {total : ℚ} {r r' : EWTicker × ℕ} (h : Advanced t total r)
    (h' : Advanced t total r') : r = r' := by
  have hsum := h.sum
  have hsum' := h'.sum
  have hn : r.2 = r'.2 := by
    by_cases hpos : 0 < t.currentTick + total * t.ticksPerSecond
    · exact posted_unique (by linarith) h.le_one (h.pos hpos) h'.le_one (h'.pos hpos)
    · -- no time has passed at all
      have hr := h.nonneg
      have hr' := h'.nonneg
      have hzero : (r.2 : ℚ) ≤ 0 := by linarith
      have hzero' : (r'.2 : ℚ) ≤ 0 := by linarith
      have hle : r.2 ≤ 0 := by exact_mod_cast hzero
      have hle' : r'.2 ≤ 0 := by exact_mod_cast hzero'
      omega
  have hleft : r.1.currentTick = r'.1.currentTick := by
    rw [hn] at hsum
    linarith
  refine Prod.ext ?_ hn
  rw [h.same, h'.same, hleft]

/-- The increments add up to the same ticks as any others with their sum; every whole tick has
been posted, and less than one is left. -/
structure OnTime (rate : ℚ) (dts : List ℚ) : Prop where
  independent : ∀ dts' : List ℚ, (∀ dt ∈ dts', 0 ≤ dt) → dts'.sum = dts.sum →
    (initWithTicksPerSecond rate).advances dts' = (initWithTicksPerSecond rate).advances dts
  posted : ⌊dts.sum * rate⌋ ≤ ((initWithTicksPerSecond rate).advances dts).2
  left : ((initWithTicksPerSecond rate).advances dts).1.currentTick < 1

/-- The time that has passed is a whole number of ticks, and not none. -/
def Whole (ticks : ℚ) : Prop := ∃ n : ℕ, 0 < n ∧ ticks = n

/-- The ticks do not depend on the increments, and they are on time unless the loop stops in front
of a tick that has just become complete. -/
theorem onTime_iff (rate : ℚ) (dts : List ℚ) (hrate : 0 < rate) (hdts : ∀ dt ∈ dts, 0 ≤ dt) :
    OnTime rate dts ↔ ¬ Whole (dts.sum * rate) := by
  have hadv : ∀ dts : List ℚ, (∀ dt ∈ dts, 0 ≤ dt) → Advanced (initWithTicksPerSecond rate) dts.sum
      ((initWithTicksPerSecond rate).advances dts) :=
    fun dts hdts => advanced_advances hrate.le (le_refl 0) zero_le_one dts hdts
  have h := hadv dts hdts
  generalize hr : (initWithTicksPerSecond rate).advances dts = r at h
  have hsum : r.2 + r.1.currentTick = dts.sum * rate := by
    rw [h.sum]
    simp [initWithTicksPerSecond]
  constructor
  · intro hon hwhole
    obtain ⟨n, hn, htotal⟩ := hwhole
    have hleft := hon.left
    rw [hr] at hleft
    -- what is left is a whole number below one
    have hpos : 0 < r.1.currentTick := by
      apply h.pos
      have hn' : (0 : ℚ) < n := by exact_mod_cast hn
      simp only [initWithTicksPerSecond, zero_add]
      rw [htotal]
      exact hn'
    have hlt : (r.2 : ℚ) < n := by linarith
    have hgt : (n : ℚ) < r.2 + 1 := by linarith
    have hlt' : r.2 < n := by exact_mod_cast hlt
    have hgt' : n < r.2 + 1 := by exact_mod_cast hgt
    omega
  · intro hwhole
    have hone : r.1.currentTick < 1 := by
      apply lt_of_le_of_ne h.le_one
      intro heq
      apply hwhole
      refine ⟨r.2 + 1, Nat.succ_pos _, ?_⟩
      push_cast
      linarith
    refine ⟨fun dts' hdts' hsame => ?_, ?_, ?_⟩
    · rw [hr]
      apply Advanced.unique _ h
      rw [← hsame]
      exact hadv dts' hdts'
    · rw [hr]
      have hlt : ⌊dts.sum * rate⌋ < (r.2 : ℤ) + 1 := by
        rw [Int.floor_lt]
        push_cast
        linarith
      omega
    · rw [hr]
      exact hone

/-- A tenth of a second and a twentieth, at eight ticks a second. -/
theorem onTime_iff_of_two : OnTime 8 [1 / 10, 1 / 20] ↔ ¬ Whole (([1 / 10, 1 / 20] : List ℚ).sum * 8) :=
  onTime_iff 8 [1 / 10, 1 / 20] (by norm_num) (by simp)

/-- After exactly one tick's time, none has been posted. -/
theorem not_onTime : ¬ ∀ (rate : ℚ) (dts : List ℚ), 0 < rate → (∀ dt ∈ dts, 0 ≤ dt) →
    OnTime rate dts := by
  intro h
  have hon := (h 8 [1 / 8] (by norm_num) (by simp)).left
  have hleft : ((initWithTicksPerSecond 8).advances [1 / 8]).1.currentTick = 1 := by decide +kernel
  rw [hleft] at hon
  exact lt_irrefl 1 hon

end EWTicker

/-! ## Stopped time -/

/-- What happens to a ticker, with the clock at that time. A callback reads the clock twice. -/
inductive TickerEvent
  | start (now : ℚ)
  | stop (now : ℚ)
  | timer (now again : ℚ)

def TickerEvent.readings : TickerEvent → List ℚ
  | start now | stop now => [now]
  | timer now again => [now, again]

/-- A ticker with its history: how many ticks it has posted, when it was stopped, if it is, the
times from each stop to the next start, and the times that `_advance:` was given. -/
structure TickerRun where
  ticker : EWTicker
  posted : ℕ
  stoppedAt : Option ℚ
  pauses : List (ℚ × ℚ)
  counted : List (ℚ × ℚ)

namespace TickerRun

def init (ticksPerSecond : ℚ) : TickerRun where
  ticker := .initWithTicksPerSecond ticksPerSecond
  posted := 0
  stoppedAt := none
  pauses := []
  counted := []

/-- A timer that has been invalidated does not call back. -/
def step (s : TickerRun) : TickerEvent → TickerRun
  | .start now =>
    { s with
      ticker := s.ticker.start
      stoppedAt := none
      pauses := s.pauses ++ s.stoppedAt.toList.map fun since => (since, now) }
  | .stop now => { s with ticker := s.ticker.stop, stoppedAt := some (s.stoppedAt.getD now) }
  | .timer now again =>
    if s.ticker.timer then
      { s with
        ticker := (s.ticker.advance now again).1
        posted := s.posted + (s.ticker.advance now again).2
        counted := s.counted ++ s.ticker.lastTickDate.toList.map fun last => (last, now) }
    else s

def run (ticksPerSecond : ℚ) (es : List TickerEvent) : TickerRun :=
  Runs.run step (init ticksPerSecond) es

/-- Two stretches of time have more than a moment in common. -/
def Overlap (p c : ℚ × ℚ) : Prop := max p.1 c.1 < min p.2 c.2

instance (p c : ℚ × ℚ) : Decidable (Overlap p c) := inferInstanceAs (Decidable (_ < _))

/-- The ticks account for the time that was counted, and none of it lies between a stop and the
next start. -/
structure CountsRunning (s : TickerRun) : Prop where
  posted : s.posted + s.ticker.currentTick =
    (s.counted.map fun c => c.2 - c.1).sum * s.ticker.ticksPerSecond
  apart : ∀ p ∈ s.pauses, ∀ c ∈ s.counted, ¬ Overlap p c

/-- Since the callback before it, the ticker has not been stopped for a while and started again. -/
def RunsThrough (s : TickerRun) : TickerEvent → Prop
  | .timer now _ => s.ticker.timer = true → ∀ last ∈ s.ticker.lastTickDate.toList,
      ∀ p ∈ s.pauses, ¬ Overlap p (last, now)
  | .start _ | .stop _ => True

instance (s : TickerRun) : ∀ e, Decidable (s.RunsThrough e)
  | .timer _ _ => inferInstanceAs (Decidable (_ → _))
  | .start _ | .stop _ => inferInstanceAs (Decidable True)

/-- What has been counted ends before the ticker was stopped, and before now. -/
structure Timely (s : TickerRun) (now : ℚ) : Prop where
  counted : ∀ c ∈ s.counted, c.2 ≤ now
  since : ∀ since, s.stoppedAt = some since → ∀ c ∈ s.counted, c.2 ≤ since
  stopped : s.stoppedAt.isSome → s.ticker.timer = false

variable {s : TickerRun}

theorem Timely.mono {now later : ℚ} (h : s.Timely now) (hle : now ≤ later) : s.Timely later :=
  ⟨fun c hc => (h.counted c hc).trans hle, h.since, h.stopped⟩

theorem advance_sum (t : EWTicker) (now again : ℚ) :
    (t.advance now again).2 + (t.advance now again).1.currentTick =
      t.currentTick + (t.lastTickDate.toList.map fun last => now - last).sum * t.ticksPerSecond := by
  unfold EWTicker.advance
  cases t.lastTickDate with
  | none => simp
  | some last => simpa using (t.posted_advanceBy (now - last)).sum

theorem ticksPerSecond_advance (t : EWTicker) (now again : ℚ) :
    (t.advance now again).1.ticksPerSecond = t.ticksPerSecond := by
  unfold EWTicker.advance
  cases t.lastTickDate with
  | none => rfl
  | some last => rfl

/-- A callback, while the timer is valid. -/
theorem step_timer (htimer : s.ticker.timer = true) (now again : ℚ) :
    s.step (.timer now again) = { s with
      ticker := (s.ticker.advance now again).1
      posted := s.posted + (s.ticker.advance now again).2
      counted := s.counted ++ s.ticker.lastTickDate.toList.map fun last => (last, now) } :=
  if_pos htimer

/-- A step keeps the account exactly if it runs through. -/
theorem countsRunning_step {e : TickerEvent} {now : ℚ} (ht : s.Timely now)
    (hnow : ∀ r ∈ e.readings, now ≤ r) :
    (s.step e).CountsRunning ↔ s.CountsRunning ∧ s.RunsThrough e := by
  cases e with
  | start now' =>
    -- what has been counted ends before the pause begins
    have hnew : ∀ p ∈ s.stoppedAt.toList.map (fun since => (since, now')),
        ∀ c ∈ s.counted, ¬ Overlap p c := by
      intro p hp c hc hover
      obtain ⟨since, hsince, rfl⟩ := List.mem_map.mp hp
      have hle := ht.since since (Option.mem_toList.mp hsince) c hc
      have hlt : since < c.2 :=
        lt_of_le_of_lt (le_max_left _ _) (lt_of_lt_of_le hover (min_le_right _ _))
      exact absurd hlt (not_lt.mpr hle)
    constructor
    · intro h
      exact ⟨⟨h.posted, fun p hp => h.apart p (List.mem_append_left _ hp)⟩, trivial⟩
    · intro h
      refine ⟨h.1.posted, fun p hp => ?_⟩
      rcases List.mem_append.mp hp with hp | hp
      · exact h.1.apart p hp
      · exact hnew p hp
  | stop now' => exact ⟨fun h => ⟨⟨h.posted, h.apart⟩, trivial⟩, fun h => ⟨h.1.posted, h.1.apart⟩⟩
  | timer now' again =>
    by_cases htimer : s.ticker.timer = true
    · have hposted : s.posted + s.ticker.currentTick =
          (s.counted.map fun c => c.2 - c.1).sum * s.ticker.ticksPerSecond ↔
          ((s.step (.timer now' again)).posted + (s.step (.timer now' again)).ticker.currentTick : ℚ) =
            ((s.step (.timer now' again)).counted.map fun c => c.2 - c.1).sum *
              (s.step (.timer now' again)).ticker.ticksPerSecond := by
        have hsum := advance_sum s.ticker now' again
        rw [step_timer htimer]
        simp only [ticksPerSecond_advance, List.map_append, List.sum_append, List.map_map]
        push_cast
        have hmap : (s.ticker.lastTickDate.toList.map
            ((fun c : ℚ × ℚ => c.2 - c.1) ∘ fun last => (last, now'))).sum =
            (s.ticker.lastTickDate.toList.map fun last => now' - last).sum := rfl
        rw [hmap, add_mul]
        constructor
        · intro h
          linarith
        · intro h
          linarith
      have happart : (∀ p ∈ (s.step (.timer now' again)).pauses,
          ∀ c ∈ (s.step (.timer now' again)).counted, ¬ Overlap p c) ↔
          (∀ p ∈ s.pauses, ∀ c ∈ s.counted, ¬ Overlap p c) ∧ s.RunsThrough (.timer now' again) := by
        rw [step_timer htimer]
        simp only [RunsThrough, htimer, true_imp_iff, List.mem_append, List.mem_map]
        constructor
        · intro h
          refine ⟨fun p hp c hc => h p hp c (.inl hc), fun last hlast p hp => ?_⟩
          exact h p hp (last, now') (.inr ⟨last, hlast, rfl⟩)
        · intro h p hp c hc
          rcases hc with hc | ⟨last, hlast, rfl⟩
          · exact h.1 p hp c hc
          · exact h.2 last hlast p hp
      constructor
      · intro h
        exact ⟨⟨hposted.mpr h.posted, (happart.mp h.apart).1⟩, (happart.mp h.apart).2⟩
      · intro h
        exact ⟨hposted.mp h.1.posted, happart.mpr ⟨h.1.apart, h.2⟩⟩
    · have hsame : s.step (.timer now' again) = s := if_neg htimer
      rw [hsame]
      exact ⟨fun h => ⟨h, fun hon => absurd hon htimer⟩, fun h => h.1⟩

theorem Timely.step {e : TickerEvent} {now : ℚ} (ht : s.Timely now) (hnow : ∀ r ∈ e.readings, now ≤ r)
    {later : ℚ} (hlater : ∀ r ∈ e.readings, r ≤ later) : (s.step e).Timely later := by
  cases e with
  | start now' =>
    have hle : now ≤ later := (hnow now' List.mem_cons_self).trans (hlater now' List.mem_cons_self)
    exact ⟨(ht.mono hle).counted, nofun, nofun⟩
  | stop now' =>
    have hle : now ≤ later := (hnow now' List.mem_cons_self).trans (hlater now' List.mem_cons_self)
    refine ⟨(ht.mono hle).counted, ?_, fun _ => rfl⟩
    intro since hsince c hc
    cases hstopped : s.stoppedAt with
    | none =>
      have hnow' : since = now' := by
        rw [TickerRun.step, hstopped] at hsince
        exact (Option.some.inj hsince).symm
      rw [hnow']
      exact (ht.counted c hc).trans (hnow now' List.mem_cons_self)
    | some since' =>
      have hsame : since = since' := by
        rw [TickerRun.step, hstopped] at hsince
        exact (Option.some.inj hsince).symm
      rw [hsame]
      exact ht.since since' hstopped c hc
  | timer now' again =>
    have hle : now ≤ later := (hnow now' List.mem_cons_self).trans (hlater now' List.mem_cons_self)
    by_cases htimer : s.ticker.timer = true
    · have hnone : s.stoppedAt = none := by
        by_contra hsome
        have hoff := ht.stopped (Option.isSome_iff_ne_none.mpr hsome)
        rw [htimer] at hoff
        exact absurd hoff Bool.true_eq_false_eq_False
      rw [step_timer htimer]
      refine ⟨?_, ?_, ?_⟩
      · intro c hc
        rcases List.mem_append.mp hc with hc | hc
        · exact (ht.counted c hc).trans hle
        · obtain ⟨last, -, rfl⟩ := List.mem_map.mp hc
          exact hlater now' List.mem_cons_self
      · intro since hsince
        rw [hnone] at hsince
        exact absurd hsince (by simp)
      · intro hsome
        rw [hnone] at hsome
        exact absurd hsome Bool.false_ne_true
    · have hsame : s.step (.timer now' again) = s := if_neg htimer
      rw [hsame]
      exact ht.mono hle

/-- The clock never goes back. -/
def Ordered (es : List TickerEvent) : Prop := (es.flatMap TickerEvent.readings).Pairwise (· ≤ ·)

instance (es : List TickerEvent) : Decidable (Ordered es) :=
  inferInstanceAs (Decidable (List.Pairwise _ _))

theorem countsRunning_run (es : List TickerEvent) {now : ℚ} (ht : s.Timely now)
    (hnow : ∀ r ∈ es.flatMap TickerEvent.readings, now ≤ r) (hes : Ordered es) :
    (Runs.run step s es).CountsRunning ↔
      s.CountsRunning ∧ Runs.Guarded step RunsThrough s es := by
  induction es generalizing s now with
  | nil => simp
  | cons e es ih =>
    rw [Ordered, List.flatMap_cons, List.pairwise_append] at hes
    rw [List.flatMap_cons] at hnow
    have hfirst : ∀ r ∈ e.readings, now ≤ r := fun r hr => hnow r (List.mem_append_left _ hr)
    -- the last reading of the first event
    obtain ⟨later, hmem, hlater⟩ : ∃ later ∈ e.readings, ∀ r ∈ e.readings, r ≤ later := by
      cases e with
      | start now' => exact ⟨now', List.mem_cons_self, by simp [TickerEvent.readings]⟩
      | stop now' => exact ⟨now', List.mem_cons_self, by simp [TickerEvent.readings]⟩
      | timer now' again =>
        have hle : now' ≤ again := (List.pairwise_pair.mp hes.1)
        exact ⟨again, by simp [TickerEvent.readings], by simp [TickerEvent.readings, hle]⟩
    have hrest := ih (ht.step hfirst hlater) (fun r hr => hes.2.2 later hmem r hr) hes.2.1
    rw [Runs.run_cons, hrest, countsRunning_step ht hfirst, Runs.guarded_cons, and_assoc]

/-- The ticks leave out all time between a stop and the next start if and only if no callback
finds that the ticker has been stopped for a while since the callback before it. -/
theorem countsRunning_iff (ticksPerSecond : ℚ) (es : List TickerEvent) (hes : Ordered es) :
    (run ticksPerSecond es).CountsRunning ↔
      Runs.Guarded step RunsThrough (init ticksPerSecond) es := by
  have hinit : (init ticksPerSecond).CountsRunning :=
    ⟨by simp [init, EWTicker.initWithTicksPerSecond], nofun⟩
  -- every reading is later than the first
  cases hreadings : es.flatMap TickerEvent.readings with
  | nil =>
    have ht : (init ticksPerSecond).Timely 0 := ⟨nofun, nofun, nofun⟩
    rw [run, countsRunning_run es ht (by simp [hreadings]) hes]
    exact ⟨fun h => h.2, fun h => ⟨hinit, h⟩⟩
  | cons first rest =>
    have ht : (init ticksPerSecond).Timely first := ⟨nofun, nofun, nofun⟩
    have hfirst : ∀ r ∈ es.flatMap TickerEvent.readings, first ≤ r := by
      rw [Ordered, hreadings, List.pairwise_cons] at hes
      intro r hr
      rw [hreadings] at hr
      rcases List.mem_cons.mp hr with rfl | hr
      · exact le_refl r
      · exact hes.1 r hr
    rw [run, countsRunning_run es ht hfirst hes]
    exact ⟨fun h => h.2, fun h => ⟨hinit, h⟩⟩

/-- Stopped and started again in one moment, between two callbacks. -/
theorem countsRunning_iff_of_restart :
    Ordered [.start 0, .timer 1 1, .stop 2, .start 2, .timer 3 3] ∧
    ((run 8 [.start 0, .timer 1 1, .stop 2, .start 2, .timer 3 3]).CountsRunning ↔
      Runs.Guarded step RunsThrough (init 8)
        [.start 0, .timer 1 1, .stop 2, .start 2, .timer 3 3]) := by
  have hordered : Ordered [.start 0, .timer 1 1, .stop 2, .start 2, .timer 3 3] := by
    decide
  exact ⟨hordered, countsRunning_iff 8 _ hordered⟩

/-- Stopped for eight seconds: the next callback counts them. -/
theorem not_countsRunning : ¬ ∀ (ticksPerSecond : ℚ) (es : List TickerEvent), Ordered es →
    (run ticksPerSecond es).CountsRunning := by
  intro h
  have hordered : Ordered [.start 0, .timer 1 1, .stop 2, .start 10, .timer 11 11] := by
    decide
  have hcounts := h 8 _ hordered
  have hpauses : (2, 10) ∈ (run 8 [.start 0, .timer 1 1, .stop 2, .start 10, .timer 11 11]).pauses := by
    decide
  have hcounted : (1, 11) ∈
      (run 8 [.start 0, .timer 1 1, .stop 2, .start 10, .timer 11 11]).counted := by
    decide
  exact hcounts.apart _ hpauses _ hcounted (by decide)

end TickerRun

end PoopWorms.App
