import PoopWorms.Server.MsgFifo
import PoopWorms.Server.PriorityQueue

/-!
# The way of a bundle

A bundle that the server receives goes through the fifo `mOscPacketsToEngine` to the audio
thread, which performs it at once or puts it into the scheduler's queue, from which the loop
of the audio callback takes it when its time has come. A bundle stands for its time tag and
its number in the order of receipt.
-/

namespace PoopWorms.Server

open BinaryHeap

abbrev Bundle := ScheduledEvent ℕ

/-- The two queues of `SC_AudioDriver`, the number of bundles that have been received, and
those that have been performed, first to last. -/
structure Scheduler (k N : ℕ) where
  mOscPacketsToEngine : MsgFifo Bundle (2 ^ k)
  mScheduler : PriorityQueue ℕ N
  received : ℕ
  performed : List Bundle

inductive SchedulerStep
  /-- `SendOscPacketMsgToEngine` -/
  | receive (time : ℤ)
  /-- one turn of `mOscPacketsToEngine.Perform()` -/
  | performOSCPacket
  /-- one turn of the scheduler loop -/
  | schedule (nextTime : ℤ)
  /-- `ClearSched` -/
  | clearSched

namespace Scheduler

variable {k N : ℕ}

def new (items : ℕ → Bundle) (events : ℕ → Bundle) : Scheduler k N where
  mOscPacketsToEngine := .new items
  mScheduler := .new events
  received := 0
  performed := []

/-- `PerformOSCPacket`, for a bundle. -/
def performOSCPacket (s : Scheduler k N) (bundle : Bundle) : Scheduler k N :=
  if bundle.mTime = 0 ∨ bundle.mTime = 1 then { s with performed := s.performed ++ [bundle] }
  else { s with mScheduler := (s.mScheduler.add bundle).1 }

def step (s : Scheduler k N) : SchedulerStep → Option (Scheduler k N)
  | .receive time =>
    let fifo := MsgFifo.free (2 ^ k) s.mOscPacketsToEngine
    match fifo.write ⟨time, s.received⟩ with
    | some fifo => some { s with mOscPacketsToEngine := fifo, received := s.received + 1 }
    | none => some { s with mOscPacketsToEngine := fifo, received := s.received + 1 }
  | .performOSCPacket =>
    match s.mOscPacketsToEngine.next with
    | some bundle => some
        { s.performOSCPacket bundle with mOscPacketsToEngine := s.mOscPacketsToEngine.advance }
    | none => some s
  | .schedule nextTime =>
    if s.mScheduler.nextTime ≤ nextTime then do
      let (event, queue) ← s.mScheduler.remove
      return { s with mScheduler := queue, performed := s.performed ++ [event] }
    else some s
  | .clearSched => some { s with mScheduler := s.mScheduler.empty }

def steps : Scheduler k N → List SchedulerStep → Option (Scheduler k N)
  | s, [] => some s
  | s, step :: rest => do
    let s ← s.step step
    s.steps rest

/-- Of two bundles with one time tag, the one that was received first is performed first. -/
def InOrder (performed : List Bundle) : Prop :=
  performed.Pairwise fun x y => x.mTime = y.mTime → x.mPacket < y.mPacket

instance (performed : List Bundle) : Decidable (InOrder performed) :=
  inferInstanceAs (Decidable (List.Pairwise _ _))

/-- The order of the time tags, and of receipt for equal time tags. -/
def Before (x y : Bundle) : Prop := x.mTime < y.mTime ∨ x.mTime = y.mTime ∧ x.mPacket < y.mPacket

instance : DecidableRel Before := fun _ _ => inferInstanceAs (Decidable (_ ∨ _))

/-- When the first event is taken out of the queue, the loop that closes the gap decides the
ties that it meets in the order of receipt. -/
def TiesInOrder (q : PriorityQueue ℕ N) : Prop :=
  PriorityQueue.DemotesWell Before (q.mEvents (q.mSize - 1)) (q.mSize - 1) (q.mSize - 1)
    q.mEvents 0 1

/-- The condition on a step. -/
def StepInOrder (s : Scheduler k N) : SchedulerStep → Prop
  | .schedule nextTime => s.mScheduler.nextTime ≤ nextTime → TiesInOrder s.mScheduler
  | _ => True

/-- Every step of the run meets the condition. -/
def Guarded : Scheduler k N → List SchedulerStep → Prop
  | _, [] => True
  | s, step :: rest => s.StepInOrder step ∧ ∀ s' ∈ s.step step, s'.Guarded rest

instance (q : PriorityQueue ℕ N) : Decidable (TiesInOrder q) :=
  inferInstanceAs (Decidable (PriorityQueue.DemotesWell ..))

instance (s : Scheduler k N) : ∀ step, Decidable (s.StepInOrder step)
  | .schedule _ => inferInstanceAs (Decidable (_ → _))
  | .receive _ => isTrue trivial
  | .performOSCPacket => isTrue trivial
  | .clearSched => isTrue trivial

instance decidableGuarded : ∀ (s : Scheduler k N) rest, Decidable (s.Guarded rest)
  | _, [] => isTrue trivial
  | s, step :: rest =>
    have := fun s' : Scheduler k N => decidableGuarded s' rest
    inferInstanceAs (Decidable (s.StepInOrder step ∧ ∀ s' ∈ s.step step, s'.Guarded rest))

/-! ## The invariant -/

/-- The numbers go up from what was performed and what is scheduled to what waits in the fifo,
and the queue is in order of time tag and receipt. -/
structure Sound (s : Scheduler k N) (waiting : List Bundle) : Prop where
  fifo : s.mOscPacketsToEngine.Carries waiting
  later : waiting.Pairwise fun x y => x.mPacket < y.mPacket
  numbered : ∀ x ∈ waiting, x.mPacket < s.received
  scheduled : ∀ x ∈ contents s.mScheduler.mEvents s.mScheduler.mSize,
    x.mPacket < s.received ∧ (∀ y ∈ waiting, x.mPacket < y.mPacket) ∧
      ¬ (x.mTime = 0 ∨ x.mTime = 1)
  done : ∀ x ∈ s.performed, x.mPacket < s.received ∧ (∀ y ∈ waiting, x.mPacket < y.mPacket) ∧
    ∀ y ∈ contents s.mScheduler.mEvents s.mScheduler.mSize, x.mTime = y.mTime → x.mPacket < y.mPacket
  ordered : Ordered Before s.mScheduler.mEvents s.mScheduler.mSize
  inOrder : InOrder s.performed

theorem before_trans (x y z : Bundle) (hxy : Before x y) (hyz : Before y z) : Before x z := by
  unfold Before at *
  omega

variable {s s' : Scheduler k N} {waiting : List Bundle} {x : Bundle}

theorem sound_new (items events : ℕ → Bundle) : (new items events : Scheduler k N).Sound [] where
  fifo := MsgFifo.carries_new items
  later := .nil
  numbered := nofun
  scheduled := nofun
  done := nofun
  ordered i _ hi := absurd hi (Nat.not_lt_zero i)
  inOrder := .nil

/-- The log grows by a bundle that nothing before it should follow. -/
theorem inOrder_append {log : List Bundle} (h : InOrder log)
    (hx : ∀ y ∈ log, y.mTime = x.mTime → y.mPacket < x.mPacket) : InOrder (log ++ [x]) := by
  unfold InOrder
  rw [List.pairwise_append]
  refine ⟨h, List.pairwise_singleton .., ?_⟩
  intro y hy z hz
  rw [List.mem_singleton] at hz
  exact hz ▸ hx y hy

namespace Sound

theorem receive (h : s.Sound waiting) (time : ℤ) :
    ∃ s' waiting', s.step (.receive time) = some s' ∧ s'.Sound waiting' := by
  have hfree := h.fifo.free (2 ^ k)
  cases hwrite : (MsgFifo.free (2 ^ k) s.mOscPacketsToEngine).write ⟨time, s.received⟩ with
  | none =>
    refine ⟨{ s with
      mOscPacketsToEngine := MsgFifo.free (2 ^ k) s.mOscPacketsToEngine
      received := s.received + 1 }, waiting, by simp only [Scheduler.step, hwrite], hfree, h.later, ?_, ?_, ?_, h.ordered, h.inOrder⟩
    · exact fun x hx => Nat.lt_succ_of_lt (h.numbered x hx)
    · exact fun x hx => ⟨Nat.lt_succ_of_lt (h.scheduled x hx).1, (h.scheduled x hx).2⟩
    · exact fun x hx => ⟨Nat.lt_succ_of_lt (h.done x hx).1, (h.done x hx).2⟩
  | some fifo =>
    have hnew : ∀ n : ℕ, n < s.received → (∀ y ∈ waiting, n < y.mPacket) →
        ∀ y ∈ waiting ++ [⟨time, s.received⟩], n < y.mPacket := by
      intro n hn hwaiting y hy
      rcases List.mem_append.mp hy with hy | hy
      · exact hwaiting y hy
      · rw [List.mem_singleton.mp hy]
        exact hn
    refine ⟨{ s with mOscPacketsToEngine := fifo, received := s.received + 1 },
      waiting ++ [⟨time, s.received⟩], by simp only [Scheduler.step, hwrite], hfree.write hwrite, ?_,
      ?_, ?_, ?_, h.ordered, h.inOrder⟩
    · rw [List.pairwise_append]
      refine ⟨h.later, List.pairwise_singleton .., fun x hx y hy => ?_⟩
      rw [List.mem_singleton.mp hy]
      exact h.numbered x hx
    · intro x hx
      rcases List.mem_append.mp hx with hx | hx
      · exact Nat.lt_succ_of_lt (h.numbered x hx)
      · rw [List.mem_singleton.mp hx]
        exact Nat.lt_succ_self _
    · intro x hx
      obtain ⟨hreceived, hwaiting, htime⟩ := h.scheduled x hx
      exact ⟨Nat.lt_succ_of_lt hreceived, hnew _ hreceived hwaiting, htime⟩
    · intro x hx
      obtain ⟨hreceived, hwaiting, hscheduled⟩ := h.done x hx
      exact ⟨Nat.lt_succ_of_lt hreceived, hnew _ hreceived hwaiting, hscheduled⟩

/-- A bundle leaves the fifo. -/
theorem performOSCPacket (h : s.Sound waiting) :
    ∃ s' waiting', s.step .performOSCPacket = some s' ∧ s'.Sound waiting' := by
  unfold Scheduler.step
  rw [h.fifo.next_eq]
  cases waiting with
  | nil => exact ⟨s, [], rfl, h⟩
  | cons bundle rest =>
    refine ⟨_, rest, rfl, ?_⟩
    obtain ⟨hfirst, hlater⟩ := List.pairwise_cons.mp h.later
    have hbundle := h.numbered bundle List.mem_cons_self
    have hdrop : ∀ n : ℕ, (∀ y ∈ bundle :: rest, n < y.mPacket) →
        n < bundle.mPacket ∧ ∀ y ∈ rest, n < y.mPacket := fun n hn =>
      ⟨hn bundle List.mem_cons_self, fun y hy => hn y (List.mem_cons_of_mem _ hy)⟩
    have hnumbered : ∀ x ∈ rest, x.mPacket < s.received :=
      fun x hx => h.numbered x (List.mem_cons_of_mem _ hx)
    have hscheduled : ∀ x ∈ contents s.mScheduler.mEvents s.mScheduler.mSize, x.mPacket < s.received ∧
        (∀ y ∈ rest, x.mPacket < y.mPacket) ∧ ¬ (x.mTime = 0 ∨ x.mTime = 1) := fun x hx =>
      ⟨(h.scheduled x hx).1, (hdrop _ (h.scheduled x hx).2.1).2, (h.scheduled x hx).2.2⟩
    unfold Scheduler.performOSCPacket
    by_cases hnow : bundle.mTime = 0 ∨ bundle.mTime = 1
    · rw [if_pos hnow]
      refine ⟨h.fifo.advance, hlater, hnumbered, hscheduled, ?_, h.ordered, ?_⟩
      · intro x hx
        rcases List.mem_append.mp hx with hx | hx
        · obtain ⟨hreceived, hwaiting, hkept⟩ := h.done x hx
          exact ⟨hreceived, (hdrop _ hwaiting).2, hkept⟩
        · obtain rfl := List.mem_singleton.mp hx
          refine ⟨hbundle, hfirst, fun y hy htime => ?_⟩
          -- what is scheduled has another time tag
          rw [htime] at hnow
          exact absurd hnow (h.scheduled y hy).2.2
      · apply inOrder_append h.inOrder
        intro y hy _
        exact (hdrop _ (h.done y hy).2.1).1
    · rw [if_neg hnow]
      by_cases hroom : s.mScheduler.mSize < N
      · have hmem : ∀ x ∈ contents (s.mScheduler.add bundle).1.mEvents
            (s.mScheduler.add bundle).1.mSize,
            x = bundle ∨ x ∈ contents s.mScheduler.mEvents s.mScheduler.mSize := by
          intro x hx
          rw [PriorityQueue.add_contents hroom] at hx
          exact Multiset.mem_cons.mp hx
        refine ⟨h.fifo.advance, hlater, hnumbered, ?_, ?_, ?_, h.inOrder⟩
        · intro x hx
          rcases hmem x hx with rfl | hx
          · exact ⟨hbundle, hfirst, hnow⟩
          · exact hscheduled x hx
        · intro x hx
          obtain ⟨hreceived, hwaiting, hkept⟩ := h.done x hx
          refine ⟨hreceived, (hdrop _ hwaiting).2, fun y hy htime => ?_⟩
          rcases hmem y hy with rfl | hy
          · exact (hdrop _ hwaiting).1
          · exact hkept y hy htime
        · apply PriorityQueue.add_ordered before_trans _ _ h.ordered
          · exact fun x hx => .inl hx
          · intro x hx hlate
            have hnumber := (hdrop _ (h.scheduled x hx).2.1).1
            unfold Before
            omega
      · -- a full queue refuses the bundle
        rw [PriorityQueue.add_full (by omega)]
        refine ⟨h.fifo.advance, hlater, hnumbered, hscheduled, ?_, h.ordered, h.inOrder⟩
        intro x hx
        obtain ⟨hreceived, hwaiting, hkept⟩ := h.done x hx
        exact ⟨hreceived, (hdrop _ hwaiting).2, hkept⟩

theorem schedule (h : s.Sound waiting) {nextTime : ℤ} (hguard : s.StepInOrder (.schedule nextTime))
    (hstep : s.step (.schedule nextTime) = some s') : s'.Sound waiting := by
  unfold Scheduler.step at hstep
  simp only at hstep
  split_ifs at hstep with hdue
  · simp only [Option.bind_eq_bind, Option.bind_eq_some_iff] at hstep
    obtain ⟨⟨event, queue⟩, hremove, heq⟩ := hstep
    cases heq
    obtain ⟨-, hcontents, -⟩ := PriorityQueue.remove_contents hremove
    have hfirst := PriorityQueue.remove_first before_trans h.ordered hremove
    have hmem : ∀ x, x = event ∨ x ∈ contents queue.mEvents queue.mSize →
        x ∈ contents s.mScheduler.mEvents s.mScheduler.mSize := by
      intro x hx
      rw [hcontents]
      exact Multiset.mem_cons.mpr hx
    obtain ⟨hreceived, hwaiting, -⟩ := h.scheduled event (hmem event (.inl rfl))
    refine ⟨h.fifo, h.later, h.numbered, fun x hx => h.scheduled x (hmem x (.inr hx)), ?_, ?_, ?_⟩
    · intro x hx
      rcases List.mem_append.mp hx with hx | hx
      · obtain ⟨hreceived, hwaiting, hkept⟩ := h.done x hx
        exact ⟨hreceived, hwaiting, fun y hy => hkept y (hmem y (.inr hy))⟩
      · obtain rfl := List.mem_singleton.mp hx
        refine ⟨hreceived, hwaiting, fun y hy htime => ?_⟩
        have hbefore := hfirst y hy
        unfold Before at hbefore
        omega
    · exact PriorityQueue.remove_ordered (fun x y hlt => .inl hlt) (hguard hdue) h.ordered hremove
    · apply inOrder_append h.inOrder
      intro y hy
      exact (h.done y hy).2.2 event (hmem event (.inl rfl))
  · cases hstep
    exact h

theorem step (h : s.Sound waiting) {st : SchedulerStep} (hguard : s.StepInOrder st)
    (hstep : s.step st = some s') : ∃ waiting', s'.Sound waiting' := by
  cases st with
  | receive time =>
    obtain ⟨s₁, waiting', hs₁, hsound⟩ := h.receive time
    rw [hs₁] at hstep
    cases hstep
    exact ⟨waiting', hsound⟩
  | performOSCPacket =>
    obtain ⟨s₁, waiting', hs₁, hsound⟩ := h.performOSCPacket
    rw [hs₁] at hstep
    cases hstep
    exact ⟨waiting', hsound⟩
  | schedule nextTime => exact ⟨waiting, h.schedule hguard hstep⟩
  | clearSched =>
    cases hstep
    exact ⟨waiting, h.fifo, h.later, h.numbered, nofun,
      fun x hx => ⟨(h.done x hx).1, (h.done x hx).2.1, nofun⟩,
      fun i _ hi => absurd hi (Nat.not_lt_zero i), h.inOrder⟩

theorem steps (h : s.Sound waiting) (rest : List SchedulerStep) (hguard : s.Guarded rest)
    (hsteps : s.steps rest = some s') : InOrder s'.performed := by
  induction rest generalizing s waiting with
  | nil =>
    cases hsteps
    exact h.inOrder
  | cons st rest ih =>
    obtain ⟨hfirst, hrest⟩ := hguard
    rw [Scheduler.steps] at hsteps
    simp only [Option.bind_eq_bind, Option.bind_eq_some_iff] at hsteps
    obtain ⟨s₁, hstep, hsteps⟩ := hsteps
    obtain ⟨waiting', h₁⟩ := h.step hfirst hstep
    exact ih h₁ (hrest s₁ hstep) hsteps

end Sound

end Scheduler

end PoopWorms.Server
