import PoopWorms.Lib.Loops
import PoopWorms.Server.PriorityQueueTheorems

/-!
# `Perform` and `Flush`

`Perform` removes and performs events while the first one is due. What an empty queue reports
is the sentinel, which is later than every limit but `kMaxInt64`, the limit of `Flush`.
-/

namespace PoopWorms.Server.PriorityQueue

open BinaryHeap Loops

variable {Packet : Type} {N : ℕ}

/-- A turn of the loop of `Perform`, after the events `performed`. The call of `event.Perform`
leaves the queue as it is. -/
def performTurn (inTime : ℤ) :
    PriorityQueue Packet N × List (ScheduledEvent Packet) →
      Option (Turn (PriorityQueue Packet N × List (ScheduledEvent Packet))
        (PriorityQueue Packet N × List (ScheduledEvent Packet)))
  | (q, performed) =>
    if q.nextTime ≤ inTime then
      q.remove.map fun (event, q) => .again (q, performed ++ [event])
    else some (.stop (q, performed))

/-- `Perform` comes to an end, after it has performed these events. -/
def Performs (q : PriorityQueue Packet N) (inTime : ℤ) (performed : List (ScheduledEvent Packet))
    (q' : PriorityQueue Packet N) : Prop :=
  Ends (performTurn inTime) (q, []) (q', performed)

/-- `Flush`. -/
def Flushes (q : PriorityQueue Packet N) (performed : List (ScheduledEvent Packet))
    (q' : PriorityQueue Packet N) : Prop :=
  q.Performs kMaxInt64 performed q'

/-- `Perform` comes to an end on a queue that stores `m`, has performed the events that are
not later than the limit, each once, and has left the others. -/
def PerformsDue (q : PriorityQueue Packet N) (inTime : ℤ) (m : Multiset (ScheduledEvent Packet)) :
    Prop :=
  ∃ performed q', q.Performs inTime performed q' ∧
    (performed : Multiset (ScheduledEvent Packet)) = m.filter (·.mTime ≤ inTime) ∧
    contents q'.mEvents q'.mSize = m.filter (¬ ·.mTime ≤ inTime)

/-- Times are values of an `int64`. -/
def TimeFits : QueueOp Packet → Prop
  | .add inEvent => inEvent.mTime ≤ kMaxInt64
  | _ => True

variable {q q' : PriorityQueue Packet N} {m : Multiset (ScheduledEvent Packet)} {inTime : ℤ}
  {e : ScheduledEvent Packet} {performed : List (ScheduledEvent Packet)}

theorem performTurn_due (hdue : q.nextTime ≤ inTime) (hremove : q.remove = some (e, q')) :
    performTurn inTime (q, performed) = some (.again (q', performed ++ [e])) := by
  rw [performTurn, if_pos hdue, hremove]
  rfl

theorem performTurn_late (hlate : ¬ q.nextTime ≤ inTime) :
    performTurn inTime (q, performed) = some (.stop (q, performed)) :=
  if_neg hlate

/-- Where the time that the queue reports is not due, nothing that it stores is. -/
theorem Stores.filter_of_late (h : q.Stores m) (hlate : ¬ q.nextTime ≤ inTime) :
    m.filter (·.mTime ≤ inTime) = 0 ∧ m.filter (¬ ·.mTime ≤ inTime) = m := by
  have hall : ∀ x ∈ m, ¬ x.mTime ≤ inTime := by
    intro x hx hle
    have hm : m ≠ 0 := fun hzero => Multiset.notMem_zero x (hzero ▸ hx)
    exact hlate (le_trans ((h.nextTime hm).2 x hx) hle)
  exact ⟨Multiset.filter_eq_nil.mpr hall, Multiset.filter_eq_self.mpr hall⟩

/-- Below the sentinel, each turn takes one of the events that are due, until none is. -/
theorem Stores.ends (h : q.Stores m) (performed : List (ScheduledEvent Packet))
    (hlimit : inTime < kMaxInt64) :
    ∃ due q', Ends (performTurn inTime) (q, performed) (q', performed ++ due) ∧
      (due : Multiset (ScheduledEvent Packet)) = m.filter (·.mTime ≤ inTime) ∧
      q'.Stores (m.filter (¬ ·.mTime ≤ inTime)) := by
  induction hcard : m.card generalizing q m performed with
  | zero =>
    have hsize : q.mSize = 0 := by rw [← h.card, hcard]
    have hlate : ¬ q.nextTime ≤ inTime := by
      rw [h.sentinel hsize]
      omega
    have hfilter := h.filter_of_late hlate
    exact ⟨[], q, by rw [List.append_nil]; exact .stop (performTurn_late hlate), hfilter.1.symm,
      hfilter.2.symm ▸ h⟩
  | succ n ih =>
    by_cases hdue : q.nextTime ≤ inTime
    · have hm : m ≠ 0 := fun hzero => by simp [hzero] at hcard
      obtain ⟨q₁, hremove⟩ := h.exists_remove hm
      obtain ⟨m', rfl, h₁, -⟩ := h.remove hremove
      have hcard' : m'.card = n := by simpa using hcard
      obtain ⟨due, q', hends, hperformed, hstores⟩ :=
        ih h₁ (performed ++ [q.mEvents 0]) hcard'
      have hfirst : (q.mEvents 0).mTime ≤ inTime := hdue
      refine ⟨q.mEvents 0 :: due, q', .again (performTurn_due hdue hremove) ?_, ?_, ?_⟩
      · rw [List.append_cons performed _ due]
        exact hends
      · rw [Multiset.filter_cons_of_pos, ← hperformed, Multiset.cons_coe]
        exact hfirst
      · rw [Multiset.filter_cons_of_neg]
        · exact hstores
        · exact not_not_intro hfirst
    · have hfilter := h.filter_of_late hdue
      exact ⟨[], q, by rw [List.append_nil]; exact .stop (performTurn_late hdue),
        hfilter.1.symm, hfilter.2.symm ▸ h⟩

/-- With the limit of `Flush` the loop never stops: the sentinel of the empty queue is due too. -/
theorem Stores.not_ends (h : q.Stores m) (htimes : ∀ x ∈ m, x.mTime ≤ kMaxInt64)
    (t : PriorityQueue Packet N × List (ScheduledEvent Packet)) :
    ¬ Ends (performTurn kMaxInt64) (q, performed) t := by
  intro hends
  generalize hs : (q, performed) = s at hends
  induction hends generalizing q m performed with
  | stop hturn =>
    subst hs
    have hdue : q.nextTime ≤ kMaxInt64 := by
      by_cases hm : m = 0
      · have hsize : q.mSize = 0 := by rw [← h.card, hm, Multiset.card_zero]
        exact le_of_eq (h.sentinel hsize)
      · obtain ⟨x, hx, htime⟩ := (h.nextTime hm).1
        exact htime ▸ htimes x hx
    rw [performTurn, if_pos hdue, Option.map_eq_some_iff] at hturn
    obtain ⟨_, -, hagain⟩ := hturn
    cases hagain
  | again hturn _ ih =>
    subst hs
    rw [performTurn] at hturn
    split_ifs at hturn with hdue
    · obtain ⟨⟨e, q₁⟩, hremove, heq⟩ := Option.map_eq_some_iff.mp hturn
      cases heq
      obtain ⟨m', rfl, h₁, -⟩ := h.remove hremove
      exact ih h₁ (fun x hx => htimes x (Multiset.mem_cons_of_mem hx)) rfl
    · cases hturn

/-- What is stored was added. -/
theorem mem_stored [DecidableEq Packet] {answers : List (QueueOp Packet × QueueReply Packet)}
    (he : e ∈ answers.foldl afterAnswer m) : e ∈ m ∨ .add e ∈ answers.map Prod.fst := by
  induction answers generalizing m with
  | nil => exact .inl he
  | cons answer answers ih =>
    rcases ih he with hafter | hlater
    · unfold afterAnswer at hafter
      split at hafter
      · rcases Multiset.mem_cons.mp hafter with rfl | hm
        · exact .inr List.mem_cons_self
        · exact .inl hm
      · exact .inl (Multiset.mem_of_mem_erase hafter)
      · exact absurd hafter (Multiset.notMem_zero e)
      · exact .inl hafter
    · exact .inr (List.mem_cons_of_mem _ hlater)

theorem Stores.performs_iff (h : q.Stores m) (htimes : ∀ x ∈ m, x.mTime ≤ kMaxInt64)
    (hlimit : inTime ≤ kMaxInt64) : q.PerformsDue inTime m ↔ inTime < kMaxInt64 := by
  constructor
  · intro hperforms
    obtain ⟨performed, q', hends, -⟩ := hperforms
    by_contra hmax
    have heq : inTime = kMaxInt64 := by omega
    rw [heq] at hends
    exact h.not_ends htimes _ hends
  · intro hlt
    obtain ⟨due, q', hends, hdue, hstores⟩ := h.ends [] hlt
    exact ⟨due, q', hends, hdue, hstores.contents⟩

/-- After any operations, `Perform` does what it is for if and only if the limit is not the
greatest time. -/
theorem performsDue_iff [DecidableEq Packet] (events : ℕ → ScheduledEvent Packet)
    (ops : List (QueueOp Packet)) (hops : ∀ op ∈ ops, TimeFits op) (hlimit : inTime ≤ kMaxInt64)
    {answers : List (QueueOp Packet × QueueReply Packet)}
    (hrun : (new events : PriorityQueue Packet N).performAll ops = some (q, answers)) :
    q.PerformsDue inTime (stored answers) ↔ inTime < kMaxInt64 := by
  obtain ⟨hstores, hfst⟩ := Stores.performAll ops (stores_empty ⟨0, events⟩) hrun
  apply hstores.performs_iff _ hlimit
  intro x hx
  have hadded : .add x ∈ ops := by
    rw [← hfst]
    exact (mem_stored hx).resolve_left (Multiset.notMem_zero x)
  exact hops _ hadded

/-- Four events, the last at the greatest time, are added to an empty queue. -/
def fourAdds : List (QueueOp ℕ) := [.add ⟨5, 0⟩, .add ⟨3, 1⟩, .add ⟨5, 2⟩, .add ⟨kMaxInt64, 3⟩]

theorem performsDue_iff_fourAdds :
    ∃ q answers, (new (fun _ => ⟨0, 0⟩) : PriorityQueue ℕ 4).performAll fourAdds =
        some (q, answers) ∧
      stored answers = {⟨5, 0⟩, ⟨3, 1⟩, ⟨5, 2⟩, ⟨kMaxInt64, 3⟩} ∧
      q.PerformsDue 5 (stored answers) ∧ ¬ q.PerformsDue kMaxInt64 (stored answers) := by
  have hops : ∀ op ∈ fourAdds, TimeFits op := by simp [fourAdds, TimeFits, kMaxInt64]
  refine ⟨_, _, rfl, by decide, ?_, ?_⟩
  · exact (performsDue_iff (fun _ => ⟨0, 0⟩) fourAdds hops (by decide) rfl).mpr (by decide)
  · intro hperforms
    exact absurd ((performsDue_iff (fun _ => ⟨0, 0⟩) fourAdds hops (le_refl _) rfl).mp hperforms)
      (lt_irrefl _)

/-- `Flush` never comes to an end, here on a queue with one event. -/
theorem not_flushes_oneAdd :
    ∃ q answers, (new (fun _ => ⟨0, 0⟩) : PriorityQueue ℕ 2).performAll [.add ⟨5, 0⟩] =
        some (q, answers) ∧ stored answers = {⟨5, 0⟩} ∧
      (∀ performed q', ¬ q.Flushes performed q') ∧
      ¬ q.PerformsDue kMaxInt64 (stored answers) := by
  have hstores := (Stores.performAll [.add ⟨5, 0⟩] (stores_empty ⟨0, fun _ => ⟨0, 0⟩⟩) rfl :
    (_ : PriorityQueue ℕ 2).Stores _ ∧ _).1
  have htimes : ∀ x ∈ ({⟨5, 0⟩} : Multiset (ScheduledEvent ℕ)), x.mTime ≤ kMaxInt64 := by decide
  refine ⟨_, _, rfl, rfl, fun performed q' => hstores.not_ends htimes _, fun hperforms => ?_⟩
  exact absurd ((hstores.performs_iff htimes (le_refl _)).mp hperforms) (lt_irrefl _)

end PoopWorms.Server.PriorityQueue
