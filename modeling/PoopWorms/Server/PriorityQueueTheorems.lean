import PoopWorms.Server.PriorityQueue

/-!
# The scheduler's queue over whole runs

Any sequence of operations, with what each returned. `stored` computes from the answers
alone what the queue should hold; the invariant `Holds` says that it does hold that, in heap
order.
-/

namespace PoopWorms.Server

open BinaryHeap

inductive QueueOp (Packet : Type)
  | add (inEvent : ScheduledEvent Packet)
  | remove
  | nextTime
  | ready (inTime : ℤ)
  | empty

inductive QueueReply (Packet : Type)
  | added (accepted : Bool)
  | removed (event : ScheduledEvent Packet)
  | time (time : ℤ)
  | isReady (ready : Bool)
  | emptied

namespace PriorityQueue

variable {Packet : Type} {N : ℕ}

def perform (q : PriorityQueue Packet N) :
    QueueOp Packet → Option (PriorityQueue Packet N × QueueReply Packet)
  | .add inEvent => some ((q.add inEvent).1, .added (q.add inEvent).2)
  | .remove => q.remove.map fun (event, q) => (q, .removed event)
  | .nextTime => some (q, .time q.nextTime)
  | .ready inTime => some (q, .isReady (q.ready inTime))
  | .empty => some (q.empty, .emptied)

/-- Operations one after the other, each with its answer. -/
def performAll : PriorityQueue Packet N → List (QueueOp Packet) →
    Option (PriorityQueue Packet N × List (QueueOp Packet × QueueReply Packet))
  | q, [] => some (q, [])
  | q, op :: ops => do
    let (q, reply) ← q.perform op
    let (q, answers) ← q.performAll ops
    return (q, (op, reply) :: answers)

section Stored

variable [DecidableEq Packet]

/-- What an answer says about the events that are stored. -/
def afterAnswer (m : Multiset (ScheduledEvent Packet)) :
    QueueOp Packet × QueueReply Packet → Multiset (ScheduledEvent Packet)
  | (.add inEvent, .added true) => inEvent ::ₘ m
  | (_, .removed event) => m.erase event
  | (_, .emptied) => 0
  | _ => m

/-- The adds that were accepted since the last `Empty`, without the removals. -/
def stored (answers : List (QueueOp Packet × QueueReply Packet)) :
    Multiset (ScheduledEvent Packet) := answers.foldl afterAnswer 0

end Stored

/-- The answer is the right one for a queue of capacity `N` that stores `m`. -/
def Answers (N : ℕ) (m : Multiset (ScheduledEvent Packet)) :
    QueueOp Packet → QueueReply Packet → Prop
  | .add _, .added accepted => accepted = true ↔ m.card < N
  | .remove, .removed event => event ∈ m ∧ ∀ x ∈ m, event.mTime ≤ x.mTime
  | .nextTime, .time time => (m = 0 → time = kMaxInt64) ∧
      (m ≠ 0 → (∃ x ∈ m, x.mTime = time) ∧ ∀ x ∈ m, time ≤ x.mTime)
  | .ready inTime, .isReady ready => ready = true ↔ ∃ x ∈ m, x.mTime ≤ inTime
  | .empty, .emptied => True
  | _, _ => False

/-- Times are below the sentinel. -/
def InRange : QueueOp Packet → Prop
  | .add inEvent => inEvent.mTime < kMaxInt64
  | .ready inTime => inTime < kMaxInt64
  | _ => True

/-- The array holds the events of `m`, in heap order. -/
structure Stores (q : PriorityQueue Packet N) (m : Multiset (ScheduledEvent Packet)) : Prop where
  contents : contents q.mEvents q.mSize = m
  ordered : Ordered (fun x y => x.mTime ≤ y.mTime) q.mEvents q.mSize
  bound : q.mSize ≤ N
  sentinel : q.mSize = 0 → q.nextTime = kMaxInt64

/-- The queue stores `m`, in heap order. -/
structure Holds (q : PriorityQueue Packet N) (m : Multiset (ScheduledEvent Packet)) : Prop where
  contents : contents q.mEvents q.mSize = m
  ordered : Ordered (fun x y => x.mTime ≤ y.mTime) q.mEvents q.mSize
  bound : q.mSize ≤ N
  times : ∀ x ∈ m, x.mTime < kMaxInt64
  sentinel : q.mSize = 0 → q.nextTime = kMaxInt64

variable {q q' : PriorityQueue Packet N} {m : Multiset (ScheduledEvent Packet)}
  {op : QueueOp Packet} {reply : QueueReply Packet} {e : ScheduledEvent Packet}

theorem stores_empty (q : PriorityQueue Packet N) : q.empty.Stores 0 where
  contents := rfl
  ordered i _ hi := absurd hi (Nat.not_lt_zero i)
  bound := Nat.zero_le N
  sentinel _ := by
    show (Function.update q.mEvents 0 { q.mEvents 0 with mTime := kMaxInt64 } 0).mTime = _
    rw [Function.update_self]

theorem time_trans (x y z : ScheduledEvent Packet) (hxy : x.mTime ≤ y.mTime)
    (hyz : y.mTime ≤ z.mTime) : x.mTime ≤ z.mTime := le_trans hxy hyz

namespace Stores

variable (h : q.Stores m)

include h

theorem card : m.card = q.mSize := by
  rw [← h.contents, card_contents]

theorem add (hroom : q.mSize < N) : (q.add e).1.Stores (e ::ₘ m) where
  contents := by rw [add_contents hroom, h.contents]
  ordered := by
    apply add_ordered time_trans _ _ h.ordered
    · exact fun x => le_of_lt
    · exact fun x _ hlate => not_lt.mp hlate
  bound := by
    rw [add_room hroom]
    exact hroom
  sentinel hzero := by
    rw [add_room hroom] at hzero
    exact absurd hzero (Nat.succ_ne_zero _)

/-- A removal takes an event of least time. -/
theorem remove (hremove : q.remove = some (e, q')) :
    ∃ m', m = e ::ₘ m' ∧ q'.Stores m' ∧ ∀ x ∈ m, e.mTime ≤ x.mTime := by
  obtain ⟨-, hcontents, hsize⟩ := remove_contents hremove
  have hordered := remove_ordered (fun x y => le_of_lt) demotesWell_time h.ordered hremove
  have hfirst := remove_first time_trans h.ordered hremove
  have hbound := h.bound
  rw [h.contents] at hcontents
  refine ⟨_, hcontents, ⟨rfl, hordered, by omega, ?_⟩, ?_⟩
  · intro hzero
    -- the last event is gone, and the sentinel is put in its place
    have hone : q.mSize = 1 := by omega
    unfold PriorityQueue.remove at hremove
    rw [hone] at hremove
    cases hremove
    exact (stores_empty q).sentinel rfl
  · intro x hx
    rw [hcontents] at hx
    rcases Multiset.mem_cons.mp hx with rfl | hx
    · exact le_refl _
    · exact hfirst x hx

theorem exists_remove (hm : m ≠ 0) : ∃ q', q.remove = some (q.mEvents 0, q') := by
  have hcard := h.card
  have hpos := Multiset.card_pos.mpr hm
  cases hremove : q.remove with
  | none =>
    rw [remove_eq_none] at hremove
    omega
  | some result =>
    obtain ⟨e, q'⟩ := result
    have hhead : e = q.mEvents 0 := (remove_contents hremove).1
    exact ⟨q', by rw [← hhead]⟩

/-- The first event has the least time. -/
theorem nextTime (hm : m ≠ 0) :
    (∃ x ∈ m, x.mTime = q.nextTime) ∧ ∀ x ∈ m, q.nextTime ≤ x.mTime := by
  obtain ⟨q', hremove⟩ := h.exists_remove hm
  obtain ⟨m', hcons, -, hleast⟩ := h.remove hremove
  exact ⟨⟨_, by rw [hcons]; exact Multiset.mem_cons_self .., rfl⟩, hleast⟩

omit h

/-- The last answer says what is stored then. -/
theorem perform [DecidableEq Packet] (h : q.Stores m) (hperform : q.perform op = some (q', reply)) :
    q'.Stores (afterAnswer m (op, reply)) := by
  cases op with
  | add e =>
    cases hperform
    by_cases hroom : q.mSize < N
    · have hadd := h.add (e := e) hroom
      rw [add_room hroom] at hadd ⊢
      exact hadd
    · rw [add_full (by omega)]
      exact h
  | remove =>
    obtain ⟨result, hremove, heq⟩ := Option.map_eq_some_iff.mp hperform
    cases heq
    obtain ⟨m', rfl, hstores, -⟩ := h.remove hremove
    rw [afterAnswer, Multiset.erase_cons_head]
    exact hstores
  | nextTime =>
    cases hperform
    exact h
  | ready inTime =>
    cases hperform
    exact h
  | empty =>
    cases hperform
    exact stores_empty q

/-- A whole run. -/
theorem performAll [DecidableEq Packet] {answers : List (QueueOp Packet × QueueReply Packet)}
    (ops : List (QueueOp Packet)) (h : q.Stores m) (hrun : q.performAll ops = some (q', answers)) :
    q'.Stores (answers.foldl afterAnswer m) ∧ answers.map Prod.fst = ops := by
  induction ops generalizing q m answers with
  | nil =>
    cases hrun
    exact ⟨h, rfl⟩
  | cons op ops ih =>
    rw [PriorityQueue.performAll] at hrun
    simp only [Option.bind_eq_bind, Option.bind_eq_some_iff] at hrun
    obtain ⟨⟨q₁, reply⟩, hperform, ⟨q₂, rest⟩, hrest, heq⟩ := hrun
    cases heq
    obtain ⟨hstores, hops⟩ := ih (h.perform hperform) hrest
    exact ⟨hstores, by rw [List.map_cons, hops]⟩

end Stores

theorem Holds.stores (h : q.Holds m) : q.Stores m := ⟨h.contents, h.ordered, h.bound, h.sentinel⟩

theorem Stores.holds (h : q.Stores m) (htimes : ∀ x ∈ m, x.mTime < kMaxInt64) : q.Holds m :=
  ⟨h.contents, h.ordered, h.bound, htimes, h.sentinel⟩

theorem holds_empty (q : PriorityQueue Packet N) : q.empty.Holds 0 :=
  (stores_empty q).holds fun x hx => absurd hx (Multiset.notMem_zero x)

namespace Holds

variable (h : q.Holds m)

include h

theorem card : m.card = q.mSize := h.stores.card

theorem add (he : e.mTime < kMaxInt64) (hroom : q.mSize < N) : (q.add e).1.Holds (e ::ₘ m) := by
  apply (h.stores.add hroom).holds
  intro x hx
  rcases Multiset.mem_cons.mp hx with rfl | hx
  · exact he
  · exact h.times x hx

theorem remove [DecidableEq Packet] (hremove : q.remove = some (e, q')) :
    q'.Holds (m.erase e) ∧ e ∈ m ∧ ∀ x ∈ m, e.mTime ≤ x.mTime := by
  obtain ⟨m', rfl, hstores, hleast⟩ := h.stores.remove hremove
  rw [Multiset.erase_cons_head]
  refine ⟨hstores.holds ?_, Multiset.mem_cons_self .., hleast⟩
  exact fun x hx => h.times x (Multiset.mem_cons_of_mem hx)

/-- The first event has the least time. -/
theorem nextTime (hm : m ≠ 0) :
    (∃ x ∈ m, x.mTime = q.nextTime) ∧ ∀ x ∈ m, q.nextTime ≤ x.mTime := h.stores.nextTime hm

/-- What one operation does, and that it has a result unless it removes from an empty queue. -/
theorem perform [DecidableEq Packet] (hop : InRange op) (hremove : op = .remove → m ≠ 0) :
    ∃ q' reply, q.perform op = some (q', reply) ∧ q'.Holds (afterAnswer m (op, reply)) ∧
      Answers N m op reply := by
  have hcard := h.card
  cases op with
  | add e =>
    by_cases hfull : N ≤ q.mSize
    · have hadd := add_full hfull e
      refine ⟨q, .added false, by simp only [PriorityQueue.perform, hadd], h, ?_⟩
      show false = true ↔ m.card < N
      simp only [Bool.false_eq_true, false_iff]
      omega
    · have hroom : q.mSize < N := by omega
      refine ⟨(q.add e).1, .added true, by simp only [PriorityQueue.perform, add_room hroom],
        h.add hop hroom, ?_⟩
      show true = true ↔ m.card < N
      simp only [true_iff]
      omega
  | remove =>
    have hpos := Multiset.card_pos.mpr (hremove rfl)
    cases hq' : q.remove with
    | none =>
      rw [remove_eq_none] at hq'
      omega
    | some result =>
      obtain ⟨hholds, hanswer⟩ := h.remove (show q.remove = some (result.1, result.2) from hq')
      exact ⟨result.2, .removed result.1,
        by simp only [PriorityQueue.perform, hq', Option.map_some], hholds, hanswer⟩
  | nextTime =>
    refine ⟨q, .time q.nextTime, rfl, h, ?_, ?_⟩
    · rintro rfl
      exact h.sentinel hcard.symm
    · exact h.nextTime
  | ready inTime =>
    refine ⟨q, .isReady (q.ready inTime), rfl, h, ?_⟩
    show decide (q.nextTime ≤ inTime) = true ↔ _
    rw [decide_eq_true_iff]
    constructor
    · intro hle
      by_cases hm : m = 0
      · -- the sentinel is never due
        have hnext := h.sentinel (by rw [← hcard, hm]; rfl)
        rw [hnext] at hle
        exact absurd hle (not_le.mpr hop)
      · obtain ⟨x, hx, htime⟩ := (h.nextTime hm).1
        exact ⟨x, hx, htime ▸ hle⟩
    · intro hdue
      obtain ⟨x, hx, hle⟩ := hdue
      have hm : m ≠ 0 := by
        rintro rfl
        exact Multiset.notMem_zero x hx
      exact le_trans ((h.nextTime hm).2 x hx) hle
  | empty => exact ⟨q.empty, .emptied, rfl, holds_empty q, trivial⟩

omit h in
/-- A whole run. -/
theorem performAll [DecidableEq Packet] {answers : List (QueueOp Packet × QueueReply Packet)}
    (ops : List (QueueOp Packet)) (h : q.Holds m) (hops : ∀ op ∈ ops, InRange op)
    (hrun : q.performAll ops = some (q', answers)) :
    q'.Holds (answers.foldl afterAnswer m) ∧ ∀ pre op reply post,
      answers = pre ++ (op, reply) :: post → Answers N (pre.foldl afterAnswer m) op reply := by
  induction ops generalizing q m answers with
  | nil =>
    cases hrun
    exact ⟨h, fun pre op reply post hcut => absurd hcut (by simp)⟩
  | cons op ops ih =>
    have hremove : op = .remove → m ≠ 0 := by
      rintro rfl rfl
      -- nothing can be removed from an empty queue
      have hsize := h.card
      rw [Multiset.card_zero] at hsize
      simp [PriorityQueue.performAll, PriorityQueue.perform, PriorityQueue.remove, ← hsize] at hrun
    obtain ⟨q₁, reply, hperform, h₁, hanswer⟩ := h.perform (hops op List.mem_cons_self) hremove
    rw [PriorityQueue.performAll, hperform] at hrun
    simp only [Option.bind_eq_bind, Option.bind_some, Option.bind_eq_some_iff] at hrun
    obtain ⟨⟨q₂, rest⟩, hrest, heq⟩ := hrun
    cases heq
    obtain ⟨hholds, hanswers⟩ := ih h₁ (fun x hx => hops x (List.mem_cons_of_mem _ hx)) hrest
    refine ⟨hholds, fun pre op' reply' post hcut => ?_⟩
    cases pre with
    | nil =>
      cases hcut
      exact hanswer
    | cons first pre =>
      cases hcut
      exact hanswers pre op' reply' post rfl

end Holds

/-- Over every run: the heap order, what is stored, and every answer. -/
theorem performAll_correct [DecidableEq Packet] (events : ℕ → ScheduledEvent Packet)
    (ops : List (QueueOp Packet)) (hops : ∀ op ∈ ops, InRange op)
    {answers : List (QueueOp Packet × QueueReply Packet)}
    (hrun : (new events : PriorityQueue Packet N).performAll ops = some (q, answers)) :
    (∀ i, 0 < i → i < q.mSize → (q.mEvents ((i - 1) / 2)).mTime ≤ (q.mEvents i).mTime) ∧
    contents q.mEvents q.mSize = stored answers ∧
    (∀ pre op reply post, answers = pre ++ (op, reply) :: post → Answers N (stored pre) op reply) ∧
    (∀ e, N ≤ q.mSize → q.add e = (q, false)) ∧
    (q.remove = none ↔ stored answers = 0) := by
  obtain ⟨hholds, hanswers⟩ := (holds_empty ⟨0, events⟩).performAll ops hops hrun
  refine ⟨hholds.ordered, hholds.contents, hanswers, fun e hfull => add_full hfull e, ?_⟩
  have hsize := hholds.card
  change (stored answers).card = q.mSize at hsize
  rw [remove_eq_none, ← hsize, Multiset.card_eq_zero]

theorem performAll_correct_overfull :
    (∀ op ∈ [QueueOp.add ⟨5, 0⟩, .add ⟨3, 1⟩, .add ⟨5, 2⟩, .add ⟨9, 3⟩, .ready 4, .remove, .nextTime],
      InRange op) ∧
    ∃ q answers, (new (fun _ => ⟨0, 0⟩) : PriorityQueue ℕ 3).performAll
        [.add ⟨5, 0⟩, .add ⟨3, 1⟩, .add ⟨5, 2⟩, .add ⟨9, 3⟩, .ready 4, .remove, .nextTime] =
          some (q, answers) ∧
      (∀ i, 0 < i → i < q.mSize → (q.mEvents ((i - 1) / 2)).mTime ≤ (q.mEvents i).mTime) ∧
      contents q.mEvents q.mSize = stored answers ∧ stored answers = {⟨5, 0⟩, ⟨5, 2⟩} := by
  have hops : ∀ op ∈ ([.add ⟨5, 0⟩, .add ⟨3, 1⟩, .add ⟨5, 2⟩, .add ⟨9, 3⟩, .ready 4, .remove,
      .nextTime] : List (QueueOp ℕ)), InRange op := by
    simp [InRange, kMaxInt64]
  obtain ⟨h₁, h₂, -⟩ := performAll_correct (N := 3) (fun _ => ⟨0, 0⟩) _ hops rfl
  exact ⟨hops, _, _, rfl, h₁, h₂, by decide⟩

end PriorityQueue

end PoopWorms.Server
