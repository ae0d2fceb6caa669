import PoopWorms.Server.MsgFifo

/-!
# The two parties of a `MsgFifo`

The writer writes and frees, the reader performs. A party publishes a cursor some time after
it has worked on the slot behind it, and the other party may do anything in between. Each
step is one turn of a loop, or half of one.
-/

namespace PoopWorms.Server

/-- What the writer is in the middle of. -/
inductive WriterAt (MsgType : Type)
  | idle
  /-- the message is in its slot, and `mWriteHead` is still to be moved -/
  | storing (data : MsgType)
  /-- `Free` has been called, and `mFreeHead` is still to be moved -/
  | freeing

namespace WriterAt

variable {MsgType : Type}

/-- Whether a message is stored beyond the write head. -/
def stored : WriterAt MsgType → ℕ
  | storing _ => 1
  | _ => 0

/-- Whether a message is freed beyond the free head. -/
def freed : WriterAt MsgType → ℕ
  | freeing => 1
  | _ => 0

end WriterAt

/-- A fifo with its two parties. The reader is `performing` from the call of `Perform` until
`mReadHead` is moved. The logs have the messages that `Write` accepted, and those whose
functions were called, first to last. -/
structure MsgFifoThreads (MsgType : Type) (N : ℕ) where
  fifo : MsgFifo MsgType N
  writer : WriterAt MsgType
  performing : Bool
  accepted : List MsgType
  performed : List MsgType
  freed : List MsgType

inductive FifoStep (MsgType : Type)
  | write (data : MsgType)
  | moveWriteHead
  | free
  | moveFreeHead
  | perform
  | moveReadHead

namespace MsgFifoThreads

variable {MsgType : Type} {N k : ℕ}

def new (items : ℕ → MsgType) : MsgFifoThreads MsgType N where
  fifo := .new items
  writer := .idle
  performing := false
  accepted := []
  performed := []
  freed := []

/-- `Write` returns `false`. -/
def Refuses (s : MsgFifoThreads MsgType N) : Prop :=
  MsgFifo.nextPos N s.fifo.mWriteHead = s.fifo.mFreeHead

instance (s : MsgFifoThreads MsgType N) : Decidable s.Refuses := inferInstanceAs (Decidable (_ = _))

/-- The step of a party, if it is at the right place for it. `after m` is what `Perform` leaves
in the slot of the message `m`. -/
def step (after : MsgType → MsgType) (s : MsgFifoThreads MsgType N) :
    FifoStep MsgType → Option (MsgFifoThreads MsgType N)
  | .write data =>
    match s.writer with
    | .idle =>
      if s.Refuses then some s
      else
        let next := MsgFifo.nextPos N s.fifo.mWriteHead
        some { s with
          fifo := { s.fifo with mItems := Function.update s.fifo.mItems next data }
          writer := .storing data }
    | _ => none
  | .moveWriteHead =>
    match s.writer with
    | .storing data => some { s with
        fifo := { s.fifo with mWriteHead := MsgFifo.nextPos N s.fifo.mWriteHead }
        writer := .idle
        accepted := s.accepted ++ [data] }
    | _ => none
  | .free =>
    match s.writer with
    | .idle =>
      if s.fifo.needsFree then
        some { s with
          writer := .freeing
          freed := s.freed ++ [s.fifo.mItems (MsgFifo.nextPos N s.fifo.mFreeHead)] }
      else some s
    | _ => none
  | .moveFreeHead =>
    match s.writer with
    | .freeing => some { s with
        fifo := { s.fifo with mFreeHead := MsgFifo.nextPos N s.fifo.mFreeHead }
        writer := .idle }
    | _ => none
  | .perform =>
    if s.performing then none
    else if s.fifo.hasData then
      let next := MsgFifo.nextPos N s.fifo.mReadHead
      some { s with
        fifo := { s.fifo with
          mItems := Function.update s.fifo.mItems next (after (s.fifo.mItems next)) }
        performing := true
        performed := s.performed ++ [s.fifo.mItems next] }
    else some s
  | .moveReadHead =>
    if s.performing then
      some { s with
        fifo := { s.fifo with mReadHead := MsgFifo.nextPos N s.fifo.mReadHead }
        performing := false }
    else none

def steps (after : MsgType → MsgType) :
    MsgFifoThreads MsgType N → List (FifoStep MsgType) → Option (MsgFifoThreads MsgType N)
  | s, [] => some s
  | s, st :: rest => do
    let s ← s.step after st
    s.steps after rest

/-! ## The invariant -/

/-- `given` slots have been given back, and `read` have been passed by the reader. -/
structure Sound (after : MsgType → MsgType) (s : MsgFifoThreads MsgType N) (given read : ℕ) :
    Prop where
  freeHead : s.fifo.mFreeHead = given % N
  readHead : s.fifo.mReadHead = read % N
  writeHead : s.fifo.mWriteHead = s.accepted.length % N
  freed : s.freed.length = given + s.writer.freed
  performed : s.performed.length = read + s.performing.toNat
  freedRead : s.freed.length ≤ read
  performedAccepted : s.performed.length ≤ s.accepted.length
  room : s.accepted.length + s.writer.stored < given + N
  freedOrder : s.freed <+: s.performed.map after
  performedOrder : s.performed <+: s.accepted
  stored : ∀ data, s.writer = .storing data →
    s.fifo.mItems ((s.accepted.length + 1) % N) = data
  items : ∀ i, given ≤ i → (hi : i < s.accepted.length) → s.fifo.mItems ((i + 1) % N) =
    if i < s.performed.length then after s.accepted[i] else s.accepted[i]

variable {after : MsgType → MsgType} {s s' : MsgFifoThreads MsgType (2 ^ k)} {given read : ℕ}

theorem sound_new (items : ℕ → MsgType) :
    (new items : MsgFifoThreads MsgType (2 ^ k)).Sound after 0 0 where
  freeHead := (Nat.zero_mod _).symm
  readHead := (Nat.zero_mod _).symm
  writeHead := (Nat.zero_mod _).symm
  freed := rfl
  performed := rfl
  freedRead := le_refl 0
  performedAccepted := le_refl 0
  room := by
    show 0 < 0 + 2 ^ k
    exact lt_of_lt_of_eq (Nat.two_pow_pos k) (Nat.zero_add _).symm
  freedOrder := List.prefix_rfl
  performedOrder := List.prefix_rfl
  stored := nofun
  items := nofun

/-- A prefix may take the next element. -/
theorem prefix_concat {α : Type} {l m : List α} {x : α} (h : l <+: m)
    (hx : m[l.length]? = some x) : l ++ [x] <+: m := by
  obtain ⟨t, rfl⟩ := h
  cases t with
  | nil => simp at hx
  | cons y ys =>
    obtain rfl : y = x := by simpa using hx
    exact ⟨ys, by simp⟩

/-- Slots less than a ring apart are different. -/
theorem slot_ne (first : ℕ) {i j : ℕ} (hi : first ≤ i ∧ i < first + 2 ^ k)
    (hj : first ≤ j ∧ j < first + 2 ^ k) (hij : i ≠ j) : (i + 1) % 2 ^ k ≠ (j + 1) % 2 ^ k := by
  intro heq
  obtain ⟨a, rfl⟩ := Nat.exists_eq_add_of_le hi.1
  obtain ⟨b, rfl⟩ := Nat.exists_eq_add_of_le hj.1
  rw [show first + a + 1 = first + 1 + a by omega, show first + b + 1 = first + 1 + b by omega] at heq
  have hab := MsgFifo.eq_of_mod_eq (by omega) (by omega) heq
  omega

namespace Sound

variable (h : s.Sound after given read)

include h

theorem refuses_iff (hidle : s.writer = .idle) :
    s.Refuses ↔ s.accepted.length = s.freed.length + (2 ^ k - 1) := by
  have hroom := h.room
  have hfreed := h.freed
  have hread := h.freedRead
  have hperformed := h.performed
  have hle := h.performedAccepted
  have hpos := Nat.two_pow_pos k
  rw [hidle] at hroom hfreed
  simp only [WriterAt.stored, WriterAt.freed, Nat.add_zero] at hroom hfreed
  unfold Refuses
  rw [h.writeHead, h.freeHead, MsgFifo.nextPos_mod]
  constructor
  · intro heq
    by_contra hne
    obtain ⟨a, ha⟩ := Nat.exists_eq_add_of_le (show given ≤ s.accepted.length by omega)
    rw [ha, Nat.add_assoc] at heq
    have hzero := MsgFifo.eq_of_mod_eq (a := given) (i := a + 1) (j := 0) (by omega) hpos heq
    omega
  · intro heq
    rw [heq, hfreed, show given + (2 ^ k - 1) + 1 = given + 2 ^ k by omega, Nat.add_mod_right]

theorem hasData_iff : s.fifo.hasData = true ↔ read ≠ s.accepted.length := by
  have hroom := h.room
  have hfreed := h.freed
  have hread := h.freedRead
  have hperformed := h.performed
  have hle := h.performedAccepted
  unfold MsgFifo.hasData
  rw [bne_iff_ne, ne_eq, h.readHead, h.writeHead, not_iff_not]
  constructor
  · intro heq
    obtain ⟨a, ha⟩ := Nat.exists_eq_add_of_le (show read ≤ s.accepted.length by omega)
    rw [ha] at heq ⊢
    have hzero := MsgFifo.eq_of_mod_eq (a := read) (i := 0) (j := a) (Nat.two_pow_pos k) (by omega)
      (by simpa using heq)
    omega
  · rintro rfl
    rfl

theorem needsFree_iff : s.fifo.needsFree = true ↔ given ≠ read := by
  have hroom := h.room
  have hfreed := h.freed
  have hread := h.freedRead
  have hperformed := h.performed
  have hle := h.performedAccepted
  unfold MsgFifo.needsFree
  rw [bne_iff_ne, ne_eq, h.readHead, h.freeHead, not_iff_not]
  constructor
  · intro heq
    obtain ⟨a, rfl⟩ := Nat.exists_eq_add_of_le (show given ≤ read by omega)
    have hzero := MsgFifo.eq_of_mod_eq (a := given) (i := 0) (j := a) (Nat.two_pow_pos k) (by omega)
      (by simpa using heq)
    omega
  · rintro rfl
    rfl

theorem write {data : MsgType} (hstep : s.step after (.write data) = some s') :
    s'.Sound after given read := by
  unfold MsgFifoThreads.step at hstep
  cases hwriter : s.writer with
  | idle =>
    simp only [hwriter] at hstep
    split_ifs at hstep with hfull
    · cases hstep
      exact h
    · cases hstep
      have hroom := h.room
      have hfreed := h.freed
      have hread := h.freedRead
      have hperformed := h.performed
      have hle := h.performedAccepted
      rw [h.refuses_iff hwriter] at hfull
      rw [hwriter] at hroom hfreed
      simp only [WriterAt.stored, WriterAt.freed, Nat.add_zero] at hroom hfreed
      have hnext : MsgFifo.nextPos (2 ^ k) s.fifo.mWriteHead = (s.accepted.length + 1) % 2 ^ k := by
        rw [h.writeHead, MsgFifo.nextPos_mod]
      have hmore : s.accepted.length + 1 < given + 2 ^ k := by omega
      refine ⟨h.freeHead, h.readHead, h.writeHead, hfreed, h.performed, h.freedRead,
        h.performedAccepted, hmore, h.freedOrder, h.performedOrder, ?_, ?_⟩
      · rintro _ ⟨⟩
        show Function.update s.fifo.mItems _ data _ = data
        rw [hnext, Function.update_self]
      · intro i hfree hi
        show Function.update s.fifo.mItems _ data _ = _
        have hi' : i < s.accepted.length := hi
        rw [hnext, Function.update_of_ne (slot_ne given ⟨hfree, by omega⟩ ⟨by omega, hroom⟩ (by omega))]
        exact h.items i hfree hi
  | storing data' => simp [hwriter] at hstep
  | freeing => simp [hwriter] at hstep

theorem moveWriteHead (hstep : s.step after .moveWriteHead = some s') :
    s'.Sound after given read := by
  unfold MsgFifoThreads.step at hstep
  cases hwriter : s.writer with
  | idle => simp [hwriter] at hstep
  | freeing => simp [hwriter] at hstep
  | storing data =>
    simp only [hwriter] at hstep
    cases hstep
    have hroom := h.room
    have hfreed := h.freed
    have hle := h.performedAccepted
    have hslot := h.stored data hwriter
    rw [hwriter] at hroom hfreed
    have hlength : (s.accepted ++ [data]).length = s.accepted.length + 1 := by simp
    refine ⟨h.freeHead, h.readHead, ?_, hfreed, h.performed, h.freedRead, ?_, ?_, h.freedOrder,
      h.performedOrder.trans (List.prefix_append _ _), nofun, ?_⟩
    · show MsgFifo.nextPos _ s.fifo.mWriteHead = _
      rw [h.writeHead, MsgFifo.nextPos_mod, hlength]
    · show s.performed.length ≤ (s.accepted ++ [data]).length
      omega
    · show (s.accepted ++ [data]).length < _
      rw [hlength]
      exact hroom
    · intro i hfree hi
      show s.fifo.mItems _ = if i < s.performed.length then after (s.accepted ++ [data])[i]
        else (s.accepted ++ [data])[i]
      rcases Nat.lt_or_ge i s.accepted.length with hlt | hge
      · rw [List.getElem_append_left hlt]
        exact h.items i hfree hlt
      · -- the message that is accepted now
        obtain rfl : i = s.accepted.length := by
          have hi' : i < (s.accepted ++ [data]).length := hi
          omega
        rw [if_neg (by omega), List.getElem_append_right (Nat.le_refl _)]
        simpa using hslot

theorem free (hstep : s.step after .free = some s') : s'.Sound after given read := by
  unfold MsgFifoThreads.step at hstep
  cases hwriter : s.writer with
  | idle =>
    simp only [hwriter] at hstep
    split_ifs at hstep with hneeds
    · cases hstep
      rw [h.needsFree_iff] at hneeds
      have hroom := h.room
      have hfreed := h.freed
      have hread := h.freedRead
      have hperformed := h.performed
      have hle := h.performedAccepted
      rw [hwriter] at hroom hfreed
      simp only [WriterAt.freed, Nat.add_zero] at hfreed
      have hgiven : given < s.accepted.length := by omega
      have hitem := h.items given (le_refl _) hgiven
      have hlast : s.fifo.mItems (MsgFifo.nextPos (2 ^ k) s.fifo.mFreeHead) =
          after s.accepted[given] := by
        rw [h.freeHead, MsgFifo.nextPos_mod, hitem, if_pos (by omega)]
      have hlength : ∀ m : MsgType, (s.freed ++ [m]).length = given + 1 := by simp [hfreed]
      refine ⟨h.freeHead, h.readHead, h.writeHead, hlength _, h.performed, ?_, hle, hroom, ?_,
        h.performedOrder, nofun, h.items⟩
      · show (s.freed ++ [_]).length ≤ read
        rw [hlength]
        omega
      · show s.freed ++ [s.fifo.mItems _] <+: _
        rw [hlast]
        apply prefix_concat h.freedOrder
        have hdone : given < s.performed.length := by omega
        rw [hfreed, List.getElem?_map, List.getElem?_eq_getElem hdone,
          h.performedOrder.getElem hdone]
        rfl
    · cases hstep
      exact h
  | storing data' => simp [hwriter] at hstep
  | freeing => simp [hwriter] at hstep

theorem moveFreeHead (hstep : s.step after .moveFreeHead = some s') :
    s'.Sound after (given + 1) read := by
  unfold MsgFifoThreads.step at hstep
  cases hwriter : s.writer with
  | idle => simp [hwriter] at hstep
  | storing data' => simp [hwriter] at hstep
  | freeing =>
    simp only [hwriter] at hstep
    cases hstep
    have hroom := h.room
    have hfreed := h.freed
    rw [hwriter] at hroom hfreed
    refine ⟨?_, h.readHead, h.writeHead, hfreed, h.performed, h.freedRead, h.performedAccepted, ?_,
      h.freedOrder, h.performedOrder, nofun, fun i hi => h.items i (by omega)⟩
    · show MsgFifo.nextPos _ s.fifo.mFreeHead = _
      rw [h.freeHead, MsgFifo.nextPos_mod]
    · show s.accepted.length + 0 < given + 1 + 2 ^ k
      change s.accepted.length + 0 < given + 2 ^ k at hroom
      omega

theorem perform (hstep : s.step after .perform = some s') : s'.Sound after given read := by
  unfold MsgFifoThreads.step at hstep
  simp only at hstep
  split_ifs at hstep with hperforming hdata
  · cases hstep
    rw [h.hasData_iff] at hdata
    have hroom := h.room
    have hfreed := h.freed
    have hread := h.freedRead
    have hperformed := h.performed
    have hle := h.performedAccepted
    have hidle : s.performing = false := by simpa using hperforming
    rw [hidle] at hperformed
    simp only [Bool.toNat_false, Nat.add_zero] at hperformed
    have hmore : read < s.accepted.length := by omega
    have hnext : MsgFifo.nextPos (2 ^ k) s.fifo.mReadHead = (read + 1) % 2 ^ k := by
      rw [h.readHead, MsgFifo.nextPos_mod]
    have hitem : s.fifo.mItems ((read + 1) % 2 ^ k) = s.accepted[read] := by
      rw [h.items read (by omega) hmore, if_neg (by omega)]
    have hlength : ∀ m : MsgType, (s.performed ++ [m]).length = read + 1 := by simp [hperformed]
    refine ⟨h.freeHead, h.readHead, h.writeHead, hfreed, hlength _, hread, ?_, hroom, ?_, ?_, ?_, ?_⟩
    · show (s.performed ++ [_]).length ≤ _
      rw [hlength]
      exact hmore
    · show s.freed <+: (s.performed ++ [_]).map after
      rw [List.map_append]
      exact h.freedOrder.trans (List.prefix_append _ _)
    · show s.performed ++ [s.fifo.mItems _] <+: s.accepted
      rw [hnext, hitem]
      apply prefix_concat h.performedOrder
      rw [hperformed]
      exact List.getElem?_eq_getElem hmore
    · intro data hdata
      have hdata' : s.writer = .storing data := hdata
      rw [hdata'] at hroom
      simp only [WriterAt.stored] at hroom
      show Function.update s.fifo.mItems _ _ ((s.accepted.length + 1) % 2 ^ k) = data
      rw [hnext, Function.update_of_ne (slot_ne given (by omega) (by omega) (by omega))]
      exact h.stored data hdata
    · intro i hgiven hi
      have hi' : i < s.accepted.length := hi
      show Function.update s.fifo.mItems _ _ _ = if i < (s.performed ++ [_]).length then _ else _
      rw [hnext, hlength]
      by_cases hread' : i = read
      · subst hread'
        rw [Function.update_self, hitem, if_pos (Nat.lt_succ_self i)]
      · rw [Function.update_of_ne (slot_ne given (by omega) (by omega) hread'),
          h.items i hgiven hi, hperformed]
        simp only [show i < read + 1 ↔ i < read by omega]
  · cases hstep
    exact h

theorem moveReadHead (hstep : s.step after .moveReadHead = some s') :
    s'.Sound after given (read + 1) := by
  unfold MsgFifoThreads.step at hstep
  simp only at hstep
  split_ifs at hstep with hperforming
  cases hstep
  have hperformed := h.performed
  rw [hperforming] at hperformed
  refine ⟨h.freeHead, ?_, h.writeHead, h.freed, hperformed, Nat.le_succ_of_le h.freedRead,
    h.performedAccepted, h.room, h.freedOrder, h.performedOrder, h.stored, h.items⟩
  show MsgFifo.nextPos _ s.fifo.mReadHead = _
  rw [h.readHead, MsgFifo.nextPos_mod]

theorem step {st : FifoStep MsgType} (hstep : s.step after st = some s') :
    ∃ given' read', s'.Sound after given' read' := by
  cases st with
  | write data => exact ⟨given, read, h.write hstep⟩
  | moveWriteHead => exact ⟨given, read, h.moveWriteHead hstep⟩
  | free => exact ⟨given, read, h.free hstep⟩
  | moveFreeHead => exact ⟨given + 1, read, h.moveFreeHead hstep⟩
  | perform => exact ⟨given, read, h.perform hstep⟩
  | moveReadHead => exact ⟨given, read + 1, h.moveReadHead hstep⟩

omit h in
theorem steps (h : s.Sound after given read) (run : List (FifoStep MsgType))
    (hrun : s.steps after run = some s') : ∃ given' read', s'.Sound after given' read' := by
  induction run generalizing s given read with
  | nil =>
    cases hrun
    exact ⟨given, read, h⟩
  | cons st run ih =>
    rw [MsgFifoThreads.steps] at hrun
    simp only [Option.bind_eq_bind, Option.bind_eq_some_iff] at hrun
    obtain ⟨s₁, hstep, hrun⟩ := hrun
    obtain ⟨given', read', h₁⟩ := h.step hstep
    exact ih h₁ hrun

/-- When a message is stored, the one that had its slot before has been freed. -/
theorem reused {data : MsgType} (hdata : s.writer = .storing data) {i : ℕ}
    (hi : i < s.accepted.length) (hslot : (i + 1) % 2 ^ k = (s.accepted.length + 1) % 2 ^ k) :
    i < s.freed.length := by
  have hroom := h.room
  have hfreed := h.freed
  rw [hdata] at hroom hfreed
  simp only [WriterAt.stored, WriterAt.freed] at hroom hfreed
  by_contra hge
  exact slot_ne given (by omega) (by omega) (by omega) hslot

/-- When the reader finds nothing more, everything has been performed. -/
theorem drained (hidle : s.performing = false) (hdata : s.fifo.hasData = false) :
    s.performed = s.accepted := by
  have hperformed := h.performed
  rw [hidle] at hperformed
  have hread : read = s.accepted.length := by
    by_contra hne
    rw [h.hasData_iff.mpr hne] at hdata
    cases hdata
  exact h.performedOrder.eq_of_length (hperformed.trans hread)

/-- When the writer finds nothing to free, all that has been performed has been freed. -/
theorem allFreed (hidle : s.writer = .idle) (hperforming : s.performing = false)
    (hneeds : s.fifo.needsFree = false) : s.freed = s.performed.map after := by
  have hfreed := h.freed
  have hperformed := h.performed
  rw [hidle] at hfreed
  rw [hperforming] at hperformed
  have hread : given = read := by
    by_contra hne
    rw [h.needsFree_iff.mpr hne] at hneeds
    cases hneeds
  apply h.freedOrder.eq_of_length
  rw [List.length_map, hfreed, hperformed, hread]
  rfl

end Sound

end MsgFifoThreads

end PoopWorms.Server
