import Mathlib.Data.Int.ModEq
import Mathlib.Data.Nat.Bitwise
import Mathlib.Logic.Function.Basic
import Mathlib.Tactic.Common

/-!
# `MsgFifo`

The ring that carries messages from one thread to another, for a size `2 ^ k` as its
mask assumes. The writer owns `mWriteHead` and `mFreeHead`, the reader `mReadHead`.
`Carries fifo q` says that `q` is what was written and not yet read.
-/

namespace PoopWorms.Server

structure MsgFifo (MsgType : Type) (N : ℕ) where
  mReadHead : ℕ
  mWriteHead : ℕ
  mFreeHead : ℕ
  mItems : ℕ → MsgType

namespace MsgFifo

variable {MsgType : Type} {N k : ℕ}

def new (items : ℕ → MsgType) : MsgFifo MsgType N where
  mReadHead := 0
  mWriteHead := 0
  mFreeHead := 0
  mItems := items

/-- `NextPos`. -/
def nextPos (N inPos : ℕ) : ℕ := (inPos + 1) &&& (N - 1)

def hasData (fifo : MsgFifo MsgType N) : Bool := fifo.mReadHead != fifo.mWriteHead

def needsFree (fifo : MsgFifo MsgType N) : Bool := fifo.mFreeHead != fifo.mReadHead

/-- `Write`; there is no result when the fifo is full. -/
def write (fifo : MsgFifo MsgType N) (data : MsgType) : Option (MsgFifo MsgType N) :=
  let next := nextPos N fifo.mWriteHead
  if next = fifo.mFreeHead then none
  else some { fifo with
    mItems := Function.update fifo.mItems next data
    mWriteHead := next }

/-- The message that one turn of `Perform` performs. -/
def next (fifo : MsgFifo MsgType N) : Option MsgType :=
  if fifo.hasData then some (fifo.mItems (nextPos N fifo.mReadHead)) else none

/-- The end of one turn of `Perform`. -/
def advance (fifo : MsgFifo MsgType N) : MsgFifo MsgType N :=
  { fifo with mReadHead := nextPos N fifo.mReadHead }

/-- `Free`, for messages without a free function; at most `fuel` turns. -/
def free : ℕ → MsgFifo MsgType N → MsgFifo MsgType N
  | 0, fifo => fifo
  | fuel + 1, fifo =>
    if fifo.needsFree then free fuel { fifo with mFreeHead := nextPos N fifo.mFreeHead }
    else fifo

/-- The messages of `q` lie between the read head and the write head, and behind the read
head are `read` messages that wait to be freed. -/
structure CarriesWith (fifo : MsgFifo MsgType N) (read : ℕ) (q : List MsgType) : Prop where
  bound : fifo.mFreeHead < N
  readHead : fifo.mReadHead = (fifo.mFreeHead + read) % N
  writeHead : fifo.mWriteHead = (fifo.mFreeHead + read + q.length) % N
  room : read + q.length < N
  item : ∀ i, (h : i < q.length) → fifo.mItems ((fifo.mFreeHead + read + 1 + i) % N) = q[i]

/-- `q` is what was written and not yet read. -/
def Carries (fifo : MsgFifo MsgType N) (q : List MsgType) : Prop :=
  ∃ read, fifo.CarriesWith read q

variable {fifo : MsgFifo MsgType (2 ^ k)} {read : ℕ} {q : List MsgType} {m : MsgType}

theorem nextPos_eq (inPos : ℕ) : nextPos (2 ^ k) inPos = (inPos + 1) % 2 ^ k :=
  Nat.and_two_pow_sub_one_eq_mod ..

theorem nextPos_mod (inPos : ℕ) : nextPos (2 ^ k) (inPos % 2 ^ k) = (inPos + 1) % 2 ^ k := by
  rw [nextPos_eq, Nat.mod_add_mod]

/-- Places less than a ring apart are different. -/
theorem eq_of_mod_eq {N a i j : ℕ} (hi : i < N) (hj : j < N)
    (h : (a + i) % N = (a + j) % N) : i = j := by
  have hmod : i % N = j % N := Nat.ModEq.add_left_cancel' a h
  rwa [Nat.mod_eq_of_lt hi, Nat.mod_eq_of_lt hj] at hmod

theorem carries_new (items : ℕ → MsgType) : (new items : MsgFifo MsgType (2 ^ k)).Carries [] :=
  ⟨0, Nat.two_pow_pos k, (Nat.zero_mod _).symm, (Nat.zero_mod _).symm, Nat.two_pow_pos k,
    nofun⟩

namespace CarriesWith

variable (h : fifo.CarriesWith read q)

include h

theorem write (hw : fifo.write m = some fifo') : fifo'.CarriesWith read (q ++ [m]) := by
  unfold MsgFifo.write at hw
  have hnext : nextPos (2 ^ k) fifo.mWriteHead
      = (fifo.mFreeHead + (read + q.length + 1)) % 2 ^ k := by
    rw [h.writeHead, nextPos_mod]
    congr 1
    omega
  simp only [hnext] at hw
  split at hw
  · cases hw
  · rename_i hfree
    cases hw
    have hroom := h.room
    -- the slot after the last message is not the one that waits to be freed
    have hlt : read + q.length + 1 < 2 ^ k := by
      by_contra hge
      have hlen : read + q.length + 1 = 2 ^ k := by omega
      rw [hlen, Nat.add_mod_right, Nat.mod_eq_of_lt h.bound] at hfree
      exact hfree rfl
    refine ⟨h.bound, h.readHead, ?_, ?_, ?_⟩
    · show (fifo.mFreeHead + (read + q.length + 1)) % 2 ^ k
        = (fifo.mFreeHead + read + (q ++ [m]).length) % 2 ^ k
      rw [List.length_append, List.length_singleton]
      congr 1
      omega
    · rw [List.length_append, List.length_singleton]
      omega
    · intro i hi
      rw [List.length_append, List.length_singleton] at hi
      show Function.update fifo.mItems _ m _ = _
      rcases Nat.lt_or_eq_of_le (Nat.le_of_lt_succ hi) with hlt' | rfl
      · have hne : (fifo.mFreeHead + read + 1 + i) % 2 ^ k
            ≠ (fifo.mFreeHead + (read + q.length + 1)) % 2 ^ k := by
          intro heq
          rw [show fifo.mFreeHead + read + 1 + i = fifo.mFreeHead + (read + 1 + i) by omega] at heq
          have := eq_of_mod_eq (by omega) hlt heq
          omega
        rw [Function.update_of_ne hne, List.getElem_append_left hlt']
        exact h.item i hlt'
      · rw [show fifo.mFreeHead + read + 1 + q.length
          = fifo.mFreeHead + (read + q.length + 1) by omega, Function.update_self,
          List.getElem_append_right (Nat.le_refl _)]
        simp

theorem next_eq : fifo.next = q.head? := by
  have hroom := h.room
  unfold MsgFifo.next hasData
  cases q with
  | nil =>
    have heq : fifo.mReadHead = fifo.mWriteHead := by
      rw [h.readHead, h.writeHead, List.length_nil, Nat.add_zero]
    rw [heq]
    simp
  | cons x xs =>
    have hne : fifo.mReadHead ≠ fifo.mWriteHead := by
      rw [h.readHead, h.writeHead, Nat.add_assoc]
      intro heq
      have := eq_of_mod_eq (by omega) hroom heq
      simp at this
    have hitem := h.item 0 (by simp)
    rw [if_pos (by simpa using hne), h.readHead, nextPos_mod]
    simpa using hitem

theorem advance (hq : q = m :: q') : fifo.advance.CarriesWith (read + 1) q' := by
  subst hq
  have hroom := h.room
  rw [List.length_cons] at hroom
  refine ⟨h.bound, ?_, ?_, ?_, ?_⟩
  · show nextPos (2 ^ k) fifo.mReadHead = _
    rw [h.readHead, nextPos_mod, Nat.add_assoc]
    rfl
  · show fifo.mWriteHead = _
    rw [h.writeHead, List.length_cons]
    congr 1
    show _ = fifo.mFreeHead + (read + 1) + _
    omega
  · omega
  · intro i hi
    have hitem := h.item (i + 1) (by simpa using hi)
    rw [List.getElem_cons_succ] at hitem
    rw [← hitem]
    show fifo.mItems ((fifo.mFreeHead + (read + 1) + 1 + i) % 2 ^ k) = _
    congr 2
    omega

omit h in
theorem free (fuel : ℕ) (h : fifo.CarriesWith read q) : (MsgFifo.free fuel fifo).Carries q := by
  induction fuel generalizing fifo read with
  | zero => exact ⟨read, h⟩
  | succ fuel ih =>
    rw [MsgFifo.free]
    split
    · rename_i hneeds
      have hroom := h.room
      have hread : read ≠ 0 := by
        rintro rfl
        have heq : fifo.mFreeHead = fifo.mReadHead := by
          rw [h.readHead, Nat.add_zero, Nat.mod_eq_of_lt h.bound]
        unfold needsFree at hneeds
        simp [heq] at hneeds
      obtain ⟨read, rfl⟩ : ∃ r, read = r + 1 := ⟨read - 1, by omega⟩
      have hmove : ∀ i, (nextPos (2 ^ k) fifo.mFreeHead + i) % 2 ^ k
          = (fifo.mFreeHead + 1 + i) % 2 ^ k := by
        intro i
        rw [nextPos_eq, Nat.mod_add_mod]
      apply @ih _ read
      refine ⟨?_, ?_, ?_, ?_, ?_⟩
      · show nextPos (2 ^ k) fifo.mFreeHead < 2 ^ k
        rw [nextPos_eq]
        exact Nat.mod_lt _ (Nat.two_pow_pos k)
      · show fifo.mReadHead = (nextPos (2 ^ k) fifo.mFreeHead + read) % 2 ^ k
        rw [hmove, h.readHead]
        congr 1
        omega
      · show fifo.mWriteHead = (nextPos (2 ^ k) fifo.mFreeHead + read + q.length) % 2 ^ k
        rw [Nat.add_assoc, hmove, h.writeHead]
        congr 1
        omega
      · omega
      · intro i hi
        show fifo.mItems ((nextPos (2 ^ k) fifo.mFreeHead + read + 1 + i) % 2 ^ k) = _
        rw [Nat.add_assoc, Nat.add_assoc, hmove, ← h.item i hi]
        congr 2
        omega
    · exact ⟨read, h⟩

end CarriesWith

/-! ## The ring is a queue -/

theorem Carries.write (h : fifo.Carries q) (hw : fifo.write m = some fifo') :
    fifo'.Carries (q ++ [m]) := by
  obtain ⟨read, h⟩ := h
  exact ⟨read, h.write hw⟩

theorem Carries.next_eq (h : fifo.Carries q) : fifo.next = q.head? := by
  obtain ⟨read, h⟩ := h
  exact h.next_eq

theorem Carries.advance (h : fifo.Carries (m :: q)) : fifo.advance.Carries q := by
  obtain ⟨read, h⟩ := h
  exact ⟨read + 1, h.advance rfl⟩

theorem Carries.free (h : fifo.Carries q) (fuel : ℕ) : (MsgFifo.free fuel fifo).Carries q := by
  obtain ⟨read, h⟩ := h
  exact h.free fuel

end MsgFifo

end PoopWorms.Server
