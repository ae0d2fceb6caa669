import PoopWorms.Server.MsgFifo

/-!
# What a `MsgFifo` holds

The slots between two heads of the ring, as lists: `unread` is still to be performed,
`unfreed` is still to be freed. What each operation of the ring does to the two lists.
-/

namespace PoopWorms.Server

namespace MsgFifo

variable {MsgType : Type} {N k : ℕ}

/-- The slots after `first`, up to `last`. -/
def slots (fifo : MsgFifo MsgType N) (first last : ℕ) : List MsgType :=
  (List.range ((last + N - first) % N)).map fun i => fifo.mItems ((first + 1 + i) % N)

def unread (fifo : MsgFifo MsgType N) : List MsgType :=
  fifo.slots fifo.mReadHead fifo.mWriteHead

def unfreed (fifo : MsgFifo MsgType N) : List MsgType :=
  fifo.slots fifo.mFreeHead fifo.mWriteHead

/-- `Write` finds a free slot. -/
def HasRoom (fifo : MsgFifo MsgType N) : Prop := nextPos N fifo.mWriteHead ≠ fifo.mFreeHead

theorem write_of_hasRoom {fifo : MsgFifo MsgType N} (h : fifo.HasRoom) (m : MsgType) :
    ∃ fifo', fifo.write m = some fifo' := ⟨_, if_neg h⟩

/-- The messages that are still to be performed, when the first one may have been. -/
def waiting (performing : Bool) (unread : List MsgType) : List MsgType :=
  unread.drop performing.toNat

theorem waiting_append {performing : Bool} {unread : List MsgType}
    (h : performing = true → unread ≠ []) (more : List MsgType) :
    waiting performing (unread ++ more) = waiting performing unread ++ more := by
  unfold waiting
  cases performing with
  | false => rfl
  | true =>
    obtain ⟨m, rest, hrest⟩ := List.exists_cons_of_ne_nil (h rfl)
    rw [hrest]
    rfl

/-- A change of the message that is being performed, in its slot. -/
def setNext (fifo : MsgFifo MsgType N) (m : MsgType) : MsgFifo MsgType N :=
  { fifo with mItems := Function.update fifo.mItems (nextPos N fifo.mReadHead) m }

/-- One turn of `Free`. -/
def freeTurn (fifo : MsgFifo MsgType N) : MsgFifo MsgType N :=
  { fifo with mFreeHead := nextPos N fifo.mFreeHead }

/-- The messages that at most `fuel` turns of `Free` free, first to last. -/
def reclaimed : ℕ → MsgFifo MsgType N → List MsgType
  | 0, _ => []
  | fuel + 1, fifo =>
    if fifo.needsFree then
      fifo.mItems (nextPos N fifo.mFreeHead) :: reclaimed fuel fifo.freeTurn
    else []

/-- The ring as if nothing had been read since the last `Free`. -/
def fromFree (fifo : MsgFifo MsgType N) : MsgFifo MsgType N :=
  { fifo with mReadHead := fifo.mFreeHead }

/-- `done` has been read and waits to be freed, `todo` waits to be read. -/
structure Lined (fifo : MsgFifo MsgType N) (done todo : List MsgType) : Prop where
  carries : fifo.fromFree.CarriesWith 0 (done ++ todo)
  readHead : fifo.mReadHead = (fifo.mFreeHead + done.length) % N

variable {fifo fifo' : MsgFifo MsgType (2 ^ k)} {done done' todo todo' : List MsgType}
  {m m' : MsgType}

theorem lined_new (items : ℕ → MsgType) : (new items : MsgFifo MsgType (2 ^ k)).Lined [] [] where
  carries := ⟨Nat.two_pow_pos k, (Nat.zero_mod _).symm, (Nat.zero_mod _).symm, Nat.two_pow_pos k,
    nofun⟩
  readHead := (Nat.zero_mod _).symm

/-- The length of a stretch of the ring. -/
theorem sub_mod_ring {N first n : ℕ} (hn : n < N) :
    ((first + n) % N + N - first % N) % N = n := by
  have hN : 0 < N := by omega
  have hlt := Nat.mod_lt first hN
  have hcases : (first + n) % N = first % N + n ∨ (first + n) % N + N = first % N + n := by
    have hmod : (first + n) % N = (first % N + n) % N := (Nat.mod_add_mod _ _ _).symm
    rw [hmod]
    by_cases hwrap : first % N + n < N
    · exact .inl (Nat.mod_eq_of_lt hwrap)
    · right
      rw [Nat.mod_eq_sub_mod (by omega), Nat.mod_eq_of_lt (by omega)]
      omega
  rcases hcases with h | h
  · rw [h, show first % N + n + N - first % N = n + N by omega, Nat.add_mod_right,
      Nat.mod_eq_of_lt hn]
  · rw [h, Nat.add_sub_cancel_left, Nat.mod_eq_of_lt hn]

theorem slots_eq {first last : ℕ} {l : List MsgType} (hlen : l.length < 2 ^ k)
    (hlast : last = (first + l.length) % 2 ^ k)
    (hitem : ∀ i, (h : i < l.length) → fifo.mItems ((first + 1 + i) % 2 ^ k) = l[i]) :
    fifo.slots (first % 2 ^ k) last = l := by
  have hmod : ∀ i, (first % 2 ^ k + 1 + i) % 2 ^ k = (first + 1 + i) % 2 ^ k := by
    intro i
    rw [Nat.add_assoc, Nat.mod_add_mod, Nat.add_assoc]
  unfold slots
  rw [hlast, sub_mod_ring hlen]
  apply List.ext_getElem
  · simp
  · intro i hi hi'
    rw [List.getElem_map, List.getElem_range, hmod, hitem i hi']

namespace Lined

variable (h : fifo.Lined done todo)

include h

theorem room : done.length + todo.length < 2 ^ k := by
  have hroom := h.carries.room
  rw [Nat.zero_add, List.length_append] at hroom
  exact hroom

theorem item (i : ℕ) (hi : i < (done ++ todo).length) :
    fifo.mItems ((fifo.mFreeHead + 1 + i) % 2 ^ k) = (done ++ todo)[i] := h.carries.item i hi

theorem writeHead :
    fifo.mWriteHead = (fifo.mFreeHead + (done ++ todo).length) % 2 ^ k := h.carries.writeHead

theorem bound : fifo.mFreeHead < 2 ^ k := h.carries.bound

/-- The part that is still to be read. -/
theorem carriesTodo : fifo.CarriesWith done.length todo := by
  have hroom := h.room
  refine ⟨h.bound, h.readHead, ?_, hroom, ?_⟩
  · rw [h.writeHead, List.length_append, Nat.add_assoc]
  · intro i hi
    have hitem := h.item (done.length + i) (by rw [List.length_append]; omega)
    rw [List.getElem_append_right (Nat.le_add_right _ _)] at hitem
    simp only [Nat.add_sub_cancel_left] at hitem
    rw [← hitem]
    congr 2
    omega

theorem unfreed_eq : fifo.unfreed = done ++ todo := by
  have hroom := h.room
  have hlen : (done ++ todo).length < 2 ^ k := by rw [List.length_append]; exact hroom
  have hslots : fifo.slots _ fifo.mWriteHead = done ++ todo := slots_eq hlen h.writeHead h.item
  rw [Nat.mod_eq_of_lt h.bound] at hslots
  exact hslots

theorem unread_eq : fifo.unread = todo := by
  have hroom := h.room
  have hcarries := h.carriesTodo
  unfold unread
  rw [h.readHead]
  apply slots_eq (by omega) hcarries.writeHead
  intro i hi
  rw [← hcarries.item i hi]

theorem write (hwrite : fifo.write m = some fifo') : fifo'.Lined done (todo ++ [m]) := by
  unfold MsgFifo.write at hwrite
  simp only at hwrite
  split_ifs at hwrite with hfull
  cases hwrite
  constructor
  · have hwrite' : fifo.fromFree.write m = some
        { fifo with
          mReadHead := fifo.mFreeHead
          mItems := Function.update fifo.mItems (nextPos (2 ^ k) fifo.mWriteHead) m
          mWriteHead := nextPos (2 ^ k) fifo.mWriteHead } := if_neg hfull
    have hcarries := h.carries.write hwrite'
    rw [List.append_assoc] at hcarries
    exact hcarries
  · exact h.readHead

theorem advance (htodo : todo = m :: todo') : fifo.advance.Lined (done ++ [m]) todo' := by
  subst htodo
  constructor
  · rw [List.append_assoc]
    exact h.carries
  · show nextPos (2 ^ k) fifo.mReadHead = _
    rw [h.readHead, nextPos_mod, List.length_append]
    rfl

theorem setNext (htodo : todo = m :: todo') (m' : MsgType) :
    (fifo.setNext m').Lined done (m' :: todo') := by
  subst htodo
  have hroom := h.room
  rw [List.length_cons] at hroom
  have hlength : (done ++ m' :: todo').length = (done ++ m :: todo').length := by simp
  refine ⟨⟨h.bound, h.carries.readHead, ?_, ?_, ?_⟩, h.readHead⟩
  · rw [hlength]
    exact h.carries.writeHead
  · rw [hlength]
    exact h.carries.room
  · intro i hi
    have hi' : i < (done ++ m :: todo').length := hlength ▸ hi
    have hitem := h.item i hi'
    rw [List.length_append, List.length_cons] at hi'
    show Function.update fifo.mItems (nextPos (2 ^ k) fifo.mReadHead) m'
      ((fifo.mFreeHead + 0 + 1 + i) % 2 ^ k) = _
    rw [h.readHead, nextPos_mod, show fifo.mFreeHead + 0 + 1 + i = fifo.mFreeHead + (1 + i) by omega,
      show fifo.mFreeHead + done.length + 1 = fifo.mFreeHead + (1 + done.length) by omega]
    by_cases heq : i = done.length
    · subst heq
      rw [Function.update_self]
      simp
    · have hne : (fifo.mFreeHead + (1 + i)) % 2 ^ k ≠
          (fifo.mFreeHead + (1 + done.length)) % 2 ^ k := by
        intro hmod
        rw [← Nat.add_assoc, ← Nat.add_assoc] at hmod
        have := eq_of_mod_eq (a := fifo.mFreeHead + 1) (by omega) (by omega) hmod
        omega
      rw [Function.update_of_ne hne, ← Nat.add_assoc, hitem]
      rw [List.getElem_append, List.getElem_append]
      split_ifs with hdone
      · rfl
      · rw [List.getElem_cons, List.getElem_cons, dif_neg (by omega), dif_neg (by omega)]

/-- The ring needs freeing as long as something that was read is left. -/
theorem needsFree_iff : fifo.needsFree ↔ done ≠ [] := by
  have hroom := h.room
  unfold needsFree
  rw [bne_iff_ne, h.readHead, ne_eq, ne_eq, not_iff_not]
  constructor
  · intro heq
    have hzero : (fifo.mFreeHead + 0) % 2 ^ k = (fifo.mFreeHead + done.length) % 2 ^ k := by
      rw [Nat.add_zero, Nat.mod_eq_of_lt h.bound]
      exact heq
    have := eq_of_mod_eq (Nat.two_pow_pos k) (by omega) hzero
    exact List.eq_nil_of_length_eq_zero this.symm
  · intro hnil
    rw [hnil, List.length_nil, Nat.add_zero, Nat.mod_eq_of_lt h.bound]

theorem freeTurn (hdone : done = m :: done') :
    fifo.mItems (nextPos (2 ^ k) fifo.mFreeHead) = m ∧ fifo.freeTurn.Lined done' todo := by
  subst hdone
  have hroom := h.carries.room
  have hmove : ∀ i, (nextPos (2 ^ k) fifo.mFreeHead + i) % 2 ^ k =
      (fifo.mFreeHead + 1 + i) % 2 ^ k := by
    intro i
    rw [nextPos_eq, Nat.mod_add_mod]
  constructor
  · have hitem := h.item 0 (by simp)
    rw [nextPos_eq]
    exact hitem
  · refine ⟨⟨?_, ?_, ?_, ?_, ?_⟩, ?_⟩
    · show nextPos (2 ^ k) fifo.mFreeHead < 2 ^ k
      rw [nextPos_eq]
      exact Nat.mod_lt _ (Nat.two_pow_pos k)
    · show nextPos (2 ^ k) fifo.mFreeHead = (nextPos (2 ^ k) fifo.mFreeHead + 0) % 2 ^ k
      rw [hmove, nextPos_eq]
    · show fifo.mWriteHead = (nextPos (2 ^ k) fifo.mFreeHead + 0 + (done' ++ todo).length) % 2 ^ k
      rw [Nat.add_zero, hmove, h.writeHead, List.cons_append, List.length_cons]
      congr 1
      omega
    · rw [List.cons_append, List.length_cons] at hroom
      omega
    · intro i hi
      have hitem := h.item (i + 1) (by rw [List.cons_append, List.length_cons]; omega)
      show fifo.mItems ((nextPos (2 ^ k) fifo.mFreeHead + 0 + 1 + i) % 2 ^ k) = _
      simp only [List.cons_append, List.getElem_cons_succ] at hitem
      rw [Nat.add_zero, Nat.add_assoc, hmove, ← hitem]
      congr 2
      omega
    · show fifo.mReadHead = (nextPos (2 ^ k) fifo.mFreeHead + done'.length) % 2 ^ k
      rw [hmove, h.readHead, List.length_cons]
      congr 1
      omega

omit h in
theorem free (fuel : ℕ) (h : fifo.Lined done todo) (hfuel : done.length ≤ fuel) :
    (MsgFifo.free fuel fifo).Lined [] todo ∧ reclaimed fuel fifo = done := by
  induction fuel generalizing fifo done with
  | zero =>
    have hnil : done = [] := List.eq_nil_of_length_eq_zero (Nat.le_zero.mp hfuel)
    subst hnil
    exact ⟨h, rfl⟩
  | succ fuel ih =>
    rw [MsgFifo.free, reclaimed]
    cases done with
    | nil =>
      have hneeds : ¬ fifo.needsFree := by simp [h.needsFree_iff]
      rw [if_neg hneeds, if_neg hneeds]
      exact ⟨h, rfl⟩
    | cons m done =>
      have hneeds : fifo.needsFree := by simp [h.needsFree_iff]
      obtain ⟨hitem, hnext⟩ := h.freeTurn rfl
      have hrest := ih hnext (by simpa using hfuel)
      rw [if_pos hneeds, if_pos hneeds]
      exact ⟨hrest.1, congrArg₂ List.cons hitem hrest.2⟩

end Lined

/-! ## The operations on the two lists -/

/-- The heads of the ring are where its operations leave them. -/
def Tidy (fifo : MsgFifo MsgType N) : Prop := ∃ done todo, fifo.Lined done todo

theorem tidy_new (items : ℕ → MsgType) : (new items : MsgFifo MsgType (2 ^ k)).Tidy ∧
    (new items : MsgFifo MsgType (2 ^ k)).unfreed = [] ∧
    (new items : MsgFifo MsgType (2 ^ k)).unread = [] :=
  ⟨⟨[], [], lined_new items⟩, (lined_new items).unfreed_eq, (lined_new items).unread_eq⟩

namespace Tidy

variable (h : fifo.Tidy)

include h

theorem write (hwrite : fifo.write m = some fifo') :
    fifo'.Tidy ∧ fifo'.unfreed = fifo.unfreed ++ [m] ∧ fifo'.unread = fifo.unread ++ [m] := by
  obtain ⟨done, todo, h⟩ := h
  have h' := h.write hwrite
  refine ⟨⟨_, _, h'⟩, ?_, ?_⟩
  · rw [h'.unfreed_eq, h.unfreed_eq, List.append_assoc]
  · rw [h'.unread_eq, h.unread_eq]

theorem next_eq : fifo.next = fifo.unread.head? := by
  obtain ⟨done, todo, h⟩ := h
  rw [h.carriesTodo.next_eq, h.unread_eq]

theorem advance (hunread : fifo.unread = m :: todo) :
    fifo.advance.Tidy ∧ fifo.advance.unfreed = fifo.unfreed ∧ fifo.advance.unread = todo := by
  obtain ⟨done, todo', h⟩ := h
  rw [h.unread_eq] at hunread
  have h' := h.advance hunread
  refine ⟨⟨_, _, h'⟩, ?_, h'.unread_eq⟩
  rw [h'.unfreed_eq, h.unfreed_eq, hunread, List.append_assoc]
  rfl

theorem setNext (hunread : fifo.unread = m :: todo) (m' : MsgType) :
    (fifo.setNext m').Tidy ∧ (fifo.setNext m').unread = m' :: todo ∧
      ∃ before, fifo.unfreed = before ++ m :: todo ∧
        (fifo.setNext m').unfreed = before ++ m' :: todo := by
  obtain ⟨done, todo', h⟩ := h
  rw [h.unread_eq] at hunread
  have h' := h.setNext hunread m'
  refine ⟨⟨_, _, h'⟩, h'.unread_eq, done, ?_, h'.unfreed_eq⟩
  rw [h.unfreed_eq, hunread]

theorem free : (MsgFifo.free (2 ^ k) fifo).Tidy ∧
    (MsgFifo.free (2 ^ k) fifo).unread = fifo.unread ∧
    fifo.unfreed = reclaimed (2 ^ k) fifo ++ (MsgFifo.free (2 ^ k) fifo).unfreed := by
  obtain ⟨done, todo, h⟩ := h
  have hroom := h.room
  obtain ⟨h', hreclaimed⟩ := Lined.free (2 ^ k) h (by omega)
  refine ⟨⟨_, _, h'⟩, ?_, ?_⟩
  · rw [h'.unread_eq, h.unread_eq]
  · rw [h'.unfreed_eq, h.unfreed_eq, hreclaimed, List.nil_append]

end Tidy

end MsgFifo

/-! ## `MsgFifoNoFree` -/

/-- A ring without a free head: a slot is free as soon as it has been read. -/
structure MsgFifoNoFree (MsgType : Type) (N : ℕ) where
  mReadHead : ℕ
  mWriteHead : ℕ
  mItems : ℕ → MsgType

namespace MsgFifoNoFree

open MsgFifo

variable {MsgType : Type} {N k : ℕ}

def new (items : ℕ → MsgType) : MsgFifoNoFree MsgType N := ⟨0, 0, items⟩

/-- `Write`; there is no result when the fifo is full. -/
def write (fifo : MsgFifoNoFree MsgType N) (data : MsgType) : Option (MsgFifoNoFree MsgType N) :=
  let next := nextPos N fifo.mWriteHead
  if next = fifo.mReadHead then none
  else some { fifo with
    mItems := Function.update fifo.mItems next data
    mWriteHead := next }

/-- `Write` finds a free slot. -/
def HasRoom (fifo : MsgFifoNoFree MsgType N) : Prop :=
  nextPos N fifo.mWriteHead ≠ fifo.mReadHead

theorem write_of_hasRoom {fifo : MsgFifoNoFree MsgType N} (h : fifo.HasRoom) (m : MsgType) :
    ∃ fifo', fifo.write m = some fifo' := ⟨_, if_neg h⟩

/-- The message that one turn of `Perform` performs. -/
def next (fifo : MsgFifoNoFree MsgType N) : Option MsgType :=
  if fifo.mReadHead != fifo.mWriteHead then some (fifo.mItems (nextPos N fifo.mReadHead)) else none

/-- The end of one turn of `Perform`. -/
def advance (fifo : MsgFifoNoFree MsgType N) : MsgFifoNoFree MsgType N :=
  { fifo with mReadHead := nextPos N fifo.mReadHead }

/-- The ring whose free head goes with the read head. -/
def toMsgFifo (fifo : MsgFifoNoFree MsgType N) : MsgFifo MsgType N :=
  ⟨fifo.mReadHead, fifo.mWriteHead, fifo.mReadHead, fifo.mItems⟩

def unread (fifo : MsgFifoNoFree MsgType N) : List MsgType := fifo.toMsgFifo.unread

def Tidy (fifo : MsgFifoNoFree MsgType N) : Prop := ∃ todo, fifo.toMsgFifo.Lined [] todo

variable {fifo fifo' : MsgFifoNoFree MsgType (2 ^ k)} {todo : List MsgType} {m : MsgType}

theorem tidy_new (items : ℕ → MsgType) : (new items : MsgFifoNoFree MsgType (2 ^ k)).Tidy ∧
    (new items : MsgFifoNoFree MsgType (2 ^ k)).unread = [] :=
  ⟨⟨[], lined_new items⟩, (lined_new items).unread_eq⟩

namespace Tidy

variable (h : fifo.Tidy)

include h

theorem write (hwrite : fifo.write m = some fifo') :
    fifo'.Tidy ∧ fifo'.unread = fifo.unread ++ [m] := by
  obtain ⟨todo, h⟩ := h
  unfold MsgFifoNoFree.write at hwrite
  simp only at hwrite
  split_ifs at hwrite with hfull
  cases hwrite
  have hwrite' : fifo.toMsgFifo.write m = some
      { fifo.toMsgFifo with
        mItems := Function.update fifo.mItems (nextPos (2 ^ k) fifo.mWriteHead) m
        mWriteHead := nextPos (2 ^ k) fifo.mWriteHead } := if_neg hfull
  have h' := h.write hwrite'
  refine ⟨⟨_, h'⟩, ?_⟩
  unfold unread
  rw [h.unread_eq]
  exact h'.unread_eq

theorem next_eq : fifo.next = fifo.unread.head? := by
  obtain ⟨todo, h⟩ := h
  have hnext := h.carriesTodo.next_eq
  unfold unread
  rw [h.unread_eq, ← hnext]
  rfl

theorem advance (hunread : fifo.unread = m :: todo) :
    fifo.advance.Tidy ∧ fifo.advance.unread = todo := by
  obtain ⟨todo', h⟩ := h
  unfold unread at hunread ⊢
  rw [h.unread_eq] at hunread
  -- the slot is read and freed in one
  have h' := ((h.advance hunread).freeTurn rfl).2
  exact ⟨⟨_, h'⟩, h'.unread_eq⟩

end Tidy

end MsgFifoNoFree

end PoopWorms.Server
