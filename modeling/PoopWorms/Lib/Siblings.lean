import Mathlib.Data.List.Basic
import Mathlib.Tactic.Common

/-!
# Places among siblings

Blocks of nodes are put into lists of children: at the head or the tail of the list of a
group, before or after another node. Nodes are taken out of the lists, and one takes the
place of another. Around a node that stands in a list once, everything stays.
-/

namespace PoopWorms.Siblings

variable {ι : Type*} [DecidableEq ι]

/-- `n` between `front` and `back`. -/
def insertAround (n : ι) (front back l : List ι) : List ι :=
  l.flatMap fun x => if x = n then front ++ x :: back else [x]

def insertBefore (n : ι) (block l : List ι) : List ι := insertAround n block [] l

def insertAfter (n : ι) (block l : List ι) : List ι := insertAround n [] block l

/-- `s` for `n`. -/
def substitute (n s : ι) (l : List ι) : List ι := l.map fun x => if x = n then s else x

def takeOut (gone l : List ι) : List ι := l.filter fun x => !gone.contains x

variable {n p s g : ι} {block front back gone l l₁ l₂ : List ι}

theorem insertAround_append (n : ι) (front back l₁ l₂ : List ι) :
    insertAround n front back (l₁ ++ l₂) =
      insertAround n front back l₁ ++ insertAround n front back l₂ := List.flatMap_append

theorem insertAround_cons_self (n : ι) (front back l : List ι) :
    insertAround n front back (n :: l) = front ++ n :: back ++ insertAround n front back l := by
  unfold insertAround
  rw [List.flatMap_cons, if_pos rfl]

theorem insertAround_cons_of_ne {x : ι} (hx : x ≠ n) :
    insertAround n front back (x :: l) = x :: insertAround n front back l := by
  unfold insertAround
  rw [List.flatMap_cons, if_neg hx]
  rfl

theorem insertAround_of_notMem (hn : n ∉ l) : insertAround n front back l = l := by
  induction l with
  | nil => rfl
  | cons x xs ih =>
    rw [List.mem_cons, not_or] at hn
    rw [insertAround_cons_of_ne (Ne.symm hn.1), ih hn.2]

/-- Around a node that stands in the list once. -/
theorem insertAround_cut (h₁ : n ∉ l₁) (h₂ : n ∉ l₂) :
    insertAround n front back (l₁ ++ n :: l₂) = l₁ ++ (front ++ n :: back ++ l₂) := by
  rw [insertAround_append, insertAround_of_notMem h₁, insertAround_cons_self,
    insertAround_of_notMem h₂]

theorem insertBefore_cut (h₁ : n ∉ l₁) (h₂ : n ∉ l₂) :
    insertBefore n block (l₁ ++ n :: l₂) = l₁ ++ (block ++ n :: l₂) := by
  unfold insertBefore
  rw [insertAround_cut h₁ h₂, List.append_assoc]
  rfl

theorem insertAfter_cut (h₁ : n ∉ l₁) (h₂ : n ∉ l₂) :
    insertAfter n block (l₁ ++ n :: l₂) = l₁ ++ n :: block ++ l₂ := by
  unfold insertAfter
  rw [insertAround_cut h₁ h₂, List.nil_append, List.append_assoc]

theorem substitute_of_notMem (hn : n ∉ l) : substitute n s l = l := by
  induction l with
  | nil => rfl
  | cons x xs ih =>
    rw [List.mem_cons, not_or] at hn
    unfold substitute at ih ⊢
    rw [List.map_cons, if_neg (Ne.symm hn.1), ih hn.2]

theorem substitute_cut (h₁ : n ∉ l₁) (h₂ : n ∉ l₂) :
    substitute n s (l₁ ++ n :: l₂) = l₁ ++ s :: l₂ := by
  have hl₁ := substitute_of_notMem (s := s) h₁
  have hl₂ := substitute_of_notMem (s := s) h₂
  unfold substitute at hl₁ hl₂ ⊢
  rw [List.map_append, List.map_cons, hl₁, hl₂, if_pos rfl]

@[simp] theorem mem_takeOut {x : ι} : x ∈ takeOut gone l ↔ x ∈ l ∧ x ∉ gone := by
  simp [takeOut]

theorem takeOut_append (gone l₁ l₂ : List ι) :
    takeOut gone (l₁ ++ l₂) = takeOut gone l₁ ++ takeOut gone l₂ := List.filter_append ..

theorem takeOut_cons_of_mem (hn : n ∈ gone) : takeOut gone (n :: l) = takeOut gone l :=
  List.filter_cons_of_neg (by simpa using hn)

theorem takeOut_cons_of_notMem (hn : n ∉ gone) : takeOut gone (n :: l) = n :: takeOut gone l :=
  List.filter_cons_of_pos (by simpa using hn)

theorem takeOut_of_notMem (h : ∀ x ∈ l, x ∉ gone) : takeOut gone l = l := by
  apply List.filter_eq_self.mpr
  intro x hx
  simpa using h x hx

theorem takeOut_eq_nil (h : ∀ x ∈ l, x ∈ gone) : takeOut gone l = [] := by
  apply List.filter_eq_nil_iff.mpr
  intro x hx
  simpa using h x hx

theorem takeOut_singleton_of_notMem (hn : n ∉ l) : takeOut [n] l = l := by
  apply takeOut_of_notMem
  intro x hx hxn
  exact hn (List.mem_singleton.mp hxn ▸ hx)

theorem takeOut_cut (h₁ : n ∉ l₁) (h₂ : n ∉ l₂) : takeOut [n] (l₁ ++ n :: l₂) = l₁ ++ l₂ := by
  rw [takeOut_append, takeOut_cons_of_mem List.mem_cons_self, takeOut_singleton_of_notMem h₁,
    takeOut_singleton_of_notMem h₂]

theorem takeOut_takeOut (gone gone' l : List ι) :
    takeOut gone' (takeOut gone l) = takeOut (gone ++ gone') l := by
  unfold takeOut
  rw [List.filter_filter]
  congr 1
  ext x
  by_cases hx : x ∈ gone <;> by_cases hx' : x ∈ gone' <;> simp [hx, hx']

/-- Nodes may be taken out before or after others are put around one that stays. -/
theorem takeOut_insertAround (hfront : ∀ x ∈ front, x ∉ gone) (hback : ∀ x ∈ back, x ∉ gone)
    (hn : n ∉ gone) : takeOut gone (insertAround n front back l) =
      insertAround n front back (takeOut gone l) := by
  induction l with
  | nil => rfl
  | cons x xs ih =>
    by_cases hxn : x = n
    · subst hxn
      rw [insertAround_cons_self, takeOut_append, takeOut_append, takeOut_cons_of_notMem hn,
        takeOut_cons_of_notMem hn, insertAround_cons_self, takeOut_of_notMem hfront,
        takeOut_of_notMem hback, ih]
    · rw [insertAround_cons_of_ne hxn]
      by_cases hx : x ∈ gone
      · rw [takeOut_cons_of_mem hx, takeOut_cons_of_mem hx, ih]
      · rw [takeOut_cons_of_notMem hx, takeOut_cons_of_notMem hx, insertAround_cons_of_ne hxn, ih]

theorem mem_insertAround {x : ι} :
    x ∈ insertAround n front back l ↔ x ∈ l ∨ n ∈ l ∧ (x ∈ front ∨ x ∈ back) := by
  induction l with
  | nil => simp [insertAround]
  | cons y ys ih =>
    by_cases hy : y = n
    · subst hy
      rw [insertAround_cons_self, List.mem_append, List.mem_append, List.mem_cons, ih]
      simp only [List.mem_cons, true_or, true_and]
      tauto
    · rw [insertAround_cons_of_ne hy, List.mem_cons, List.mem_cons, List.mem_cons, ih]
      simp only [Ne.symm hy, false_or, or_assoc]

/-- Without what was put around it, the list is as before. -/
theorem takeOut_insertAround_self (hfront : ∀ x ∈ front, x ∈ gone) (hback : ∀ x ∈ back, x ∈ gone) :
    takeOut gone (insertAround n front back l) = takeOut gone l := by
  induction l with
  | nil => rfl
  | cons x xs ih =>
    have hcons : takeOut gone (x :: xs) = takeOut gone [x] ++ takeOut gone xs :=
      takeOut_append gone [x] xs
    by_cases hxn : x = n
    · subst hxn
      have hback' : takeOut gone (x :: back) = takeOut gone [x] ++ takeOut gone back :=
        takeOut_append gone [x] back
      rw [insertAround_cons_self, takeOut_append, takeOut_append, takeOut_eq_nil hfront, hback',
        takeOut_eq_nil hback, ih, hcons, List.append_nil]
      rfl
    · have hrest : takeOut gone (x :: insertAround n front back xs) =
          takeOut gone [x] ++ takeOut gone (insertAround n front back xs) :=
        takeOut_append gone [x] _
      rw [insertAround_cons_of_ne hxn, hrest, ih, hcons]

/-- What is put around a node that was itself put around another one. -/
theorem insertAfter_insertAround (hp : p ∉ l) :
    insertAfter p [s] (insertAround n front back l) =
      insertAround n (insertAfter p [s] front) (insertAfter p [s] back) l := by
  induction l with
  | nil => rfl
  | cons x xs ih =>
    rw [List.mem_cons, not_or] at hp
    have hxp := Ne.symm hp.1
    unfold insertAfter at ih ⊢
    by_cases hxn : x = n
    · subst hxn
      rw [insertAround_cons_self, insertAround_append, insertAround_append,
        insertAround_cons_of_ne hxp, ih hp.2, ← insertAround_cons_self]
    · rw [insertAround_cons_of_ne hxn, insertAround_cons_of_ne hxp, ih hp.2,
        insertAround_cons_of_ne hxn]

/-! ## Places -/

/-- A place among the children of a group. -/
inductive Place (ι : Type*)
  | head (group : ι)
  | tail (group : ι)
  | before (target : ι)
  | after (target : ι)

namespace Place

def target : Place ι → ι
  | head group => group
  | tail group => group
  | before target => target
  | after target => target

/-- What becomes of the list `l` of the children of `g` when `block` is put in its place. -/
def put (place : Place ι) (block : List ι) (g : ι) (l : List ι) : List ι :=
  match place with
  | head group => if g = group then block ++ l else l
  | tail group => if g = group then l ++ block else l
  | before target => insertBefore target block l
  | after target => insertAfter target block l

/-- The place is in the list `l` of the children of `g`. -/
def IsIn (place : Place ι) (g : ι) (l : List ι) : Prop :=
  match place with
  | head group => g = group
  | tail group => g = group
  | before target => target ∈ l
  | after target => target ∈ l

variable {place : Place ι}

theorem takeOut_put (hblock : ∀ x ∈ block, x ∉ gone) (htarget : place.target ∉ gone) :
    takeOut gone (place.put block g l) = place.put block g (takeOut gone l) := by
  cases place with
  | head group =>
    unfold put
    dsimp only
    split_ifs
    · rw [takeOut_append, takeOut_of_notMem hblock]
    · rfl
  | tail group =>
    unfold put
    dsimp only
    split_ifs
    · rw [takeOut_append, takeOut_of_notMem hblock]
    · rfl
  | before target => exact takeOut_insertAround hblock (by simp) htarget
  | after target => exact takeOut_insertAround (by simp) hblock htarget

theorem mem_put {x : ι} :
    x ∈ place.put block g l ↔ x ∈ l ∨ x ∈ block ∧ place.IsIn g l := by
  cases place with
  | head group =>
    unfold put IsIn
    dsimp only
    split_ifs with hg
    · rw [List.mem_append, or_comm, and_iff_left hg]
    · simp [hg]
  | tail group =>
    unfold put IsIn
    dsimp only
    split_ifs with hg
    · rw [List.mem_append, and_iff_left hg]
    · simp [hg]
  | before target =>
    refine mem_insertAround.trans ?_
    simp [IsIn, and_comm]
  | after target =>
    refine mem_insertAround.trans ?_
    simp [IsIn, and_comm]

/-- Without the block, the list is as before. -/
theorem takeOut_put_self (hblock : ∀ x ∈ block, x ∈ gone) :
    takeOut gone (place.put block g l) = takeOut gone l := by
  have hnil := takeOut_eq_nil hblock
  cases place with
  | head group =>
    unfold put
    dsimp only
    split_ifs
    · rw [takeOut_append, hnil, List.nil_append]
    · rfl
  | tail group =>
    unfold put
    dsimp only
    split_ifs
    · rw [takeOut_append, hnil, List.append_nil]
    · rfl
  | before target => exact takeOut_insertAround_self hblock (by simp)
  | after target => exact takeOut_insertAround_self (by simp) hblock

/-- A block grows at its end. -/
theorem insertAfter_put (hpl : p ∉ l) (hpb : p ∉ block) :
    insertAfter p [s] (place.put (block ++ [p]) g l) = place.put (block ++ [p, s]) g l := by
  have hblock : insertAfter p [s] (block ++ [p]) = block ++ [p, s] := by
    rw [insertAfter_cut hpb List.not_mem_nil, List.append_nil]
  have hl : insertAfter p [s] l = l := insertAround_of_notMem hpl
  have happend : ∀ l₁ l₂ : List ι, insertAfter p [s] (l₁ ++ l₂) =
      insertAfter p [s] l₁ ++ insertAfter p [s] l₂ := insertAround_append p [] [s]
  cases place with
  | head group =>
    unfold put
    dsimp only
    split_ifs
    · rw [happend, hblock, hl]
    · exact hl
  | tail group =>
    unfold put
    dsimp only
    split_ifs
    · rw [happend, hblock, hl]
    · exact hl
  | before target =>
    show insertAfter p [s] (insertAround target _ [] l) = insertAround target _ [] l
    rw [insertAfter_insertAround hpl, hblock]
    rfl
  | after target =>
    show insertAfter p [s] (insertAround target [] _ l) = insertAround target [] _ l
    rw [insertAfter_insertAround hpl, hblock]
    rfl

end Place

end PoopWorms.Siblings
