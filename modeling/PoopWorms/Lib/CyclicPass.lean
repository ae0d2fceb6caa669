import Mathlib.Data.List.Basic
import Mathlib.Data.Set.Function
import Mathlib.Logic.Function.Basic

/-!
# Tokens that move round a ring while a pass goes over its places

A ring has `L` places, and a place holds at most one token. A pass visits the places in
order and lets the token that it finds go to the next place, if the place allows it. The next
place is the one that the pass visits next, so a token may be carried along. `oneStep_pass_iff`
says exactly when every token of the ring moves at most one place and none is lost.
-/

namespace PoopWorms.CyclicPass

variable {L : ℕ} {d x y : ℕ → Bool}

/-- The token at place `i` goes to the next place, if `d i`. -/
def moveToken (L : ℕ) (d : ℕ → Bool) (x : ℕ → Bool) (i : ℕ) : ℕ → Bool :=
  if x i && d i then Function.update (Function.update x i false) ((i + 1) % L) true else x

/-- One visit of every place, in order. -/
def pass (L : ℕ) (d : ℕ → Bool) (x : ℕ → Bool) : ℕ → Bool :=
  (List.range L).foldl (moveToken L d) x

/-- The pass finds a token at a place: it was there, or came along. -/
def visited (d x : ℕ → Bool) : ℕ → Bool
  | 0 => x 0
  | k + 1 => x (k + 1) || (visited d x k && d k)

@[simp] theorem visited_zero : visited d x 0 = x 0 := rfl

theorem visited_succ (k : ℕ) : visited d x (k + 1) = (x (k + 1) || (visited d x k && d k)) := rfl

theorem visited_of_token {k : ℕ} (h : x k = true) : visited d x k = true := by
  cases k with
  | zero => exact h
  | succ k => rw [visited_succ, h, Bool.true_or]

/-- The places when the pass is about to visit place `n`. -/
theorem foldl_moveToken {n : ℕ} (hn : n < L) (j : ℕ) :
    (List.range n).foldl (moveToken L d) x j
      = if j < n then visited d x j && !d j else if j = n then visited d x n else x j := by
  induction n generalizing j with
  | zero =>
    by_cases hj : j = 0
    · simp [hj]
    · simp [hj]
  | succ n ih =>
    have ih' := ih (by omega)
    have hnext : (n + 1) % L = n + 1 := Nat.mod_eq_of_lt hn
    have hhere : (List.range n).foldl (moveToken L d) x n = visited d x n := by
      rw [ih', if_neg (lt_irrefl n), if_pos rfl]
    rw [List.range_succ, List.foldl_append, List.foldl_cons, List.foldl_nil, moveToken, hhere, hnext]
    by_cases hmove : (visited d x n && d n) = true
    · -- the token goes on to the place that is visited next
      have hd : d n = true := (Bool.and_eq_true_iff.mp hmove).2
      rw [if_pos hmove, Function.update_apply, Function.update_apply, ih', visited_succ, hmove,
        Bool.or_true]
      by_cases hj : j = n
      · subst hj
        simp [hd]
      · by_cases hlt : j < n
        · simp only [hj, hlt, show j ≠ n + 1 by omega, show j < n + 1 by omega, if_true, if_false]
        · simp only [hj, hlt, show ¬ j < n + 1 by omega, if_false]
    · have hstay : (visited d x n && d n) = false := Bool.eq_false_iff.mpr hmove
      rw [if_neg hmove, ih', visited_succ, hstay, Bool.or_false]
      by_cases hj : j = n
      · subst hj
        simp only [lt_irrefl, if_false, if_true, Nat.lt_succ_self]
        grind
      · by_cases hlt : j < n
        · simp only [hlt, show j < n + 1 by omega, if_true]
        · by_cases hj' : j = n + 1
          · simp [hj']
          · simp only [hj, hj', hlt, show ¬ j < n + 1 by omega, if_false]

/-- What lies where when the pass is over. -/
theorem pass_eq (hL : 0 < L) {j : ℕ} (hj : j < L) :
    pass L d x j = true ↔ (visited d x j = true ∧ d j = false) ∨
      (j = 0 ∧ visited d x (L - 1) = true ∧ d (L - 1) = true) := by
  obtain ⟨n, rfl⟩ : ∃ n, L = n + 1 := ⟨L - 1, by omega⟩
  have hbefore := foldl_moveToken (d := d) (x := x) (Nat.lt_succ_self n)
  have hhere : (List.range n).foldl (moveToken (n + 1) d) x n = visited d x n := by
    rw [hbefore, if_neg (lt_irrefl n), if_pos rfl]
  rw [pass, List.range_succ, List.foldl_append, List.foldl_cons, List.foldl_nil, moveToken, hhere,
    Nat.mod_self, Nat.add_sub_cancel]
  by_cases hmove : (visited d x n && d n) = true
  · obtain ⟨hv, hd⟩ := Bool.and_eq_true_iff.mp hmove
    rw [if_pos hmove, Function.update_apply, Function.update_apply, hbefore]
    by_cases hj0 : j = 0
    · simp [hj0, hv, hd]
    · by_cases hjn : j = n
      · simp [hjn, hd, show n ≠ 0 by omega]
      · simp [hj0, hjn, show j < n by omega]
  · rw [if_neg hmove, hbefore]
    by_cases hjn : j = n
    · subst hjn
      simp only [lt_irrefl, if_false, if_true]
      grind
    · simp only [show j < n by omega, if_true]
      grind

/-! ## One step each -/

/-- Where the token of a place goes, if it takes at most one step. -/
def dest (L : ℕ) (s : ℕ → Bool) (i : ℕ) : ℕ := if s i then (i + 1) % L else i

/-- Every token moves at most one place, and none is lost. -/
def OneStep (L : ℕ) (x y : ℕ → Bool) : Prop :=
  ∃ s : ℕ → Bool, Set.InjOn (dest L s) {i | i < L ∧ x i = true} ∧
    ∀ j < L, y j = true ↔ ∃ i < L, x i = true ∧ dest L s i = j

/-- A token that goes to the next place finds it empty, and stays there. -/
def Calm (L : ℕ) (d x : ℕ → Bool) : Prop :=
  ∀ i < L, x i = true → d i = true →
    (i + 1 < L → x (i + 1) = false ∧ d (i + 1) = false) ∧
    (i + 1 = L → i ≠ 0 → x 0 = true → d 0 = true)

/-- The only token is carried all the way round. -/
def Round (L : ℕ) (d x : ℕ → Bool) : Prop := ∀ i < L, (x i = true ↔ i = 0) ∧ d i = true

theorem dest_of_true {s : ℕ → Bool} {i : ℕ} (h : s i = true) : dest L s i = (i + 1) % L := if_pos h

theorem dest_of_false {s : ℕ → Bool} {i : ℕ} (h : s i = false) : dest L s i = i :=
  if_neg (by simp [h])

/-- The next place, one way or the other. -/
theorem next_cases {i : ℕ} (hi : i < L) :
    (i + 1 < L ∧ (i + 1) % L = i + 1) ∨ (i + 1 = L ∧ (i + 1) % L = 0) := by
  by_cases h : i + 1 < L
  · exact .inl ⟨h, Nat.mod_eq_of_lt h⟩
  · have heq : i + 1 = L := by omega
    exact .inr ⟨heq, by rw [heq, Nat.mod_self]⟩

theorem next_inj {i k : ℕ} (hi : i < L) (hk : k < L) (h : (i + 1) % L = (k + 1) % L) : i = k := by
  rcases next_cases hi with ⟨_, hi'⟩ | ⟨_, hi'⟩ <;> rcases next_cases hk with ⟨_, hk'⟩ | ⟨_, hk'⟩ <;>
    rw [hi', hk'] at h <;> omega

theorem next_ne (hL : 1 < L) {i : ℕ} (hi : i < L) : (i + 1) % L ≠ i := by
  rcases next_cases hi with ⟨_, hi'⟩ | ⟨_, hi'⟩ <;> rw [hi'] <;> omega

/-- In a calm ring the tokens that a place lets go are its own. -/
theorem Calm.visited_iff (h : Calm L d x) {k : ℕ} (hk : k < L) :
    (visited d x k = true ∧ d k = true) ↔ (x k = true ∧ d k = true) := by
  induction k with
  | zero => simp
  | succ k ih =>
    have ih' := ih (by omega)
    rw [visited_succ, Bool.or_eq_true, Bool.and_eq_true]
    constructor
    · rintro ⟨hx | hcarried, hd⟩
      · exact ⟨hx, hd⟩
      · obtain ⟨hx, hdk⟩ := ih'.mp hcarried
        have hstays := ((h k (by omega) hx hdk).1 hk).2
        rw [hstays] at hd
        exact absurd hd Bool.false_ne_true
    · rintro ⟨hx, hd⟩
      exact ⟨.inl hx, hd⟩

theorem Calm.injOn (h : Calm L d x) : Set.InjOn (dest L d) {i | i < L ∧ x i = true} := by
  -- a token that goes does not meet one that stays
  have hapart : ∀ i k, i < L → x i = true → d i = true → k < L → x k = true → d k = false →
      (i + 1) % L ≠ k := by
    intro i k hi hxi hdi hk hxk hdk heq
    rcases next_cases hi with ⟨hlt, hnext⟩ | ⟨hlast, hnext⟩
    · have hempty := ((h i hi hxi hdi).1 hlt).1
      rw [← hnext, heq, hxk] at hempty
      exact absurd hempty Bool.true_eq_false_eq_False
    · have hk0 : k = 0 := by omega
      have hne : i ≠ 0 := by
        intro hi0
        rw [hi0, ← hk0, hdk] at hdi
        exact absurd hdi Bool.false_ne_true
      have hgoes := (h i hi hxi hdi).2 hlast hne (by rw [← hk0]; exact hxk)
      rw [← hk0, hdk] at hgoes
      exact absurd hgoes Bool.false_ne_true
  rintro i ⟨hi, hxi⟩ k ⟨hk, hxk⟩ heq
  cases hdi : d i with
  | true =>
    cases hdk : d k with
    | true =>
      rw [dest_of_true hdi, dest_of_true hdk] at heq
      exact next_inj hi hk heq
    | false =>
      rw [dest_of_true hdi, dest_of_false hdk] at heq
      exact absurd heq (hapart i k hi hxi hdi hk hxk hdk)
  | false =>
    cases hdk : d k with
    | true =>
      rw [dest_of_false hdi, dest_of_true hdk] at heq
      exact absurd heq.symm (hapart k i hk hxk hdk hi hxi hdi)
    | false => rwa [dest_of_false hdi, dest_of_false hdk] at heq

theorem Calm.oneStep (hL : 0 < L) (h : Calm L d x) : OneStep L x (pass L d x) := by
  refine ⟨d, h.injOn, fun j hj => ?_⟩
  have hlast := h.visited_iff (k := L - 1) (by omega)
  rw [pass_eq hL hj, hlast]
  constructor
  · rintro (⟨hv, hd⟩ | ⟨rfl, hx, hd⟩)
    · cases j with
      | zero => exact ⟨0, hj, hv, dest_of_false hd⟩
      | succ j =>
        rw [visited_succ, Bool.or_eq_true, Bool.and_eq_true] at hv
        rcases hv with hx | hcarried
        · exact ⟨j + 1, hj, hx, dest_of_false hd⟩
        · obtain ⟨hx, hdj⟩ := (h.visited_iff (by omega)).mp hcarried
          exact ⟨j, by omega, hx, (dest_of_true hdj).trans (Nat.mod_eq_of_lt hj)⟩
    · refine ⟨L - 1, by omega, hx, (dest_of_true hd).trans ?_⟩
      rw [Nat.sub_add_cancel hL, Nat.mod_self]
  · rintro ⟨i, hi, hx, hdest⟩
    cases hd : d i with
    | false =>
      rw [dest_of_false hd] at hdest
      subst hdest
      exact .inl ⟨visited_of_token hx, hd⟩
    | true =>
      rw [dest_of_true hd] at hdest
      rcases next_cases hi with ⟨hlt, hnext⟩ | ⟨hend, hnext⟩
      · have hj' : j = i + 1 := by omega
        subst hj'
        refine .inl ⟨?_, ((h i hi hx hd).1 hlt).2⟩
        rw [visited_succ, visited_of_token hx, hd, Bool.and_self, Bool.or_true]
      · have hi' : L - 1 = i := by omega
        exact .inr ⟨by omega, by rw [hi']; exact ⟨hx, hd⟩⟩

theorem Round.oneStep (hL : 0 < L) (h : Round L d x) : OneStep L x (pass L d x) := by
  have hcarried : ∀ k < L, visited d x k = true := by
    intro k hk
    induction k with
    | zero => exact (h 0 hL).1.mpr rfl
    | succ k ih => rw [visited_succ, ih (by omega), (h k (by omega)).2, Bool.and_self, Bool.or_true]
  have hstays : ∀ i, dest L (fun _ => false) i = i := fun i => dest_of_false rfl
  refine ⟨fun _ => false, fun i _ k _ heq => ?_, fun j hj => ?_⟩
  · rwa [hstays, hstays] at heq
  · rw [pass_eq hL hj, (h j hj).2]
    constructor
    · rintro (⟨-, habsurd⟩ | ⟨rfl, -⟩)
      · exact absurd habsurd Bool.true_eq_false_eq_False
      · exact ⟨0, hL, (h 0 hL).1.mpr rfl, hstays 0⟩
    · rintro ⟨i, hi, hx, hdest⟩
      rw [hstays] at hdest
      have hi0 := (h i hi).1.mp hx
      exact .inr ⟨by omega, hcarried (L - 1) (by omega), (h (L - 1) (by omega)).2⟩

/-! ## Only then -/

section Only

variable {s : ℕ → Bool}

/-- A token that goes although its place keeps what it finds. -/
def Pushed (d x s : ℕ → Bool) (j : ℕ) : Prop := x j = true ∧ d j = false ∧ s j = true

/-- A token that goes pushes the next one, unless the pass carries it. -/
theorem Pushed.next (hL : 1 < L) (hinj : Set.InjOn (dest L s) {i | i < L ∧ x i = true})
    (hdest : ∀ i < L, x i = true → pass L d x (dest L s i) = true) {j : ℕ} (hj : j < L)
    (h : Pushed d x s j) : Pushed d x s ((j + 1) % L) := by
  obtain ⟨hx, hd, hs⟩ := h
  have hnext := hdest j hj hx
  have hlt : (j + 1) % L < L := Nat.mod_lt _ (by omega)
  rw [dest_of_true hs, pass_eq (by omega) hlt] at hnext
  have hhere : x ((j + 1) % L) = true ∧ d ((j + 1) % L) = false := by
    rcases hnext with ⟨hv, hstays⟩ | ⟨hzero, -, hlast⟩
    · refine ⟨?_, hstays⟩
      rcases next_cases hj with ⟨-, heq⟩ | ⟨-, heq⟩
      · rw [heq, visited_succ, hd, Bool.and_false, Bool.or_false] at hv
        rwa [heq]
      · rw [heq] at hv ⊢
        exact hv
    · have hj' : L - 1 = j := by
        rcases next_cases hj with ⟨-, heq⟩ | ⟨heq, -⟩ <;> omega
      rw [hj', hd] at hlast
      exact absurd hlast Bool.false_ne_true
  refine ⟨hhere.1, hhere.2, ?_⟩
  -- if it stayed, there would be two tokens in one place
  by_contra hstays
  have hsame : dest L s ((j + 1) % L) = dest L s j := by
    rw [dest_of_true hs, dest_of_false (by simpa using hstays)]
  exact next_ne hL hj (hinj ⟨hlt, hhere.1⟩ ⟨hj, hx⟩ hsame)

/-- Once a token is pushed, all are, round the ring. -/
theorem Pushed.all (hL : 1 < L) (hinj : Set.InjOn (dest L s) {i | i < L ∧ x i = true})
    (hdest : ∀ i < L, x i = true → pass L d x (dest L s i) = true) {k : ℕ} (hk : k < L)
    (h : Pushed d x s k) {i : ℕ} (hi : i < L) : Pushed d x s i := by
  have hsteps : ∀ n, Pushed d x s ((k + n) % L) := by
    intro n
    induction n with
    | zero => rwa [Nat.add_zero, Nat.mod_eq_of_lt hk]
    | succ n ih =>
      have hstep := ih.next hL hinj hdest (Nat.mod_lt _ (by omega))
      rwa [Nat.mod_add_mod, Nat.add_assoc] at hstep
  have hround := hsteps (L - k + i)
  have hmod : (k + (L - k + i)) % L = i := by
    rw [← Nat.add_assoc, Nat.add_sub_cancel' (by omega), Nat.add_mod_left, Nat.mod_eq_of_lt hi]
  rwa [hmod] at hround

/-- The token of place `0` comes back to it only if it is alone. -/
theorem round_of_stays (hL : 1 < L) (hinj : Set.InjOn (dest L s) {i | i < L ∧ x i = true})
    (hdest : ∀ i < L, x i = true → pass L d x (dest L s i) = true) (hx : x 0 = true)
    (hd : d 0 = true) (hs : s 0 = false) : Round L d x := by
  have hback := hdest 0 (by omega) hx
  rw [dest_of_false hs, pass_eq (by omega) (by omega), hd] at hback
  have hlast : visited d x (L - 1) = true ∧ d (L - 1) = true := by
    rcases hback with ⟨-, habsurd⟩ | ⟨-, hlast⟩
    · exact absurd habsurd Bool.true_eq_false_eq_False
    · exact hlast
  -- from the last place down, every place was empty and let the token go
  have hdown : ∀ n, n < L → visited d x (L - 1 - n) = true ∧ d (L - 1 - n) = true ∧
      (x (L - 1 - n) = true → L - 1 - n = 0) := by
    intro n hn
    have hempty : ∀ j, j < L → d j = true → (j + 1 < L → d (j + 1) = true) → x j = true → j = 0 := by
      intro j hj hdj hnext hxj
      by_contra hj0
      have hsj : s j = true := by
        by_contra hstays
        have hkept := hdest j hj hxj
        rw [dest_of_false (by simpa using hstays), pass_eq (by omega) hj, hdj] at hkept
        simp [hj0] at hkept
      rcases next_cases hj with ⟨hlt, heq⟩ | ⟨-, heq⟩
      · have hgone := hdest j hj hxj
        rw [dest_of_true hsj, heq, pass_eq (by omega) hlt, hnext hlt] at hgone
        simp at hgone
      · have hsame : dest L s j = dest L s 0 := by
          rw [dest_of_true hsj, heq, dest_of_false hs]
        exact hj0 (hinj ⟨hj, hxj⟩ ⟨by omega, hx⟩ hsame)
    induction n with
    | zero =>
      exact ⟨hlast.1, hlast.2, fun hxj => hempty _ (by omega) hlast.2 (by omega) hxj⟩
    | succ n ih =>
      obtain ⟨hv, hdn, hxn⟩ := ih (by omega)
      have hsucc : L - 1 - n = L - 1 - (n + 1) + 1 := by omega
      have hgone : x (L - 1 - n) = false := by
        cases hxn' : x (L - 1 - n) with
        | false => rfl
        | true => exact absurd (hxn hxn') (by omega)
      rw [hsucc, visited_succ, ← hsucc, hgone, Bool.false_or, Bool.and_eq_true] at hv
      refine ⟨hv.1, hv.2, hempty _ (by omega) hv.2 fun _ => ?_⟩
      rwa [← hsucc]
  intro i hi
  have hthere := hdown (L - 1 - i) (by omega)
  rw [show L - 1 - (L - 1 - i) = i by omega] at hthere
  refine ⟨⟨hthere.2.2, fun hi0 => ?_⟩, hthere.2.1⟩
  rwa [hi0]

end Only

/-- A pass moves every token at most one place and loses none if and only if no token that goes
finds the next place taken or is carried on, or the only token goes all the way round. -/
theorem oneStep_pass_iff (hL : 0 < L) :
    OneStep L x (pass L d x) ↔ Calm L d x ∨ Round L d x := by
  constructor
  · rintro ⟨s, hinj, hiff⟩
    have hlt : ∀ i < L, dest L s i < L := by
      intro i hi
      unfold dest
      split_ifs with hs
      · exact Nat.mod_lt _ hL
      · exact hi
    have hdest : ∀ i < L, x i = true → pass L d x (dest L s i) = true :=
      fun i hi hx => (hiff _ (hlt i hi)).mpr ⟨i, hi, hx, rfl⟩
    by_cases hround : Round L d x
    · exact .inr hround
    refine .inl fun i hi hx hd => ?_
    have hnotpushed : ∀ k < L, 1 < L → ¬ Pushed d x s k := by
      intro k hk hL' h
      have hi' := (h.all hL' hinj hdest hk hi).2.1
      rw [hd] at hi'
      exact absurd hi' Bool.true_eq_false_eq_False
    -- the token leaves its place
    have hgoes : 1 < L → s i = true := by
      intro hL'
      by_contra hstays
      have hs : s i = false := by simpa using hstays
      by_cases hi0 : i = 0
      · subst hi0
        exact hround (round_of_stays hL' hinj hdest hx hd hs)
      · have hkept := hdest i hi hx
        rw [dest_of_false hs, pass_eq hL hi, hd] at hkept
        simp [hi0] at hkept
    -- a token that it would find is pushed
    have hpush : ∀ k < L, 1 < L → (i + 1) % L = k → i ≠ k → x k = true → d k = true := by
      intro k hk hL' hnext hne hxk
      by_contra hdk
      refine hnotpushed k hk hL' ⟨hxk, by simpa using hdk, ?_⟩
      by_contra hstays
      have hsame : dest L s k = dest L s i := by
        rw [dest_of_false (by simpa using hstays), dest_of_true (hgoes hL'), hnext]
      exact hne (hinj ⟨hk, hxk⟩ ⟨hi, hx⟩ hsame).symm
    constructor
    · intro hlt'
      have hL' : 1 < L := by omega
      have hnext : (i + 1) % L = i + 1 := Nat.mod_eq_of_lt hlt'
      have harrives := hdest i hi hx
      rw [dest_of_true (hgoes hL'), hnext, pass_eq hL hlt'] at harrives
      have hd' : d (i + 1) = false := by
        rcases harrives with ⟨-, h⟩ | ⟨h, -⟩
        · exact h
        · omega
      refine ⟨?_, hd'⟩
      by_contra hx'
      have habsurd := hpush (i + 1) hlt' hL' hnext (by omega) (by simpa using hx')
      rw [hd'] at habsurd
      exact Bool.false_ne_true habsurd
    · intro hlast hi0 hx0
      exact hpush 0 hL (by omega) (by rw [hlast, Nat.mod_self]) hi0 hx0
  · rintro (hcalm | hround)
    · exact hcalm.oneStep hL
    · exact hround.oneStep hL

end PoopWorms.CyclicPass
