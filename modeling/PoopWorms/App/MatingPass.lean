import PoopWorms.App.Mating
import Mathlib.Data.Prod.Lex

/-!
# One pass over the pairs of worms

The two loops of the controller run over an array to which they append the newborn. They end:
a birth takes a worm and its mate out of the worms that can have an offspring at that time, and
what is left of the array does not grow beyond the worms that can. The flag that they leave
behind is set from the later worms alone.
-/

namespace PoopWorms.App

open Octets Server Runs

namespace MatingLoop

variable {env : Platform} {m : MatingLoop} {now : ℚ}

/-- The outer loop is over. -/
def Over (m : MatingLoop) : Prop := m.app.worms.length ≤ m.i

instance (m : MatingLoop) : Decidable m.Over := inferInstanceAs (Decidable (_ ≤ _))

/-- The worms of the array are distinct, and allocated; the inner loop is ahead of the outer. -/
structure Peopled (m : MatingLoop) : Prop where
  nodup : m.app.worms.Nodup
  allocated : ∀ w ∈ m.app.worms, w < m.app.next
  ahead : m.i < m.j

/-- A worm that had its last date just now, and is mating. -/
def spent (now : ℚ) (p : PWWorm) : Bool := p.mating && p.lastDate == some now

/-- The worms that the outer loop has yet to come to. -/
def rest (m : MatingLoop) : List ℕ := m.app.worms.drop (m.i + 1)

/-- The worm of this turn of the outer loop can still have an offspring. -/
def ready (now : ℚ) (m : MatingLoop) : ℕ :=
  (m.app.worms[m.i]?).elim 0 fun w => if spent now (m.app.worm w) then 0 else 1

/-- How many worms come before the next one that is spent. -/
def untilSpent (now : ℚ) (m : MatingLoop) : ℕ := m.rest.findIdx fun w => spent now (m.app.worm w)

/-- What every turn of the loops makes smaller. -/
def rank (now : ℚ) (m : MatingLoop) : ℕ ×ₗ ℕ ×ₗ ℕ ×ₗ ℕ :=
  toLex (m.app.worms.length - m.i + m.ready now, toLex (m.untilSpent now,
    toLex (m.ready now, m.app.worms.length - m.j)))

theorem rank_lt {m m' : MatingLoop}
    (h : m'.app.worms.length - m'.i + m'.ready now < m.app.worms.length - m.i + m.ready now ∨
      m'.app.worms.length - m'.i + m'.ready now = m.app.worms.length - m.i + m.ready now ∧
        (m'.untilSpent now < m.untilSpent now ∨ m'.untilSpent now = m.untilSpent now ∧
          (m'.ready now < m.ready now ∨ m'.ready now = m.ready now ∧
            m'.app.worms.length - m'.j < m.app.worms.length - m.j))) :
    m'.rank now < m.rank now := by
  unfold rank
  simp only [Prod.Lex.toLex_lt_toLex]
  exact h

/-! ## What a turn does -/

/-- The three things that a turn can be, while the loops are not over. -/
theorem turn_cases (env : Platform) (pairing : Pairing) (hover : ¬ m.Over) :
    ∃ worm1, m.app.worms[m.i]? = some worm1 ∧
      ((∃ worm2, m.app.worms[m.j]? = some worm2 ∧ pairing.intersects = true ∧
          m.turn env pairing = ⟨m.app.meet env worm1 worm2 pairing, m.i, m.j + 1, true⟩) ∨
        (∃ worm2, m.app.worms[m.j]? = some worm2 ∧ pairing.intersects = false ∧
          m.turn env pairing = { m with j := m.j + 1 }) ∨
        (m.app.worms[m.j]? = none ∧ m.turn env pairing =
          ⟨if m.foundMate then m.app else m.app.modify worm1 fun p => { p with mating := false },
            m.i + 1, m.i + 2, false⟩)) := by
  have hi : m.i < m.app.worms.length := not_le.mp hover
  have hworm1 : m.app.worms[m.i]? = some m.app.worms[m.i] := List.getElem?_eq_getElem hi
  refine ⟨_, hworm1, ?_⟩
  unfold turn
  rw [hworm1]
  cases hworm2 : m.app.worms[m.j]? with
  | none => exact .inr (.inr ⟨rfl, rfl⟩)
  | some worm2 =>
    cases hintersects : pairing.intersects with
    | true => exact .inl ⟨worm2, rfl, rfl, rfl⟩
    | false => exact .inr (.inl ⟨worm2, rfl, rfl, rfl⟩)

/-- When the loops are over, nothing more happens. -/
theorem turn_of_over {pairing : Pairing} (hover : m.Over) : m.turn env pairing = m := by
  have hnone : m.app.worms[m.i]? = none := List.getElem?_eq_none hover
  unfold turn
  rw [hnone]

open PWViewController

theorem Peopled.turn (h : m.Peopled) (pairing : Pairing) : (m.turn env pairing).Peopled := by
  have hahead : (m.turn env pairing).i < (m.turn env pairing).j := by
    have hlt := h.ahead
    by_cases hover : m.Over
    · rwa [turn_of_over hover]
    · rcases turn_cases env pairing hover with
        ⟨_, -, ⟨_, -, -, heq⟩ | ⟨_, -, -, heq⟩ | ⟨-, heq⟩⟩ <;> rw [heq] <;> simp only <;> omega
  have ht : Turned m.app (m.turn env pairing).app := turned_turn m pairing
  rcases ht.born with ⟨-, hnext, hworms, -⟩ | ⟨p, -, -, hnext, hworms, -⟩
  · exact ⟨hworms ▸ h.nodup, fun w hw => hnext ▸ h.allocated w (hworms ▸ hw), hahead⟩
  · refine ⟨?_, fun w hw => ?_, hahead⟩
    · rw [hworms]
      refine List.nodup_append.mpr ⟨h.nodup, List.nodup_singleton _, fun x hx y hy heq => ?_⟩
      have hlt := h.allocated x hx
      have hy' := List.mem_singleton.mp hy
      omega
    · rw [hworms] at hw
      rw [hnext]
      rcases List.mem_append.mp hw with hw | hw
      · exact Nat.lt_succ_of_lt (h.allocated w hw)
      · rw [List.mem_singleton.mp hw]
        exact Nat.lt_succ_self _

theorem worm_couple (s : PWViewController) (worm1 worm2 x : ℕ) :
    (s.couple worm1 worm2).worm x
      = if x = worm1 ∨ x = worm2 then { s.worm x with mating := true } else s.worm x := by
  unfold couple
  simp only [worm_modify]
  split_ifs <;> simp_all

theorem worm_date (s : PWViewController) (worm1 worm2 x : ℕ) (now : ℚ) :
    (s.date worm1 worm2 now).worm x
      = if x = worm1 ∨ x = worm2 then { s.worm x with lastDate := some now } else s.worm x := by
  unfold date
  simp only [worm_modify]
  split_ifs <;> simp_all

/-- A worm that is spent has no offspring. -/
theorem not_mayMate_of_spent {s : PWViewController} {worm1 worm2 : ℕ}
    (h : spent now (s.worm worm1) = true) : ¬ s.MayMate worm1 worm2 now := by
  obtain ⟨hmating, hdate⟩ := Bool.and_eq_true_iff.mp h
  have hsince : (s.worm worm1).sinceLastDate now = 0 := by
    unfold PWWorm.sinceLastDate
    rw [beq_iff_eq.mp hdate]
    exact sub_self now
  intro hmay
  rcases hmay with hidle | ⟨-, hlong, -⟩
  · exact hidle hmating
  · rw [hsince] at hlong
    norm_num at hlong

/-- Two worms that meet at `now`: no worm that was spent is ready again, and when one is born, the
two are spent, and the first of them was not. -/
theorem meet_spent (env : Platform) {s : PWViewController} {worm1 worm2 : ℕ} {pairing : Pairing}
    (hnow : pairing.now = now) (hworm1 : worm1 < s.next) (hworm2 : worm2 < s.next) :
    (∀ w < s.next, spent now (s.worm w) = true →
      spent now ((s.meet env worm1 worm2 pairing).worm w) = true) ∧
    ((s.meet env worm1 worm2 pairing).worms = s.worms ∨
      (s.meet env worm1 worm2 pairing).worms = s.worms ++ [s.next] ∧
        spent now (s.worm worm1) = false ∧
        spent now ((s.meet env worm1 worm2 pairing).worm worm1) = true ∧
        spent now ((s.meet env worm1 worm2 pairing).worm worm2) = true) := by
  rcases meet_eq env s worm1 worm2 pairing with hcouple
    | ⟨hmay, -, p, nextEvent, audio, -, hborn⟩
  · rw [hcouple]
    refine ⟨fun w _ hspent => ?_, .inl rfl⟩
    rw [worm_couple]
    split_ifs with hw
    · exact Bool.and_eq_true_iff.mpr ⟨rfl, (Bool.and_eq_true_iff.mp hspent).2⟩
    · exact hspent
  · have hnew : spent now (s.worm worm1) = false :=
      Bool.eq_false_iff.mpr fun hspent => not_mayMate_of_spent hspent (hnow ▸ hmay)
    -- the worms with a date now
    have hdated : ∀ w < s.next, (s.meet env worm1 worm2 pairing).worm w
        = if w = worm1 ∨ w = worm2 then { s.worm w with lastDate := some now, mating := true }
          else s.worm w := by
      intro w hw
      rw [hborn, worm_couple, worm_date, hnow]
      simp only [withWorm, Function.update_of_ne hw.ne]
      split_ifs <;> rfl
    have hboth : ∀ w < s.next, w = worm1 ∨ w = worm2 →
        spent now ((s.meet env worm1 worm2 pairing).worm w) = true := by
      intro w hw hone
      rw [hdated w hw, if_pos hone]
      simp [spent]
    refine ⟨fun w hw hspent => ?_, .inr ⟨by rw [hborn]; rfl, hnew, hboth _ hworm1 (.inl rfl),
      hboth _ hworm2 (.inr rfl)⟩⟩
    by_cases hone : w = worm1 ∨ w = worm2
    · exact hboth w hw hone
    · rw [hdated w hw, if_neg hone]
      exact hspent

/-! ## The loops end -/

/-- The next worm comes up. -/
theorem rest_eq {m : MatingLoop} {worm1 : ℕ} (hworm1 : m.app.worms[m.i]? = some worm1) :
    m.app.worms.drop m.i = worm1 :: m.rest := by
  obtain ⟨hi, heq⟩ := List.getElem?_eq_some_iff.mp hworm1
  rw [List.drop_eq_getElem_cons hi, heq]
  rfl

theorem ready_eq {m : MatingLoop} {worm1 : ℕ} (hworm1 : m.app.worms[m.i]? = some worm1) :
    m.ready now = if spent now (m.app.worm worm1) then 0 else 1 := by
  unfold ready
  rw [hworm1]
  rfl

/-- Two worms that meet leave less for the loops to do. -/
theorem rank_meet (h : m.Peopled) {worm1 worm2 : ℕ} {pairing : Pairing} (hnow : pairing.now = now)
    (hworm1 : m.app.worms[m.i]? = some worm1) (hworm2 : m.app.worms[m.j]? = some worm2) :
    rank now ⟨m.app.meet env worm1 worm2 pairing, m.i, m.j + 1, true⟩ < m.rank now := by
  have hlt := h.ahead
  have hmem1 := h.allocated worm1 (List.mem_of_getElem? hworm1)
  have hmem2 := h.allocated worm2 (List.mem_of_getElem? hworm2)
  have hj : m.j < m.app.worms.length := (List.getElem?_eq_some_iff.mp hworm2).1
  set m' : MatingLoop := ⟨m.app.meet env worm1 worm2 pairing, m.i, m.j + 1, true⟩ with hm'
  obtain ⟨hkeeps, hworms⟩ := meet_spent env hnow hmem1 hmem2
  have hold : ∀ w ∈ m.rest, spent now (m.app.worm w) = true → spent now (m'.app.worm w) = true :=
    fun w hw => hkeeps w (h.allocated w (List.mem_of_mem_drop hw))
  have huntil : m.rest.findIdx (fun w => spent now (m'.app.worm w)) ≤ m.untilSpent now :=
    List.findIdx_le_findIdx hold
  apply rank_lt
  rcases hworms with hsame | ⟨hborn, hready, hspent1, hspent2⟩
  · -- nobody is born
    have hworms' : m'.app.worms = m.app.worms := hsame
    have hrest : m'.rest = m.rest := by
      unfold rest
      rw [hworms']
    have huntil' : m'.untilSpent now ≤ m.untilSpent now := by
      rw [untilSpent, hrest]
      exact huntil
    have hready' : m'.ready now ≤ m.ready now := by
      rw [ready_eq hworm1, ready_eq (m := m') (by rw [hworms']; exact hworm1)]
      by_cases hs : spent now (m.app.worm worm1) = true
      · rw [if_pos hs, if_pos (hkeeps worm1 hmem1 hs)]
      · rw [if_neg hs]
        split_ifs
        · exact Nat.zero_le 1
        · exact le_refl 1
    have hlength : m'.app.worms.length - m'.i = m.app.worms.length - m.i := by rw [hworms']
    have hjump : m'.app.worms.length - m'.j < m.app.worms.length - m.j := by
      rw [hworms']
      simp only [hm']
      omega
    omega
  · -- the newborn takes the place of its mother, and its father is among the rest
    have hi : m.i < m.app.worms.length := by omega
    have hworms' : m'.app.worms = m.app.worms ++ [m.app.next] := hborn
    have hrest : m'.rest = m.rest ++ [m.app.next] := by
      unfold rest
      rw [hworms', List.drop_append_of_le_length (by simp only [hm']; omega)]
    have hfather : worm2 ∈ m.rest := by
      unfold rest
      rw [List.mem_drop_iff_getElem]
      obtain ⟨hj', heq⟩ := List.getElem?_eq_some_iff.mp hworm2
      refine ⟨m.j - (m.i + 1), by omega, ?_⟩
      rw [← heq]
      congr 1
      omega
    have huntil' : m'.untilSpent now ≤ m.untilSpent now := by
      have hfound := List.findIdx_lt_length_of_exists (p := fun w => spent now (m'.app.worm w))
        ⟨worm2, hfather, hspent2⟩
      rw [untilSpent, hrest, List.findIdx_append, if_pos hfound]
      exact huntil
    have hready0 : m.ready now = 1 := by
      rw [ready_eq hworm1, hready]
      rfl
    have hready1 : m'.ready now = 0 := by
      rw [ready_eq (m := m') (by rw [hworms', List.getElem?_append_left hi]; exact hworm1)]
      exact if_pos hspent1
    have hlength : m'.app.worms.length - m'.i = m.app.worms.length - m.i + 1 := by
      rw [hworms', List.length_append, List.length_singleton]
      simp only [hm']
      omega
    omega

/-- When a worm has met all later ones, the next one comes up, with those behind it. -/
theorem rank_next (h : m.Peopled) {worm1 : ℕ} (hworm1 : m.app.worms[m.i]? = some worm1)
    {app : PWViewController} (hworms : app.worms = m.app.worms)
    (hsame : ∀ w, w ≠ worm1 → app.worm w = m.app.worm w) :
    rank now ⟨app, m.i + 1, m.i + 2, false⟩ < m.rank now := by
  set m' : MatingLoop := ⟨app, m.i + 1, m.i + 2, false⟩ with hm'
  have hi : m.i < m.app.worms.length := (List.getElem?_eq_some_iff.mp hworm1).1
  have hlength : m'.app.worms.length - m'.i + 1 = m.app.worms.length - m.i := by
    simp only [hm', hworms]
    omega
  have hdrop := rest_eq hworm1
  have hnot : worm1 ∉ m.rest :=
    (List.nodup_cons.mp (hdrop ▸ h.nodup.sublist (List.drop_sublist _ _))).1
  apply rank_lt
  cases hnext : m'.app.worms[m'.i]? with
  | none =>
    -- that was the last one
    have hready' : m'.ready now = 0 := by
      unfold ready
      rw [hnext]
      rfl
    omega
  | some w =>
    have hrest : m.rest = w :: m'.rest := by
      rw [← rest_eq hnext, hworms]
      rfl
    have hspent : ∀ x ∈ m.rest, spent now (app.worm x) = spent now (m.app.worm x) := by
      intro x hx
      rw [hsame x fun heq => hnot (heq ▸ hx)]
    have hready' : m'.ready now = if spent now (m'.app.worm w) then 0 else 1 := ready_eq hnext
    by_cases hw : spent now (m'.app.worm w) = true
    · rw [if_pos hw] at hready'
      omega
    · -- it can have an offspring: one less until the next that cannot
      have hfirst : spent now (m.app.worm w) = false := by
        rw [← hspent w (by rw [hrest]; exact List.mem_cons_self)]
        exact Bool.eq_false_iff.mpr hw
      have huntil : m.untilSpent now = m'.untilSpent now + 1 := by
        have hiff : ∀ x ∈ m'.rest,
            spent now (m.app.worm x) = true ↔ spent now (m'.app.worm x) = true := by
          intro x hx
          rw [← hspent x (by rw [hrest]; exact List.mem_cons_of_mem w hx)]
        have hsame' : m'.rest.findIdx (fun x => spent now (m.app.worm x)) = m'.untilSpent now :=
          le_antisymm (List.findIdx_le_findIdx fun x hx => (hiff x hx).mpr)
            (List.findIdx_le_findIdx fun x hx => (hiff x hx).mp)
        rw [untilSpent, hrest, List.findIdx_cons, hfirst, ← hsame']
        rfl
      rw [if_neg hw] at hready'
      omega

/-- As long as the loops are not over, every turn makes the rank smaller. -/
theorem rank_turn (h : m.Peopled) {pairing : Pairing} (hnow : pairing.now = now)
    (hover : ¬ m.Over) : (m.turn env pairing).rank now < m.rank now := by
  obtain ⟨worm1, hworm1, ⟨worm2, hworm2, -, heq⟩ | ⟨worm2, hworm2, -, heq⟩ | ⟨-, heq⟩⟩ :=
    turn_cases env pairing hover
  · rw [heq]
    exact rank_meet h hnow hworm1 hworm2
  · have hj : m.j < m.app.worms.length := (List.getElem?_eq_some_iff.mp hworm2).1
    rw [heq]
    apply rank_lt
    refine .inr ⟨rfl, .inr ⟨rfl, .inr ⟨rfl, ?_⟩⟩⟩
    simp only
    omega
  · rw [heq]
    apply rank_next h hworm1
    · split_ifs <;> rfl
    · intro w hw
      split_ifs
      · rfl
      · rw [worm_modify, if_neg hw]

end MatingLoop

namespace PWViewController

open MatingLoop

variable {env : Platform} {s : PWViewController}

theorem peopled_matingLoop (hnodup : s.worms.Nodup) (hallocated : ∀ w ∈ s.worms, w < s.next) :
    s.matingLoop.Peopled := by
  unfold matingLoop
  rw [removeDead_eq]
  exact ⟨hnodup.sublist List.filter_sublist, fun w hw => hallocated w (List.mem_of_mem_filter hw),
    Nat.zero_lt_one⟩

/-- The loops over the pairs of worms end, wherever the worms are and whatever is drawn, if the
clock stands still while they run. -/
theorem matingLoop_over (env : Platform) (s : PWViewController) (hnodup : s.worms.Nodup)
    (hallocated : ∀ w ∈ s.worms, w < s.next) (pairings : ℕ → Pairing) (now : ℚ)
    (hnow : ∀ n, (pairings n).now = now) :
    ∃ n, (Runs.run (turn env) s.matingLoop ((List.range n).map pairings)).Over := by
  have hstep : ∀ (m : MatingLoop) (pairing : Pairing), m.Peopled → pairing.now = now →
      (m.turn env pairing).Peopled := fun m pairing h _ => h.turn pairing
  have hrank : ∀ (m : MatingLoop) (pairing : Pairing), m.Peopled → pairing.now = now → ¬ m.Over →
      (m.turn env pairing).rank now < m.rank now := fun m pairing h hnow hover =>
    rank_turn h hnow hover
  exact exists_over (rank now) hstep hrank (peopled_matingLoop hnodup hallocated) pairings hnow

/-- Three worms that all meet, with every coin for an offspring. -/
theorem matingLoop_over_three_worms :
    ∃ n, (Runs.run (turn .young) (population 3).matingLoop
      ((List.range n).map fun _ => pairingAt 10 true)).Over :=
  matingLoop_over .young _ (by decide) (by decide) _ 10 fun _ => rfl

end PWViewController

/-! ## The flag -/

namespace MatingLoop

open PWViewController

variable {env : Platform} {m : MatingLoop} {meets : ℕ → ℕ → Bool} {worms : List ℕ}

/-- A turn without a birth, where `meets` says whose boxes intersect. -/
def Quiet (env : Platform) (meets : ℕ → ℕ → Bool) (m : MatingLoop) (pairing : Pairing) : Prop :=
  (∀ worm1 ∈ m.app.worms[m.i]?, ∀ worm2 ∈ m.app.worms[m.j]?,
    pairing.intersects = meets worm1 worm2) ∧
  (m.turn env pairing).app.worms = m.app.worms

instance (env : Platform) (meets : ℕ → ℕ → Bool) (m : MatingLoop) (pairing : Pairing) :
    Decidable (m.Quiet env meets pairing) :=
  inferInstanceAs (Decidable ((∀ worm1 ∈ m.app.worms[m.i]?, ∀ worm2 ∈ m.app.worms[m.j]?,
    pairing.intersects = meets worm1 worm2) ∧ _))

/-- A worm's box intersects that of a worm after place `k`. -/
def MeetsLater (meets : ℕ → ℕ → Bool) (worms : List ℕ) (k w : ℕ) : Prop :=
  ∃ l w', k < l ∧ worms[l]? = some w' ∧ meets w w' = true

/-- A worm's box intersects that of a worm before place `k`. -/
def MeetsEarlier (meets : ℕ → ℕ → Bool) (worms : List ℕ) (k w : ℕ) : Prop :=
  ∃ l w', l < k ∧ worms[l]? = some w' ∧ meets w w' = true

/-- A worm's box intersects that of another worm. -/
def MeetsOther (meets : ℕ → ℕ → Bool) (worms : List ℕ) (w : ℕ) : Prop :=
  ∃ w' ∈ worms, w' ≠ w ∧ meets w w' = true

instance (meets : ℕ → ℕ → Bool) (worms : List ℕ) (w : ℕ) :
    Decidable (MeetsOther meets worms w) :=
  inferInstanceAs (Decidable (∃ w' ∈ worms, _))

/-- The flags of the worms that the outer loop is done with, and what the inner loop has found. -/
structure Flagged (meets : ℕ → ℕ → Bool) (worms : List ℕ) (m : MatingLoop) : Prop where
  worms_eq : m.app.worms = worms
  ahead : m.i < m.j
  done : ∀ k w, k < m.i → worms[k]? = some w →
    ((m.app.worm w).mating = true ↔ MeetsLater meets worms k w)
  found : ∀ w, worms[m.i]? = some w → (m.foundMate = true ↔
    ∃ l w', m.i < l ∧ l < m.j ∧ worms[l]? = some w' ∧ meets w w' = true)
  flag : ∀ w, worms[m.i]? = some w → m.foundMate = true → (m.app.worm w).mating = true

/-- Two places of the array hold two worms. -/
theorem ne_of_lt_getElem? (hnodup : worms.Nodup) {k l w w' : ℕ} (hlt : k < l)
    (hw : worms[k]? = some w) (hw' : worms[l]? = some w') : w ≠ w' := by
  intro heq
  obtain ⟨hk, rfl⟩ := List.getElem?_eq_some_iff.mp hw
  obtain ⟨hl, rfl⟩ := List.getElem?_eq_some_iff.mp hw'
  have hkl := (hnodup.getElem_inj_iff).mp heq
  omega

theorem Flagged.turn (hnodup : worms.Nodup) (h : m.Flagged meets worms) {pairing : Pairing}
    (hquiet : m.Quiet env meets pairing) : (m.turn env pairing).Flagged meets worms := by
  by_cases hover : m.Over
  · rwa [turn_of_over hover]
  obtain ⟨worm1, hworm1, ⟨worm2, hworm2, hmeets, heq⟩ | ⟨worm2, hworm2, hmeets, heq⟩ |
      ⟨hend, heq⟩⟩ :=
    turn_cases env pairing hover
  · -- two worms meet
    have hintersects : meets worm1 worm2 = true := (hquiet.1 worm1 hworm1 worm2 hworm2) ▸ hmeets
    have hcouple : m.app.meet env worm1 worm2 pairing = m.app.couple worm1 worm2 := by
      rcases meet_eq env m.app worm1 worm2 pairing with hcouple | ⟨-, -, p, n, audio, -, hborn⟩
      · exact hcouple
      · have hsame := hquiet.2
        rw [heq] at hsame
        simp only [hborn] at hsame
        exact absurd hsame (by simp [couple, date, PWViewController.modify])
    rw [h.worms_eq] at hworm1 hworm2
    rw [heq, hcouple]
    constructor
    · exact h.worms_eq
    · exact Nat.lt_succ_of_lt h.ahead
    · intro k w hk hw
      have hahead := h.ahead
      have hne1 := ne_of_lt_getElem? hnodup hk hw hworm1
      have hne2 := ne_of_lt_getElem? hnodup (hk.trans hahead) hw hworm2
      simp only [worm_couple, hne1, hne2, or_self, if_false]
      exact h.done k w hk hw
    · intro w hw
      have hw' : w = worm1 := Option.some.inj (hw.symm.trans hworm1)
      exact ⟨fun _ => ⟨m.j, worm2, h.ahead, Nat.lt_succ_self _, hworm2, hw' ▸ hintersects⟩,
        fun _ => rfl⟩
    · intro w hw _
      have hw' : w = worm1 := Option.some.inj (hw.symm.trans hworm1)
      simp [worm_couple, hw']
  · -- they do not
    have hintersects : meets worm1 worm2 = false := (hquiet.1 worm1 hworm1 worm2 hworm2) ▸ hmeets
    rw [h.worms_eq] at hworm1 hworm2
    rw [heq]
    refine ⟨h.worms_eq, Nat.lt_succ_of_lt h.ahead, h.done, fun w hw => ?_, h.flag⟩
    rw [h.found w hw]
    have hw' : w = worm1 := Option.some.inj (hw.symm.trans hworm1)
    constructor
    · intro hfound
      obtain ⟨l, w', hl, hlj, hlw, hm⟩ := hfound
      exact ⟨l, w', hl, Nat.lt_succ_of_lt hlj, hlw, hm⟩
    · intro hfound
      obtain ⟨l, w', hl, hlj, hlw, hm⟩ := hfound
      have hne : l ≠ m.j := by
        intro hlj'
        rw [hlj', hworm2] at hlw
        rw [← Option.some.inj hlw, hw', hintersects] at hm
        exact Bool.false_ne_true hm
      simp only at hlj
      exact ⟨l, w', hl, by omega, hlw, hm⟩
  · -- the worm has met all later ones
    rw [h.worms_eq] at hworm1 hend
    have hj : worms.length ≤ m.j := List.getElem?_eq_none_iff.mp hend
    have hlater : m.foundMate = true ↔ MeetsLater meets worms m.i worm1 := by
      rw [h.found worm1 hworm1]
      constructor
      · intro hfound
        obtain ⟨l, w', hl, -, hlw, hm⟩ := hfound
        exact ⟨l, w', hl, hlw, hm⟩
      · intro hfound
        obtain ⟨l, w', hl, hlw, hm⟩ := hfound
        have hlen : l < worms.length := (List.getElem?_eq_some_iff.mp hlw).1
        exact ⟨l, w', hl, by omega, hlw, hm⟩
    rw [heq]
    constructor
    · split_ifs
      · exact h.worms_eq
      · exact h.worms_eq
    · exact Nat.lt_succ_self _
    · intro k w hk hw
      simp only at hk ⊢
      by_cases hki : k = m.i
      · subst hki
        have hw' : w = worm1 := Option.some.inj (hw.symm.trans hworm1)
        subst hw'
        rw [← hlater]
        cases hfound : m.foundMate with
        | true => simpa using h.flag w hw hfound
        | false => simp
      · have hlt : k < m.i := by omega
        have hne := ne_of_lt_getElem? hnodup hlt hw hworm1
        rw [← h.done k w hlt hw]
        split_ifs
        · rfl
        · rw [worm_modify, if_neg hne]
    · intro w hw
      simp only [Bool.false_eq_true, false_iff]
      intro hfound
      obtain ⟨l, w', hl, hlj, -, -⟩ := hfound
      omega
    · intro w hw hfound
      exact absurd hfound Bool.false_ne_true

/-- A worm meets another if it meets one of the later or one of the earlier worms. -/
theorem meetsOther_iff (hnodup : worms.Nodup) {k w : ℕ} (hw : worms[k]? = some w) :
    MeetsOther meets worms w ↔ MeetsLater meets worms k w ∨ MeetsEarlier meets worms k w := by
  constructor
  · intro h
    obtain ⟨w', hmem, hne, hm⟩ := h
    obtain ⟨l, hl⟩ := List.mem_iff_getElem?.mp hmem
    rcases Nat.lt_trichotomy k l with hlt | heq | hlt
    · exact .inl ⟨l, w', hlt, hl, hm⟩
    · subst heq
      exact absurd (Option.some.inj (hl.symm.trans hw)) hne
    · exact .inr ⟨l, w', hlt, hl, hm⟩
  · intro h
    rcases h with ⟨l, w', hlt, hl, hm⟩ | ⟨l, w', hlt, hl, hm⟩
    · exact ⟨w', List.mem_of_getElem? hl, (ne_of_lt_getElem? hnodup hlt hw hl).symm, hm⟩
    · exact ⟨w', List.mem_of_getElem? hl, ne_of_lt_getElem? hnodup hlt hl hw, hm⟩

end MatingLoop

namespace PWViewController

open MatingLoop

variable {env : Platform} {s : PWViewController} {meets : ℕ → ℕ → Bool}

/-- The flag of a worm is set exactly if its box meets that of another one. -/
def FlagRight (meets : ℕ → ℕ → Bool) (s : PWViewController) (w : ℕ) : Prop :=
  (s.worm w).mating = true ↔ MeetsOther meets s.worms w

instance (meets : ℕ → ℕ → Bool) (s : PWViewController) (w : ℕ) :
    Decidable (FlagRight meets s w) := inferInstanceAs (Decidable (_ ↔ _))

theorem flagged_tick {pairings : List Pairing} (hnodup : s.worms.Nodup)
    (hquiet : Guarded (turn env) (Quiet env meets) s.matingLoop pairings) :
    (Runs.run (turn env) s.matingLoop pairings).Flagged meets s.removeDead.worms := by
  have hnodup' : s.removeDead.worms.Nodup := by
    rw [removeDead_eq]
    exact hnodup.sublist List.filter_sublist
  have hinit : s.matingLoop.Flagged meets s.removeDead.worms := by
    refine ⟨rfl, Nat.zero_lt_one, fun _ _ hk => absurd hk (Nat.not_lt_zero _), fun w _ => ?_,
      fun _ _ hfound => absurd hfound Bool.false_ne_true⟩
    constructor
    · intro hfound
      exact absurd hfound Bool.false_ne_true
    · intro hfound
      obtain ⟨l, w', hl, hlj, -, -⟩ := hfound
      have hl' : 0 < l := hl
      have hlj' : l < 1 := hlj
      omega
  have hstep : ∀ (m : MatingLoop) pairing, m.Flagged meets s.removeDead.worms →
      m.Quiet env meets pairing → (m.turn env pairing).Flagged meets s.removeDead.worms :=
    fun m pairing h hq => h.turn hnodup' hq
  exact invariant_of_guarded hstep hinit hquiet

/-- After a tick without a birth, the worms whose box meets that of a later one are mating. -/
theorem mating_tick {pairings : List Pairing} (hnodup : s.worms.Nodup)
    (hquiet : Guarded (turn env) (Quiet env meets) s.matingLoop pairings)
    (hover : (Runs.run (turn env) s.matingLoop pairings).Over) {k w : ℕ}
    (hw : (s.tick env pairings).worms[k]? = some w) :
    ((s.tick env pairings).worm w).mating = true ↔
      MeetsLater meets (s.tick env pairings).worms k w := by
  have hfinal := flagged_tick hnodup hquiet
  have hworms : (s.tick env pairings).worms = s.removeDead.worms := hfinal.worms_eq
  have hlen : k < (s.tick env pairings).worms.length := (List.getElem?_eq_some_iff.mp hw).1
  rw [hworms]
  exact hfinal.done k w (lt_of_lt_of_le hlen hover) (hworms ▸ hw)

theorem nodup_tick {pairings : List Pairing} (hnodup : s.worms.Nodup)
    (hquiet : Guarded (turn env) (Quiet env meets) s.matingLoop pairings) :
    (s.tick env pairings).worms.Nodup := by
  have hworms : (s.tick env pairings).worms = s.removeDead.worms :=
    (flagged_tick hnodup hquiet).worms_eq
  rw [hworms, removeDead_eq]
  exact hnodup.sublist List.filter_sublist

/-- After a tick without a birth, the flag of a worm is right if and only if its box meets that of
a worm behind it in the array, or of none before it. -/
theorem flagRight_tick_iff (env : Platform) (s : PWViewController) (hnodup : s.worms.Nodup)
    (meets : ℕ → ℕ → Bool) (pairings : List Pairing)
    (hquiet : Guarded (turn env) (Quiet env meets) s.matingLoop pairings)
    (hover : (Runs.run (turn env) s.matingLoop pairings).Over) (k w : ℕ)
    (hw : (s.tick env pairings).worms[k]? = some w) :
    FlagRight meets (s.tick env pairings) w ↔
      MeetsLater meets (s.tick env pairings).worms k w ∨
        ¬ MeetsEarlier meets (s.tick env pairings).worms k w := by
  unfold FlagRight
  rw [mating_tick hnodup hquiet hover hw, meetsOther_iff (nodup_tick hnodup hquiet) hw]
  by_cases hlater : MeetsLater meets (s.tick env pairings).worms k w
  · simp [hlater]
  · simp [hlater]

/-- All flags are right if and only if no two boxes meet. -/
theorem forall_flagRight_tick_iff (env : Platform) (s : PWViewController) (hnodup : s.worms.Nodup)
    (meets : ℕ → ℕ → Bool) (hsymm : ∀ x y, meets x y = meets y x) (pairings : List Pairing)
    (hquiet : Guarded (turn env) (Quiet env meets) s.matingLoop pairings)
    (hover : (Runs.run (turn env) s.matingLoop pairings).Over) :
    (∀ w ∈ (s.tick env pairings).worms, FlagRight meets (s.tick env pairings) w) ↔
      ∀ w ∈ (s.tick env pairings).worms, ¬ MeetsOther meets (s.tick env pairings).worms w := by
  set worms := (s.tick env pairings).worms with hworms
  have hnodup' : worms.Nodup := nodup_tick hnodup hquiet
  have hflag : ∀ k w, worms[k]? = some w →
      (((s.tick env pairings).worm w).mating = true ↔ MeetsLater meets worms k w) :=
    fun k w hw => mating_tick hnodup hquiet hover hw
  constructor
  · intro h
    -- from the end of the array: the last worm that meets another would meet a later one
    have hnone : ∀ n k w, worms.length - k = n → worms[k]? = some w →
        ¬ MeetsOther meets worms w := by
      intro n
      induction n using Nat.strong_induction_on with
      | _ n ih =>
        intro k w hn hw hother
        have hright := h w (List.mem_of_getElem? hw)
        obtain ⟨l, w', hlt, hl, hm⟩ := (hflag k w hw).mp (hright.mpr hother)
        have hlen : l < worms.length := (List.getElem?_eq_some_iff.mp hl).1
        refine ih (worms.length - l) (by omega) l w' rfl hl ⟨w, List.mem_of_getElem? hw, ?_, ?_⟩
        · exact ne_of_lt_getElem? hnodup' hlt hw hl
        · rw [hsymm]
          exact hm
    intro w hmem
    obtain ⟨k, hk⟩ := List.mem_iff_getElem?.mp hmem
    exact hnone _ k w rfl hk
  · intro h w hmem
    obtain ⟨k, hk⟩ := List.mem_iff_getElem?.mp hmem
    constructor
    · intro hmating
      have hlater := (hflag k w hk).mp hmating
      exact (meetsOther_iff hnodup' hk).mpr (.inl hlater)
    · intro hother
      exact absurd hother (h w hmem)

/-- A pair whose coin is against an offspring. -/
def barrenPairing (intersects : Bool) : Pairing :=
  ⟨intersects, 0, { OffspringDraws.plain with coin := ⟨0, Nat.zero_lt_two⟩ }⟩

/-- Three worms, of which the first meets the last: its flag is right. -/
theorem flagRight_tick_iff_of_three_worms :
    FlagRight (fun x y => x + y == 2 && x != y) ((population 3).tick
        .young ([false, true, false, false, false, false].map barrenPairing)) 0 ↔
      MeetsLater (fun x y => x + y == 2 && x != y)
          ((population 3).tick .young
            ([false, true, false, false, false, false].map barrenPairing)).worms 0 0 ∨
        ¬ MeetsEarlier (fun x y => x + y == 2 && x != y)
          ((population 3).tick .young
            ([false, true, false, false, false, false].map barrenPairing)).worms 0 0 :=
  flagRight_tick_iff .young (population 3) (by decide) _ _
    (by decide) (by decide) 0 0 (by decide)

/-- Two worms meet: the flag of the second is reset when it is its turn. -/
theorem not_flagRight : ¬ ∀ (env : Platform) (s : PWViewController) (meets : ℕ → ℕ → Bool)
    (pairings : List Pairing), s.worms.Nodup → (∀ x y, meets x y = meets y x) →
    Guarded (turn env) (Quiet env meets) s.matingLoop pairings →
    (Runs.run (turn env) s.matingLoop pairings).Over →
    ∀ w ∈ (s.tick env pairings).worms, FlagRight meets (s.tick env pairings) w := by
  intro h
  have hright := h .young (population 2) (fun x y => x != y)
    ([true, false, false].map barrenPairing) (by decide) (fun x y => bne_comm)
    (by decide) (by decide) 1 (by decide)
  exact absurd hright (by decide)

end PWViewController

end PoopWorms.App
