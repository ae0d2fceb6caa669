import PoopWorms.App.Motion

/-!
# Splotches

The handler keeps the splotches that have been dropped and not eaten in an array. A splotch
that is eaten leaves the array at once and explodes; the completion of its animation releases
it. What the animation retains it releases itself, so that is left out.
-/

namespace PoopWorms.App

open Runs

namespace SoundFood

/-- `imageForFoodId:`, on the IDs that do not raise an exception. -/
def imageForFoodId (foodId : Fin 7) : String :=
  ["blank.png", "circle.png", "square.png", "triangle.png", "noise.png", "wavypulse.png",
    "kick.png"].get foodId

/-- `imageForEffectId:`, on the IDs that do not raise an exception. -/
def imageForEffectId (effectId : Fin 4) : String :=
  ["distortion.png", "pitch.png", "flange.png", "echo.png"].get effectId

end SoundFood

/-- `isFood` and `itemId` are the two halves of the item. -/
structure PWSplotch where
  center : CGPoint
  item : Splotch
  originalString : String

/-- Less than `d` points away in both coordinates. -/
def CGPoint.near (d : ℚ) (p q : CGPoint) : Prop := |p.x - q.x| < d ∧ |p.y - q.y| < d

instance (d : ℚ) (p q : CGPoint) : Decidable (CGPoint.near d p q) :=
  inferInstanceAs (Decidable (_ ∧ _))

namespace PWSplotchHandler

inductive Act
  | retained (splotch : ℕ)
  | released (splotch : ℕ)
  | ate (worm splotch : ℕ)
  | killed (splotch : ℕ)
deriving DecidableEq

end PWSplotchHandler

/-- A splotch is the number under which it was allocated. `exploding` holds those of which the
animation has not been completed. -/
structure PWSplotchHandler where
  splotch : ℕ → PWSplotch
  next : ℕ
  splotchArray : List ℕ
  exploding : List ℕ
  log : List PWSplotchHandler.Act

namespace PWSplotchHandler

def density : ℚ := 20

variable (s : PWSplotchHandler)

def init : PWSplotchHandler where
  splotch := fun _ => ⟨⟨0, 0⟩, .food ⟨0, Nat.succ_pos 6⟩, ""⟩
  next := 0
  splotchArray := []
  exploding := []
  log := []

def note (acts : List Act) : PWSplotchHandler := { s with log := s.log ++ acts }

def nothingNearMe (touchPoint : CGPoint) : Bool :=
  s.splotchArray.all fun t => !decide (touchPoint.near density (s.splotch t).center)

def hitSplotch (wormPoint : CGPoint) : Option ℕ :=
  s.splotchArray.find? fun t => decide (wormPoint.near 40 (s.splotch t).center)

/-- `removeObject:`, of which the array releases the object if it holds it. -/
def removeObject (splotch : ℕ) : PWSplotchHandler :=
  { s with
    splotchArray := s.splotchArray.filter (· != splotch)
    log := s.log ++ List.replicate (s.splotchArray.count splotch) (.released splotch) }

def removeSplotch (splotch : ℕ) : PWSplotchHandler :=
  (s.removeObject splotch).note [.released splotch]

/-- `imageForFoodId:` or `imageForEffectId:`. -/
def imageName : Splotch → String
  | .food itemId => SoundFood.imageForFoodId itemId
  | .effect itemId => SoundFood.imageForEffectId itemId

/-- `handleTouchPoint:withItemId:isFood:`, with the value of `rand()`. The new object is
retained by its allocation and by the array. -/
def handleTouchPoint (touchPoint : CGPoint) (item : Splotch) (rand : ℕ) : PWSplotchHandler :=
  if rand % 1000 > 0 ∧ s.nothingNearMe touchPoint then
    { s with
      splotch := Function.update s.splotch s.next ⟨touchPoint, item, imageName item⟩
      next := s.next + 1
      splotchArray := s.splotchArray ++ [s.next]
      log := s.log ++ [.retained s.next, .retained s.next] }
  else s

/-- The animation begins. -/
def explodeMe (splotch : ℕ) : PWSplotchHandler :=
  { s with exploding := s.exploding ++ [splotch] }

/-- `handleWormPoint:withWorm:` -/
def handleWormPoint (wormPoint : CGPoint) (worm : ℕ) : PWSplotchHandler :=
  match s.hitSplotch wormPoint with
  | some hit => ((s.note [.ate worm hit]).removeObject hit).explodeMe hit
  | none => s

/-- The delegate method that the animation calls. -/
def killMe (splotch : ℕ) : PWSplotchHandler := (s.note [.killed splotch]).removeSplotch splotch

/-- The `k`-th of the animations that are running is completed. -/
def completion (k : ℕ) : PWSplotchHandler :=
  match s.exploding[k]? with
  | some splotch => { s with exploding := s.exploding.eraseIdx k }.killMe splotch
  | none => s

inductive Event
  | touchPoint (point : CGPoint) (item : Splotch) (rand : ℕ)
  | wormPoint (point : CGPoint) (worm : ℕ)
  | completion (k : ℕ)

def step (s : PWSplotchHandler) : Event → PWSplotchHandler
  | .touchPoint point item rand => s.handleTouchPoint point item rand
  | .wormPoint point worm => s.handleWormPoint point worm
  | .completion k => s.completion k

/-- The splotch that an act is about. -/
def Act.splotch : Act → ℕ
  | .retained t => t
  | .released t => t
  | .ate _ t => t
  | .killed t => t

/-- Whether a worm eats the splotch. -/
def Act.eats (splotch : ℕ) : Act → Bool
  | .ate _ t => t = splotch
  | _ => false

/-- How many of the references to a splotch are still held: by the array, and by the handler
until the explosion is over. -/
def held (splotch : ℕ) : ℕ :=
  if s.splotchArray.contains splotch then 2
  else if s.exploding.contains splotch then 1 else 0

/-- What holds of every handler. Retains and releases balance, but for the references that are
held, and none is held once the explosion is over. -/
structure Sound : Prop where
  nodup : s.splotchArray.Nodup
  spaced : ∀ t ∈ s.splotchArray, ∀ t' ∈ s.splotchArray, t ≠ t' →
    ¬ (s.splotch t).center.near density (s.splotch t').center
  eatenOnce : ∀ t, s.log.countP (Act.eats t) ≤ 1
  balance : ∀ t, s.log.count (.retained t) = s.log.count (.released t) + s.held t
  gone : ∀ t < s.next, s.held t = 0 ↔ .killed t ∈ s.log

/-- A head point eats nothing, or one splotch that it hits. -/
def OneBite (wormPoint : CGPoint) (worm : ℕ) : Prop :=
  ∃ acts, (s.handleWormPoint wormPoint worm).log = s.log ++ acts ∧
    ((∀ t, acts.countP (Act.eats t) = 0) ∨
      ∃ hit ∈ s.splotchArray, wormPoint.near 40 (s.splotch hit).center ∧
        ∀ t, acts.countP (Act.eats t) = if t = hit then 1 else 0)

/-- The acts about a splotch, in their order. -/
def trace (log : List Act) (splotch : ℕ) : List Act := log.filter fun act => act.splotch = splotch

/-- The invariant: the lists hold splotches that have been allocated, each once, and where a
splotch is tells what has happened to it. -/
structure Inv : Prop where
  nodup : (s.splotchArray ++ s.exploding).Nodup
  lt : ∀ t ∈ s.splotchArray ++ s.exploding, t < s.next
  spaced : ∀ t ∈ s.splotchArray, ∀ t' ∈ s.splotchArray, t ≠ t' →
    ¬ (s.splotch t).center.near density (s.splotch t').center
  unborn : ∀ t, s.next ≤ t → trace s.log t = []
  dropped : ∀ t ∈ s.splotchArray, trace s.log t = [.retained t, .retained t]
  eaten : ∀ t ∈ s.exploding, ∃ w,
    trace s.log t = [.retained t, .retained t, .ate w t, .released t]
  gone : ∀ t < s.next, t ∉ s.splotchArray → t ∉ s.exploding → ∃ w,
    trace s.log t =
      [.retained t, .retained t, .ate w t, .released t, .killed t, .released t]

variable {s}

/-! ## Traces -/

theorem countP_trace {p : Act → Bool} {t : ℕ} (hp : ∀ act, p act = true → act.splotch = t)
    (log : List Act) : log.countP p = (trace log t).countP p := by
  unfold trace
  rw [List.countP_filter]
  congr 1
  ext act
  cases h : p act with
  | false => simp
  | true => simp [hp act h]

theorem count_trace (act : Act) (log : List Act) :
    log.count act = (trace log act.splotch).count act :=
  countP_trace (fun act' h => by rw [beq_iff_eq.mp h]) log

/-- What happens to one splotch leaves no trace in the others. -/
theorem trace_append {acts : List Act} {u : ℕ} (hacts : ∀ act ∈ acts, act.splotch = u)
    (log : List Act) (t : ℕ) :
    trace (log ++ acts) t = if t = u then trace log t ++ acts else trace log t := by
  unfold trace
  rw [List.filter_append]
  split_ifs with h
  · rw [List.filter_eq_self.mpr fun act hact => decide_eq_true ((hacts act hact).trans h.symm)]
  · have hnone : (acts.filter fun act => act.splotch = t) = [] := by
      rw [List.filter_eq_nil_iff]
      intro act hact htrue
      exact h ((of_decide_eq_true htrue).symm.trans (hacts act hact))
    rw [hnone, List.append_nil]

/-! ## Steps -/

theorem CGPoint.near_comm {d : ℚ} {p q : CGPoint} : p.near d q ↔ q.near d p := by
  unfold CGPoint.near
  rw [abs_sub_comm p.x, abs_sub_comm p.y]

theorem nothingNearMe_eq_true {p : CGPoint} :
    s.nothingNearMe p = true ↔ ∀ t ∈ s.splotchArray, ¬ p.near density (s.splotch t).center := by
  simp [nothingNearMe]

theorem held_eq_zero {t : ℕ} : s.held t = 0 ↔ t ∉ s.splotchArray ∧ t ∉ s.exploding := by
  unfold held
  split_ifs with h h' <;> simp_all

theorem inv_init : Inv init where
  nodup := List.nodup_nil
  lt := fun _ h => absurd h List.not_mem_nil
  spaced := fun _ h => absurd h List.not_mem_nil
  unborn := fun _ _ => rfl
  dropped := fun _ h => absurd h List.not_mem_nil
  eaten := fun _ h => absurd h List.not_mem_nil
  gone := fun _ h => absurd h (Nat.not_lt_zero _)

/-- A touch drops nothing, or one splotch that is away from the others. -/
theorem Inv.handleTouchPoint (h : Inv s) (p : CGPoint) (item : Splotch) (rand : ℕ) :
    Inv (s.handleTouchPoint p item rand) := by
  unfold PWSplotchHandler.handleTouchPoint
  split_ifs with hdrop
  · have hfar := nothingNearMe_eq_true.mp hdrop.2
    have hnew : s.next ∉ s.splotchArray ++ s.exploding := fun ht => absurd (h.lt _ ht) (lt_irrefl _)
    rw [List.mem_append, not_or] at hnew
    have htrace : ∀ t, trace (s.log ++ [.retained s.next, .retained s.next]) t =
        if t = s.next then trace s.log t ++ [.retained s.next, .retained s.next]
        else trace s.log t := trace_append (by simp [Act.splotch]) s.log
    have hold : ∀ t ∈ s.splotchArray, t ≠ s.next := fun t ht heq => hnew.1 (heq ▸ ht)
    refine ⟨?_, ?_, ?_, ?_, ?_, ?_, ?_⟩
    · have hperm : (s.splotchArray ++ [s.next] ++ s.exploding).Perm
          (s.next :: (s.splotchArray ++ s.exploding)) := by
        rw [List.append_assoc, List.singleton_append]
        exact List.perm_middle
      rw [hperm.nodup_iff, List.nodup_cons, List.mem_append, not_or]
      exact ⟨hnew, h.nodup⟩
    · intro t ht
      have hlt := h.lt t
      simp only [List.mem_append, List.mem_singleton] at ht hlt
      have hsucc : t < s.next ∨ t = s.next := by tauto
      exact Nat.lt_succ_iff_lt_or_eq.mpr hsucc
    · -- the new one is the last of the array
      intro t ht t' ht' hne
      simp only [List.mem_append, List.mem_singleton] at ht ht'
      rcases ht with ht | rfl <;> rcases ht' with ht' | rfl
      · simpa [Function.update_of_ne (hold t ht), Function.update_of_ne (hold t' ht')] using
          h.spaced t ht t' ht' hne
      · simpa [Function.update_of_ne (hold t ht)] using
          fun hnear => hfar t ht (CGPoint.near_comm.mp hnear)
      · simpa [Function.update_of_ne (hold t' ht')] using hfar t' ht'
      · exact absurd rfl hne
    · intro t ht
      have hlt : s.next + 1 ≤ t := ht
      rw [htrace, if_neg (by omega), h.unborn t (by omega)]
    · intro t ht
      rcases List.mem_append.mp ht with ht | ht
      · rw [htrace, if_neg (hold t ht), h.dropped t ht]
      · have heq : t = s.next := List.mem_singleton.mp ht
        rw [htrace, if_pos heq, h.unborn t (le_of_eq heq.symm), heq]
        rfl
    · intro t ht
      have hne : t ≠ s.next := fun heq => hnew.2 (heq ▸ ht)
      rw [htrace, if_neg hne]
      exact h.eaten t ht
    · intro t hlt ht ht'
      rw [List.mem_append, not_or] at ht
      have hne : t ≠ s.next := fun heq => ht.2 (List.mem_singleton.mpr heq)
      rw [htrace, if_neg hne]
      exact h.gone t (by have : t < s.next + 1 := hlt; omega) ht.1 ht'
  · exact h

/-- What a head point does: nothing, or a splotch that it hits goes from the array to the
explosions. -/
theorem handleWormPoint_cases (h : s.splotchArray.Nodup) (p : CGPoint) (worm : ℕ) :
    s.handleWormPoint p worm = s ∨
      ∃ hit ∈ s.splotchArray, p.near 40 (s.splotch hit).center ∧
        s.handleWormPoint p worm =
          { s with
            splotchArray := s.splotchArray.filter (· != hit)
            exploding := s.exploding ++ [hit]
            log := s.log ++ [.ate worm hit, .released hit] } := by
  cases hhit : s.hitSplotch p with
  | none =>
    left
    unfold handleWormPoint
    rw [hhit]
  | some hit =>
    right
    have hmem := List.mem_of_find?_eq_some hhit
    have hnear := List.find?_some hhit
    refine ⟨hit, hmem, of_decide_eq_true hnear, ?_⟩
    unfold handleWormPoint
    rw [hhit]
    simp [removeObject, note, explodeMe, List.count_eq_one_of_mem h hmem]

theorem Inv.handleWormPoint (h : Inv s) (p : CGPoint) (worm : ℕ) :
    Inv (s.handleWormPoint p worm) := by
  rcases handleWormPoint_cases h.nodup.of_append_left p worm with heq | ⟨hit, hmem, -, heq⟩
  · rwa [heq]
  · have htrace : ∀ t, trace (s.log ++ [.ate worm hit, .released hit]) t =
        if t = hit then trace s.log t ++ [.ate worm hit, .released hit] else trace s.log t :=
      trace_append (by simp [Act.splotch]) s.log
    have hdisj : ∀ t ∈ s.splotchArray, t ∉ s.exploding := fun t ht ht' =>
      (List.nodup_append.mp h.nodup).2.2 t ht t ht' rfl
    have hlt : hit < s.next := h.lt hit (List.mem_append_left _ hmem)
    have hfilter : ∀ t, t ∈ s.splotchArray.filter (· != hit) ↔ t ∈ s.splotchArray ∧ t ≠ hit := by
      intro t
      simp
    rw [heq]
    refine ⟨?_, ?_, ?_, ?_, ?_, ?_, ?_⟩
    · have hperm : (s.splotchArray.filter (· != hit) ++ (s.exploding ++ [hit])).Perm
          (s.splotchArray ++ s.exploding) := by
        rw [← h.nodup.of_append_left.erase_eq_filter]
        have hcons := (List.perm_cons_erase hmem).append_right s.exploding
        refine (List.Perm.trans ?_ hcons.symm)
        rw [← List.append_assoc, List.cons_append]
        exact List.perm_append_singleton _ _
      exact hperm.nodup_iff.mpr h.nodup
    · intro t ht
      have := h.lt t
      simp only [List.mem_append, List.mem_singleton, hfilter] at ht this ⊢
      rcases ht with ht | ht | rfl
      · exact this (.inl ht.1)
      · exact this (.inr ht)
      · exact hlt
    · intro t ht t' ht'
      exact h.spaced t ((hfilter t).mp ht).1 t' ((hfilter t').mp ht').1
    · intro t ht
      have hle : s.next ≤ t := ht
      rw [htrace, if_neg (by omega), h.unborn t hle]
    · intro t ht
      have ht := (hfilter t).mp ht
      rw [htrace, if_neg ht.2, h.dropped t ht.1]
    · intro t ht
      rcases List.mem_append.mp ht with ht | ht
      · have hne : t ≠ hit := fun heq => hdisj hit hmem (heq ▸ ht)
        rw [htrace, if_neg hne]
        exact h.eaten t ht
      · have heq : t = hit := List.mem_singleton.mp ht
        refine ⟨worm, ?_⟩
        rw [htrace, if_pos heq, heq, h.dropped hit hmem]
        rfl
    · intro t hlt ht ht'
      simp only [List.mem_append, List.mem_singleton, not_or] at ht'
      rw [htrace, if_neg ht'.2]
      exact h.gone t hlt (fun hmem => ht ((hfilter t).mpr ⟨hmem, ht'.2⟩)) ht'.1

/-- What a completion does: nothing, or the splotch leaves the explosions and is released. -/
theorem completion_cases (h : (s.splotchArray ++ s.exploding).Nodup) (k : ℕ) :
    s.completion k = s ∨
      ∃ t ∈ s.exploding, s.completion k =
        { s with
          exploding := s.exploding.erase t
          log := s.log ++ [.killed t, .released t] } := by
  cases ht : s.exploding[k]? with
  | none =>
    left
    unfold completion
    rw [ht]
  | some t =>
    right
    have hmem : t ∈ s.exploding := List.mem_of_getElem? ht
    have hnot : t ∉ s.splotchArray := fun ht' =>
      (List.nodup_append.mp h).2.2 t ht' t hmem rfl
    have hfilter : s.splotchArray.filter (· != t) = s.splotchArray := by
      rw [List.filter_eq_self]
      intro u hu
      exact bne_iff_ne.mpr fun heq => hnot (heq ▸ hu)
    have herase : s.exploding.eraseIdx k = s.exploding.erase t := by
      obtain ⟨hk, rfl⟩ := List.getElem?_eq_some_iff.mp ht
      exact (h.of_append_right.erase_getElem k hk).symm
    refine ⟨t, hmem, ?_⟩
    unfold completion
    rw [ht]
    simp [killMe, removeSplotch, removeObject, note, hfilter, herase, List.count_eq_zero_of_not_mem hnot]

theorem Inv.completion (h : Inv s) (k : ℕ) : Inv (s.completion k) := by
  rcases completion_cases h.nodup k with heq | ⟨u, hmem, heq⟩
  · rwa [heq]
  · have htrace : ∀ t, trace (s.log ++ [.killed u, .released u]) t =
        if t = u then trace s.log t ++ [.killed u, .released u] else trace s.log t :=
      trace_append (by simp [Act.splotch]) s.log
    have hnot : ∀ t ∈ s.splotchArray, t ≠ u := fun t ht heq =>
      (List.nodup_append.mp h.nodup).2.2 t ht u hmem heq
    have hlt : u < s.next := h.lt u (List.mem_append_right _ hmem)
    have herase : ∀ t, t ∈ s.exploding.erase u ↔ t ≠ u ∧ t ∈ s.exploding := fun t =>
      h.nodup.of_append_right.mem_erase_iff
    rw [heq]
    refine ⟨?_, ?_, h.spaced, ?_, ?_, ?_, ?_⟩
    · exact h.nodup.sublist (List.erase_sublist.append_left _)
    · intro t ht
      refine h.lt t ?_
      simp only [List.mem_append, herase] at ht ⊢
      exact ht.imp_right And.right
    · intro t ht
      have hle : s.next ≤ t := ht
      rw [htrace, if_neg (by omega), h.unborn t hle]
    · intro t ht
      rw [htrace, if_neg (hnot t ht), h.dropped t ht]
    · intro t ht
      have ht := (herase t).mp ht
      rw [htrace, if_neg ht.1]
      exact h.eaten t ht.2
    · intro t hlt ht ht'
      by_cases hu : t = u
      · obtain ⟨w, hw⟩ := h.eaten u hmem
        refine ⟨w, ?_⟩
        rw [htrace, if_pos hu, hu, hw]
        rfl
      · rw [htrace, if_neg hu]
        exact h.gone t hlt ht fun hmem => ht' ((herase t).mpr ⟨hu, hmem⟩)

theorem Inv.step (h : Inv s) (e : Event) : Inv (s.step e) := by
  cases e with
  | touchPoint point item rand => exact h.handleTouchPoint point item rand
  | wormPoint point worm => exact h.handleWormPoint point worm
  | completion k => exact h.completion k

/-! ## Runs -/

/-- The life of a splotch: it is dropped, it is eaten and leaves the array, it is over. -/
theorem Inv.life (h : Inv s) (t : ℕ) :
    (s.next ≤ t ∧ s.held t = 0 ∧ trace s.log t = []) ∨
      (s.held t = 2 ∧ trace s.log t = [.retained t, .retained t]) ∨
      (s.held t = 1 ∧ ∃ w,
        trace s.log t = [.retained t, .retained t, .ate w t, .released t]) ∨
      (s.held t = 0 ∧ ∃ w, trace s.log t =
        [.retained t, .retained t, .ate w t, .released t, .killed t, .released t]) := by
  by_cases harray : t ∈ s.splotchArray
  · exact .inr (.inl ⟨by simp [held, harray], h.dropped t harray⟩)
  by_cases hexploding : t ∈ s.exploding
  · exact .inr (.inr (.inl ⟨by simp [held, harray, hexploding], h.eaten t hexploding⟩))
  have hzero : s.held t = 0 := held_eq_zero.mpr ⟨harray, hexploding⟩
  by_cases hlt : t < s.next
  · exact .inr (.inr (.inr ⟨hzero, h.gone t hlt harray hexploding⟩))
  · exact .inl ⟨not_lt.mp hlt, hzero, h.unborn t (not_lt.mp hlt)⟩

theorem Inv.sound (h : Inv s) : Sound s where
  nodup := h.nodup.of_append_left
  spaced := h.spaced
  eatenOnce := by
    intro t
    have hcount := countP_trace (p := Act.eats t) (t := t)
      (fun act hact => by cases act <;> simp_all [Act.eats, Act.splotch]) s.log
    rw [hcount]
    rcases h.life t with ⟨-, -, ht⟩ | ⟨-, ht⟩ | ⟨-, w, ht⟩ | ⟨-, w, ht⟩ <;> simp [ht, Act.eats]
  balance := by
    intro t
    have hretained : s.log.count (.retained t) = (trace s.log t).count (.retained t) :=
      count_trace _ s.log
    have hreleased : s.log.count (.released t) = (trace s.log t).count (.released t) :=
      count_trace _ s.log
    rw [hretained, hreleased]
    rcases h.life t with ⟨-, hheld, ht⟩ | ⟨hheld, ht⟩ | ⟨hheld, w, ht⟩ | ⟨hheld, w, ht⟩ <;>
      simp [ht, hheld]
  gone := by
    intro t hlt
    have hmem : .killed t ∈ s.log ↔ .killed t ∈ trace s.log t := by
      simp [trace, Act.splotch]
    rw [hmem]
    rcases h.life t with ⟨hle, -⟩ | ⟨hheld, ht⟩ | ⟨hheld, w, ht⟩ | ⟨hheld, w, ht⟩
    · omega
    all_goals simp [ht, hheld]

end PWSplotchHandler

end PoopWorms.App
