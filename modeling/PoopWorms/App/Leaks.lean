import PoopWorms.App.ModelTheorems

/-!
# Worms that leave the population

The sweep of a controller tick removes a dead worm without clearing it: the worm goes on
ticking, and its nodes stay on the server. `clearStuff` clears everything in the population,
also a worm that has cleared itself. Where neither happens, every worm outside the population
has been cleared, once.
-/

namespace PoopWorms.App

open Octets Server Runs

namespace PWViewController

variable {env : Platform} {s s' : PWViewController}

/-- A worm that has not been cleared is in the population, or is the current worm; no worm is
cleared twice; and a worm that has left the population was cleared, and neither moves nor eats
again. -/
structure NoLeak (s : PWViewController) : Prop where
  member : ∀ w < s.next, Act.cleared w ∉ s.log → w ∈ s.worms ∨ s.currentWorm = some w
  once : ∀ w, s.log.count (.cleared w) ≤ 1
  left : ∀ w, Act.left w ∈ s.log → s.log.count (.cleared w) = 1
  neverMoves : NeverAfter Act.left Act.moved s.log
  neverEats : NeverAfter Act.left Act.ate s.log

/-- The sweep removes only worms that have lost their body, which is what `clearWorm` leaves
of them, and `clearStuff` finds only worms that have one. -/
def LeavesCleared (s : PWViewController) : Event → Prop
  | .tick _ => ∀ w ∈ s.worms, s.Removable w → (s.worm w).splotchWorm = none
  | .clearStuff => ∀ w ∈ s.worms, (s.worm w).splotchWorm.isSome
  | _ => True

/-- A worm is registered for ticks, has a body and is in the population until it is cleared,
which happens once. -/
structure Accounted (s : PWViewController) (w : ℕ) : Prop where
  observing : (s.worm w).observing = (s.worm w).splotchWorm.isSome
  count : s.log.count (.cleared w) = if (s.worm w).splotchWorm.isSome then 0 else 1
  mem : (s.worm w).splotchWorm.isSome → w ∈ s.worms

structure LeakState (s : PWViewController) : Prop where
  accounted : ∀ w < s.next, s.Accounted w
  count_unborn : ∀ w, s.next ≤ w → s.log.count (.cleared w) = 0
  left : ∀ w, Act.left w ∈ s.log → w < s.next ∧ (s.worm w).splotchWorm = none
  neverMoves : NeverAfter Act.left Act.moved s.log
  neverEats : NeverAfter Act.left Act.ate s.log

theorem LeakState.init : LeakState init where
  accounted := fun _ hw => absurd hw (Nat.not_lt_zero _)
  count_unborn := fun _ _ => rfl
  left := fun _ hw => absurd hw List.not_mem_nil
  neverMoves := neverAfter_nil
  neverEats := neverAfter_nil

theorem LeakState.noLeak (h : LeakState s) : NoLeak s := by
  refine ⟨fun w hw hcleared => ?_, fun w => ?_, fun w hleft => ?_, h.neverMoves, h.neverEats⟩
  · have hcount := (h.accounted w hw).count
    rw [List.count_eq_zero_of_not_mem hcleared] at hcount
    split_ifs at hcount with hbody
    exact .inl ((h.accounted w hw).mem hbody)
  · by_cases hw : w < s.next
    · have hcount := (h.accounted w hw).count
      split_ifs at hcount <;> omega
    · have hcount := h.count_unborn w (not_lt.mp hw)
      omega
  · rcases h.left w hleft with ⟨hlt, hbody⟩
    rw [(h.accounted w hlt).count, hbody]
    rfl

/-- What clears no worm does not count. -/
theorem count_cleared_append {log l : List Act} {w : ℕ} (hl : Act.cleared w ∉ l) :
    (log ++ l).count (.cleared w) = log.count (.cleared w) := by
  rw [List.count_append, List.count_eq_zero_of_not_mem hl, add_zero]

/-- Acts that clear nothing, remove nothing, and come from worms with a body. -/
structure Harmless (s : PWViewController) (l : List Act) : Prop where
  not_cleared : ∀ w, Act.cleared w ∉ l
  not_left : ∀ w, Act.left w ∉ l
  moved : ∀ w, Act.moved w ∈ l → (s.worm w).splotchWorm.isSome
  ate : ∀ w, Act.ate w ∈ l → (s.worm w).splotchWorm.isSome

theorem harmless_nil : Harmless s [] :=
  ⟨fun _ => List.not_mem_nil, fun _ => List.not_mem_nil, fun _ h => absurd h List.not_mem_nil,
    fun _ h => absurd h List.not_mem_nil⟩

theorem harmless_born (now : ℚ) (mother father : ℕ) :
    Harmless s [.born now mother father] := by
  constructor <;> simp

theorem harmless_fired (n w : ℕ) : Harmless s (List.replicate n (.fired w)) := by
  constructor <;> simp [List.mem_replicate]

/-- Harmless acts of the worms that were there before keep the account. -/
theorem LeakState.harmless (h : LeakState s) {l : List Act} (hl : Harmless s l)
    (hlog : s'.log = s.log ++ l) (hnext : s.next ≤ s'.next)
    (hold : ∀ w < s.next, (s'.worm w).observing = (s.worm w).observing ∧
      (s'.worm w).splotchWorm.isSome = (s.worm w).splotchWorm.isSome)
    (hmem : ∀ w ∈ s.worms, w ∈ s'.worms)
    (hnew : ∀ w, s.next ≤ w → w < s'.next → (s'.worm w).observing ∧
      (s'.worm w).splotchWorm.isSome ∧ w ∈ s'.worms) : LeakState s' := by
  have hcount : ∀ w, s'.log.count (.cleared w) = s.log.count (.cleared w) := by
    intro w
    rw [hlog, count_cleared_append (hl.not_cleared w)]
  -- whoever acts has a body, so it has not left
  have hgone : ∀ w, (s.worm w).splotchWorm.isSome → Act.left w ∉ s.log ++ l := by
    intro w hbody hleft
    rcases List.mem_append.mp hleft with hleft | hleft
    · rw [(h.left w hleft).2] at hbody
      exact absurd hbody Bool.false_ne_true
    · exact hl.not_left w hleft
  refine ⟨fun w hw => ?_, fun w hw => ?_, fun w hw => ?_, ?_, ?_⟩
  · by_cases hlt : w < s.next
    · have hacc := h.accounted w hlt
      rcases hold w hlt with ⟨hobserving, hbody⟩
      refine ⟨?_, ?_, ?_⟩
      · rw [hobserving, hbody]
        exact hacc.observing
      · rw [hcount, hbody]
        exact hacc.count
      · rw [hbody]
        exact fun hb => hmem w (hacc.mem hb)
    · rcases hnew w (not_lt.mp hlt) hw with ⟨hobserving, hbody, hin⟩
      refine ⟨by rw [hobserving, hbody], ?_, fun _ => hin⟩
      rw [hcount, if_pos hbody]
      exact h.count_unborn w (not_lt.mp hlt)
  · rw [hcount]
    exact h.count_unborn w (by omega)
  · rw [hlog] at hw
    rcases List.mem_append.mp hw with hw | hw
    · rcases h.left w hw with ⟨hlt, hbody⟩
      have hbody' := (hold w hlt).2
      rw [hbody] at hbody'
      exact ⟨by omega, by simpa using hbody'⟩
    · exact absurd hw (hl.not_left w)
  · rw [hlog]
    exact h.neverMoves.append fun w hw => hgone w (hl.moved w hw)
  · rw [hlog]
    exact h.neverEats.append fun w hw => hgone w (hl.ate w hw)

/-- Nothing happens to the worms or to the log. -/
theorem LeakState.of_same (h : LeakState s) (hlog : s'.log = s.log) (hnext : s'.next = s.next)
    (hold : ∀ w < s.next, (s'.worm w).observing = (s.worm w).observing ∧
      (s'.worm w).splotchWorm.isSome = (s.worm w).splotchWorm.isSome)
    (hmem : s'.worms = s.worms) : LeakState s' :=
  h.harmless harmless_nil (by rw [hlog, List.append_nil]) hnext.ge hold
    (fun w hw => hmem ▸ hw) fun w hge hlt => by omega

theorem LeakState.turned (h : LeakState s) (ht : Turned s s') : LeakState s' := by
  have hold : ∀ w < s.next, (s'.worm w).observing = (s.worm w).observing ∧
      (s'.worm w).splotchWorm.isSome = (s.worm w).splotchWorm.isSome := by
    intro w hw
    rw [ht.alike w (by omega)]
    exact ⟨rfl, rfl⟩
  rcases ht.born with ⟨-, hnext, hworms, hlog⟩
    | ⟨p, hp, halike, hnext, hworms, now, mother, father, hlog⟩
  · exact h.of_same hlog hnext hold hworms
  · refine h.harmless (harmless_born now mother father) hlog (by omega) hold
      (fun w hw => hworms ▸ List.mem_append_left _ hw) fun w hge hlt => ?_
    have heq : w = s.next := by omega
    rw [heq, halike, hworms]
    exact ⟨hp.observing, by rw [hp.splotchWorm]; rfl, by simp⟩

/-- The sweep removes worms that are no longer to be accounted for. -/
theorem LeakState.removeDead (hs : Allocated s) (h : LeakState s)
    (hg : ∀ w ∈ s.worms, s.Removable w → (s.worm w).splotchWorm = none) :
    LeakState s.removeDead := by
  rw [removeDead_eq]
  have hcount : ∀ w, (s.log ++ (s.worms.filter fun w => s.Removable w).map Act.left).count
      (.cleared w) = s.log.count (.cleared w) := fun w => count_cleared_append (by simp)
  refine ⟨fun w hw => ⟨(h.accounted w hw).observing, ?_, fun hbody => ?_⟩, fun w hw => ?_,
    fun w hw => ?_, h.neverMoves.append (by simp), h.neverEats.append (by simp)⟩
  · rw [hcount]
    exact (h.accounted w hw).count
  · have hmem := (h.accounted w hw).mem hbody
    refine List.mem_filter.mpr ⟨hmem, decide_eq_true fun hremovable => ?_⟩
    rw [hg w hmem hremovable] at hbody
    exact absurd hbody Bool.false_ne_true
  · rw [hcount]
    exact h.count_unborn w hw
  · rcases List.mem_append.mp hw with hw | hw
    · exact h.left w hw
    · simp only [List.mem_map, List.mem_filter, decide_eq_true_eq, Act.left.injEq] at hw
      rcases hw with ⟨x, ⟨hmem, hremovable⟩, rfl⟩
      exact ⟨hs.worms x hmem, hg x hmem hremovable⟩

/-- A worm clears itself. -/
theorem LeakState.clears (hs : Allocated s) (h : LeakState s) {w : ℕ} {q : PWWorm}
    {acts : List Act} (audio : Audio) (hobserving : (s.worm w).observing)
    (hdies : Dies w (s.worm w) q acts) :
    LeakState { s.modify w (fun _ => q) with audio, log := s.log ++ acts } := by
  have hlt : w < s.next := by
    by_contra hge
    rw [(hs.idle w (not_lt.mp hge)).1] at hobserving
    exact absurd hobserving Bool.false_ne_true
  have hacc := h.accounted w hlt
  have hbody : (s.worm w).splotchWorm.isSome := hacc.observing ▸ hobserving
  have hcount : s.log.count (.cleared w) = 0 := by
    rw [hacc.count, if_pos hbody]
  have hq : q.observing = false ∧ q.splotchWorm = none := by
    rw [hdies.eq]
    exact ⟨rfl, rfl⟩
  rw [hdies.clears]
  refine ⟨fun x hx => ?_, fun x hx => ?_, fun x hx => ?_, h.neverMoves.append (by simp),
    h.neverEats.append (by simp)⟩
  · by_cases heq : x = w
    · subst heq
      refine ⟨?_, ?_, ?_⟩ <;> simp only [worm_modify_self, hq.1, hq.2]
      · rfl
      · rw [List.count_append, hcount]
        simp
      · exact fun hfalse => absurd hfalse Bool.false_ne_true
    · refine ⟨?_, ?_, ?_⟩ <;> simp only [worm_modify, if_neg heq]
      · exact (h.accounted x hx).observing
      · rw [count_cleared_append (by simp [heq])]
        exact (h.accounted x hx).count
      · exact (h.accounted x hx).mem
  · have hne : x ≠ w := by
      rintro rfl
      exact absurd hlt (not_lt.mpr hx)
    rw [count_cleared_append (by simp [hne])]
    exact h.count_unborn x hx
  · have hleft : Act.left x ∈ s.log := by simpa using hx
    refine ⟨(h.left x hleft).1, ?_⟩
    simp only [worm_modify]
    split_ifs
    · exact hq.2
    · exact (h.left x hleft).2

/-- Everything in the population is cleared, and nothing else needs to be. -/
theorem LeakState.clearStuff (hs : Allocated s) (h : LeakState s)
    (hg : ∀ w ∈ s.worms, (s.worm w).splotchWorm.isSome) (audio : Audio) :
    LeakState { s with
      worm := fun w => if w ∈ s.worms then (s.worm w).clear else s.worm w
      worms := []
      audio
      log := s.log ++ s.worms.map .cleared ++ s.worms.map .left } := by
  have hcount : ∀ w, (s.log ++ s.worms.map Act.cleared ++ s.worms.map Act.left).count
      (.cleared w) = s.log.count (.cleared w) + s.worms.count w := by
    intro w
    have hinj : Function.Injective Act.cleared := fun _ _ heq => Act.cleared.inj heq
    rw [count_cleared_append (by simp), List.count_append, List.count_map_of_injective _ _ hinj]
  refine ⟨fun w hw => ?_, fun w hw => ?_, fun w hw => ?_, ?_, ?_⟩
  · have hacc := h.accounted w hw
    by_cases hmem : w ∈ s.worms
    · refine ⟨?_, ?_, ?_⟩ <;> simp only [if_pos hmem]
      · rfl
      · rw [hcount, hacc.count, if_pos (hg w hmem), List.count_eq_one_of_mem hs.nodup hmem]
        rfl
      · exact fun hfalse => absurd hfalse Bool.false_ne_true
    · have hbody : (s.worm w).splotchWorm.isSome = false :=
        Bool.eq_false_iff.mpr fun hbody => hmem (hacc.mem hbody)
      refine ⟨?_, ?_, ?_⟩ <;> simp only [if_neg hmem]
      · exact hacc.observing
      · rw [hcount, hacc.count, List.count_eq_zero_of_not_mem hmem, add_zero]
      · rw [hbody]
        exact fun hfalse => absurd hfalse Bool.false_ne_true
  · have hmem : w ∉ s.worms := fun hmem => absurd (hs.worms w hmem) (not_lt.mpr hw)
    rw [hcount, h.count_unborn w hw, List.count_eq_zero_of_not_mem hmem]
  · by_cases hmem : w ∈ s.worms
    · simp only [if_pos hmem]
      exact ⟨hs.worms w hmem, rfl⟩
    · simp only [if_neg hmem]
      refine h.left w ?_
      simpa [hmem] using hw
  · rw [List.append_assoc]
    exact h.neverMoves.append (by simp)
  · rw [List.append_assoc]
    exact h.neverEats.append (by simp)

theorem LeakState.handle (hs : Allocated s) (h : LeakState s) (e : Event)
    (hg : s.LeavesCleared e) : LeakState (s.handle env e) := by
  have hs' := handled env s e
  generalize s.handle env e = s' at hs' ⊢
  cases hs' with
  | quiet => exact h.of_same rfl rfl (fun _ _ => ⟨rfl, rfl⟩) rfl
  | started yPercent p audio hp =>
    refine h.harmless harmless_nil (List.append_nil _).symm (Nat.le_succ _) (fun w hw => ?_)
      (fun w hw => List.mem_append_left _ hw) fun w hge hlt => ?_
    · simp only [withWorm, Function.update_of_ne hw.ne]
      exact ⟨trivial, trivial⟩
    · have heq : w = s.next := by
        simp only [withWorm] at hlt
        omega
      subst heq
      simp only [withWorm, Function.update_self, hp.observing, hp.splotchWorm]
      simp
  | noted inBorder yPercent w event hcreating hw =>
    refine h.of_same rfl rfl (fun x _ => ?_) rfl
    simp only [worm_modify]
    split_ifs with heq
    · subst heq
      exact ⟨rfl, rfl⟩
    · exact ⟨rfl, rfl⟩
  | stopped w hw =>
    refine h.of_same rfl rfl (fun x _ => ?_) rfl
    simp only [stopCreating, worm_modify]
    split_ifs with heq
    · subst heq
      exact ⟨rfl, Option.isSome_map⟩
    · exact ⟨rfl, rfl⟩
  | stoppedNothing hnone => exact h.of_same rfl rfl (fun _ _ => ⟨rfl, rfl⟩) rfl
  | wormTicked w input q acts audio hobserving hq =>
    rcases hq with hlives | hdies
    · have hbody : ∀ x, Act.moved x ∈ acts ∨ Act.ate x ∈ acts →
          (s.worm x).splotchWorm.isSome := by
        intro x hx
        have hsome : (s.worm w).splotchWorm = some ⟨true⟩ := by
          by_contra hne
          simp [hlives.body hne] at hx
        have heq : x = w := by
          rcases hx with hx | hx <;> simpa using hlives.moves _ hx
        rw [heq, hsome]
        rfl
      refine h.harmless (l := acts) ⟨fun x hx => ?_, fun x hx => ?_, fun x hx => hbody x (.inl hx),
        fun x hx => hbody x (.inr hx)⟩ rfl le_rfl (fun x _ => ?_) (fun _ hx => hx)
        fun x hge hlt => absurd hlt (not_lt.mpr hge)
      · simpa using hlives.moves _ hx
      · simpa using hlives.moves _ hx
      · simp only [worm_modify]
        split_ifs with heq
        · subst heq
          rw [hlives.eq]
          exact ⟨rfl, rfl⟩
        · exact ⟨rfl, rfl⟩
    · exact h.clears hs audio hobserving hdies
  | sequenceTicked w order audio hobserving =>
    refine h.harmless (harmless_fired _ w) rfl le_rfl (fun x _ => ?_) (fun _ hx => hx)
      fun x hge hlt => absurd hlt (not_lt.mpr hge)
    simp only [worm_modify]
    split_ifs with heq
    · subst heq
      exact ⟨rfl, rfl⟩
    · exact ⟨rfl, rfl⟩
  | ticked pairings =>
    exact tick_invariant (fun _ _ => LeakState.turned) (h.removeDead hs hg) pairings
  | cleared audio => exact h.clearStuff hs hg audio

end PWViewController

end PoopWorms.App
