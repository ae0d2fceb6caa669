import PoopWorms.Server.Life

/-!
# The end of a node is not lost

`Node_End` only installs a calc function, and so does everything else that can happen to a
node. As long as no node that was ended is paused, or leaves a loop that installs another
function at its end, the node stays marked until it is freed, and it is freed in the next
cycle that computes its parent.
-/

namespace PoopWorms.Server

open Octets Forest LinkedList World

namespace Engine

variable {e e' e₀ e₁ : Engine} {kids : NodeID → List NodeID} {c c' : Config} {a : Atom}
  {n p s x : NodeID} {b F rest : List NodeID} {f : NodeCalcFunc} {r : Request}
  {events more : List NodeEvent}

/-! ## What installs another function -/

/-- `Node_End` was the last to choose the calc function. -/
def Ended (e : Engine) (n : NodeID) : Prop := (e.graph n).mCalcFunc = .nodeDelete

/-- No node that was ended is paused, or leaves a loop that installs another function. -/
def endAtom (e : Engine) : Atom → Prop
  | .op (.nodePause n) => ¬ e.Ended n
  | .finish f n => f.atEnd = none ∨ ¬ e.Ended n
  | _ => True

def endRequest (e : Engine) (r : Request) : Prop := ∀ n, e.pauses r n → ¬ e.Ended n

def endRules : Rules := ⟨endRequest, endAtom⟩

theorem Ended.of_eq (h : e.Ended n) (hgraph : e'.graph n = e.graph n) : e'.Ended n := by
  rw [Ended, hgraph]
  exact h

/-- Another node gets another function. -/
theorem Ended.setCalcFunc (h : e.Ended n) (hs : n = s → f = .nodeDelete) :
    (e.setCalcFunc s f).Ended n := by
  by_cases hns : n = s
  · subst hns
    rw [Ended, setCalcFunc_self]
    exact hs rfl
  · exact h.of_eq (setCalcFunc_of_ne e hns f)

theorem Ended.finished (h : e.Ended n) (hguard : f.atEnd = none ∨ ¬ e.Ended s) :
    (e.finished f s).Ended n := by
  unfold Engine.finished
  cases hend : f.atEnd with
  | none => exact h
  | some g =>
    apply h.setCalcFunc
    rintro rfl
    rw [hend] at hguard
    exact absurd h (hguard.resolve_left nofun)

/-- A node that gets its turn is marked as before. -/
theorem Turn.ended_iff (ht : Turn c x b rest e) : e.Ended n ↔ c.engine.Ended n := by
  by_cases hnx : n = x
  · subst hnx
    obtain ⟨f, hself, hf⟩ := ht.self
    rw [Ended, Ended, hself]
    rcases hf with rfl | ⟨hgroup, rfl | rfl⟩
    · rfl
    · rw [hgroup]
      exact iff_of_false nofun nofun
    · rw [hgroup]
      exact iff_of_false nofun nofun
  · rw [Ended, Ended, ht.kept n hnx]

/-! ## What happens to an ended node -/

/-- `more` happens, and an ended node is freed, or it is still there and marked. -/
structure EndKept (n : NodeID) (e : Engine) (more : List NodeEvent) (e' : Engine) : Prop where
  log : e'.log = e.log ++ more
  kept : n ∈ e.world.mNodeLib → e.Ended n →
    .freed n ∈ more ∨ n ∈ e'.world.mNodeLib ∧ e'.Ended n

/-- Nothing is freed. -/
theorem EndKept.of_table (hlog : e'.log = e.log ++ more)
    (htable : n ∈ e.world.mNodeLib → n ∈ e'.world.mNodeLib)
    (hkept : n ∈ e.world.mNodeLib → e.Ended n → e'.Ended n) : EndKept n e more e' :=
  ⟨hlog, fun hn h => .inr ⟨htable hn, hkept hn h⟩⟩

theorem EndKept.trans {more' : List NodeEvent} (h : EndKept n e more e₁)
    (h' : EndKept n e₁ more' e') : EndKept n e (more ++ more') e' where
  log := by rw [h'.log, h.log, List.append_assoc]
  kept hn hended := by
    rcases h.kept hn hended with hfreed | ⟨hn, hended⟩
    · exact .inl (List.mem_append_left _ hfreed)
    · exact (h'.kept hn hended).imp_left (List.mem_append_right _)

/-- A freed node is in the log. -/
theorem Freed.endKept (hfreed : Freed e F e') (n : NodeID) : ∃ more, EndKept n e more e' := by
  obtain ⟨events, hlog, hevents⟩ := hfreed.log
  refine ⟨events, hlog, fun hn h => ?_⟩
  by_cases hnF : n ∈ F
  · exact .inl ((hevents _).mpr ⟨n, hnF, rfl⟩)
  · exact .inr ⟨(hfreed.table n).mpr ⟨hn, hnF⟩, h.of_eq (hfreed.kept n hnF)⟩

/-- The turn of a node. -/
theorem Turn.endKept (ht : Turn c x b rest e) (n : NodeID) :
    ∃ more, EndKept n c.engine more (e.noteCall x) := by
  refine ⟨_, .of_table ((noteCall_log e x).trans (by rw [ht.log])) ?_ fun _ h => ?_⟩
  · rw [noteCall_world, ht.world]
    exact id
  · exact (ht.ended_iff.mpr h).of_eq (congrFun (noteCall_graph e x) n)

theorem endKept_finished {stack : List Frame} (ha : f.atEnd = none ∨ ¬ e.Ended s) :
    EndKept n e [] ({ e with stack }.finished f s) := by
  refine .of_table ((finished_log ..).trans (List.append_nil _).symm) ?_ fun _ h => ?_
  · rw [finished_world]
    exact id
  · exact Ended.finished (e := { e with stack }) h ha

/-- An effect that is allowed frees an ended node, or leaves it marked. -/
theorem Effect.endKept (ha : endAtom c.engine a) (heffect : Effect c a c') (n : NodeID) :
    ∃ more, EndKept n c.engine more c'.engine := by
  cases heffect with
  | @ended s _ => exact ⟨[.ended s], .of_table rfl id fun _ h => h.setCalcFunc fun _ => rfl⟩
  | @paused s _ =>
    refine ⟨[.paused s], .of_table rfl id fun _ h => h.setCalcFunc ?_⟩
    rintro rfl
    exact absurd h ha
  | freed _ hfreed _ _ => exact hfreed.endKept n
  | @unit f s call calls stack path _ _ =>
    refine ⟨[], .of_table (List.append_nil _).symm id fun _ h => ?_⟩
    show (Function.update c.engine.graph s _ n).mCalcFunc = .nodeDelete
    by_cases hns : n = s
    · subst hns
      rw [Function.update_self]
      exact h
    · rw [Function.update_of_ne hns]
      exact h
  | finishGroup _ _ => exact ⟨[], endKept_finished ha⟩
  | finishGraph _ _ _ => exact ⟨[], endKept_finished ha⟩
  | @finishFirst s stack path _ _ =>
    have hkept : EndKept n c.engine [] ({ c.engine with stack }.finished .graphFirstCalc s) :=
      endKept_finished ha
    exact ⟨[], .of_table hkept.log id fun hn h => ((hkept.kept hn h).resolve_left nofun).2⟩
  | skip ht _ => exact ht.endKept n
  | delete ht _ _ hfreed =>
    obtain ⟨more, hmore⟩ := ht.endKept n
    obtain ⟨more', hmore'⟩ := hfreed.endKept n
    exact ⟨more ++ more', hmore.trans hmore'⟩
  | enter ht _ _ =>
    obtain ⟨more, hmore⟩ := ht.endKept n
    exact ⟨more, hmore.log, hmore.kept⟩

/-- The new node is another one. -/
theorem Made.endKept {g : Graph} (hmade : Made e s g e') (n : NodeID) : EndKept n e [] e' := by
  refine .of_table (hmade.log.trans (List.append_nil _).symm) ?_ fun hn h => h.of_eq ?_
  · rw [hmade.table]
    exact Finset.mem_insert_of_mem
  · rw [hmade.graph]
    exact Function.update_of_ne (ne_of_mem_of_not_mem hn hmade.fresh) ..

/-- A request that is allowed frees an ended node, or leaves it marked. -/
theorem Outcome.endKept (hr : endRequest e r) (houtcome : Outcome e r e') (n : NodeID) :
    ∃ more, EndKept n e more e' := by
  cases houtcome with
  | relinked hrelinked =>
    obtain ⟨w, rfl, htable, -⟩ := hrelinked
    exact ⟨[], .of_table (List.append_nil _).symm (fun hn => htable.symm ▸ hn) fun _ h => h⟩
  | made hmade => exact ⟨[], hmade.endKept n⟩
  | replaced hmade hfreed _ =>
    obtain ⟨more, hmore⟩ := hfreed.endKept n
    exact ⟨[] ++ more, (hmade.endKept n).trans hmore⟩
  | freed hfreed _ => exact hfreed.endKept n
  | @calcFunc s f _ _ hold =>
    refine ⟨[], .of_table (List.append_nil _).symm id fun _ h => h.setCalcFunc ?_⟩
    rintro rfl
    rw [Ended] at h
    rw [h] at hold
    rcases hold with hold | ⟨hold, -⟩ | ⟨hold, -⟩ | ⟨hold, -⟩
    · exact hold.symm
    all_goals cases hold
  | @paused s _ hpauses =>
    refine ⟨[.paused s], .of_table rfl id fun _ h => h.setCalcFunc ?_⟩
    rintro rfl
    exact absurd h (hr n hpauses)

/-- A run that is allowed frees an ended node, or leaves it marked. -/
theorem Alive.endKept {run : List EngineEvent} (hc : Alive c) (n : NodeID)
    (hlife : LifeAllowed endRules c.engine run) :
    ∃ c' : Config, ∃ more, c.engine.life run = some c'.engine ∧
      EndKept n c.engine more c'.engine := by
  have hstart : ∃ more, EndKept n c.engine more c.engine :=
    ⟨[], .of_table (List.append_nil _).symm id fun _ h => h⟩
  obtain ⟨c', hrun, -, more, hmore⟩ := life_induction (R := endRules)
    (P := fun e => ∃ more, EndKept n c.engine more e)
    (fun _ _ _ _ _ ⟨more, hmore⟩ hr houtcome => by
      obtain ⟨more', hmore'⟩ := houtcome.endKept hr n
      exact ⟨more ++ more', hmore.trans hmore'⟩)
    (fun _ _ _ _ ⟨more, hmore⟩ ha heffect => by
      obtain ⟨more', hmore'⟩ := heffect.endKept ha n
      exact ⟨more ++ more', hmore.trans hmore'⟩) hc hstart hlife
  exact ⟨c', more, hrun, hmore⟩

/-! ## The cycle that computes the parent -/

/-- While an ended node is there, its turn is still to come, or its parent is not computed. -/
structure Ending (n p : NodeID) (events : List NodeEvent) (c : Config) : Prop where
  kid : n ∈ c.kids p
  ended : c.engine.Ended n
  turn : n ∈ c.pend ∨ .computed p ∉ events

/-- The parent of a node that is below `x` is `x` or below `x`. -/
theorem Config.Sound.parent_within (hc : c.Sound) (hb : Spans c.kids (c.kids x) b)
    (hkid : n ∈ c.kids p) (hn : n ∈ b) : p ∈ x :: b := by
  rcases hb.root_or_kid hn with hroot | ⟨y, hy, hkid'⟩
  · rw [hc.tree.toTree.parent_unique p x n hkid hroot]
    exact List.mem_cons_self
  · rw [hc.tree.toTree.parent_unique p y n hkid hkid']
    exact List.mem_cons_of_mem _ hy

/-- A node is below `x` if its parent is `x` or below `x`. -/
theorem mem_below_of_parent (hb : Spans c.kids (c.kids x) b) (hkid : n ∈ c.kids p)
    (hp : p ∈ x :: b) : n ∈ b := by
  rcases List.mem_cons.mp hp with rfl | hp
  · exact hb.mem_of_root hkid
  · exact hb.mem_of_kid hp hkid

/-- When an ended node leaves the nodes to come, its parent has not been computed. -/
theorem Ending.turn_effect (h : Ending n p events c) (hc : c.Sound) (hfate : Fate e₀ events c)
    (hadvance : Advance e₀ events c more c') (heffect : Effect c a c') (hn0 : n ≠ 0#32)
    (hn' : n ∈ c'.engine.world.mNodeLib) : n ∈ c'.pend ∨ .computed p ∉ events ++ more := by
  -- what has just been computed has left the nodes to come
  have hleft : .computed p ∈ more → p ∈ c.pend ∧ p ∉ c'.pend := fun hp =>
    hadvance.turn p (hadvance.called p hp)
  have hstay : (n ∈ c.pend → n ∈ c'.pend) → .computed p ∉ more →
      n ∈ c'.pend ∨ .computed p ∉ events ++ more := by
    intro hpend hmore
    rcases h.turn with hn | hp
    · exact .inl (hpend hn)
    · exact .inr fun hmem => (List.mem_append.mp hmem).elim hp hmore
  cases heffect with
  | freed _ hfreed hclosed _ =>
    have hnF := ((hfreed.table n).mp hn').2
    apply hstay
    · intro hn
      exact List.mem_filter.mpr ⟨hn, by simpa using hnF⟩
    · intro hp
      obtain ⟨hpend, hnot⟩ := hleft hp
      exact hnF (hclosed p (by simpa [hpend] using hnot) n h.kid)
  | @skip x b rest e ht hf =>
    have hmore : more = [.called x] := by
      have hlog := hadvance.log
      have hcomputes : (e.graph x).mCalcFunc.computes = false := by
        rcases hf with hf | ⟨hf, -⟩
        · rw [hf]
          rfl
        · rw [hf]
          rfl
      rw [show _ = (e.noteCall x).log from rfl, noteCall_log, hcomputes, ht.log] at hlog
      exact (List.append_cancel_left hlog).symm
    have hp : .computed p ∉ more := by
      rw [hmore]
      simp
    by_cases hnb : n ∈ x :: b
    · right
      have hnx : n ≠ x := by
        rintro rfl
        have hended : (e.graph n).mCalcFunc = .nodeDelete := ht.ended_iff.mpr h.ended
        rw [hended] at hf
        exact hn0 (hf.resolve_left nofun).2
      have hpb := hc.parent_within ht.spans h.kid ((List.mem_cons.mp hnb).resolve_left hnx)
      have hpend : p ∈ c.pend := by
        rw [ht.pend, ← List.cons_append]
        exact List.mem_append_left _ hpb
      exact fun hmem => (List.mem_append.mp hmem).elim
        (fun hp => hfate.waiting p hpend (hfate.called p hp)) hp
    · apply hstay _ hp
      intro hn
      rw [ht.pend, ← List.cons_append, List.mem_append] at hn
      exact hn.resolve_left hnb
  | @delete x b rest e e' ht _ _ hfreed =>
    have hnb := ((hfreed.table n).mp hn').2
    apply hstay
    · intro hn
      rw [ht.pend, ← List.cons_append, List.mem_append] at hn
      exact hn.resolve_left hnb
    · intro hp
      obtain ⟨hpend, hnot⟩ := hleft hp
      rw [ht.pend, ← List.cons_append, List.mem_append] at hpend
      exact hnb (List.mem_cons_of_mem _
        (mem_below_of_parent ht.spans h.kid (hpend.resolve_right hnot)))
  | @enter x b rest e ht _ hend =>
    have hnx : n ≠ x := by
      rintro rfl
      exact hend (ht.ended_iff.mpr h.ended)
    by_cases hp : .computed p ∈ more
    · -- the turn of the parent has come, and with it that of the node
      obtain ⟨hpend, hnot⟩ := hleft hp
      rw [ht.pend] at hpend
      have hpx : p = x := (List.mem_cons.mp hpend).resolve_right hnot
      exact .inl (List.mem_append_left _
        (mem_below_of_parent ht.spans h.kid (hpx ▸ List.mem_cons_self)))
    · apply hstay _ hp
      intro hn
      rw [ht.pend] at hn
      exact (List.mem_cons.mp hn).resolve_left hnx
  | _ => exact hstay id fun hp => absurd (hleft hp).1 (hleft hp).2

/-- A child that is not freed stays where it is. -/
theorem Effect.kid_kept (heffect : Effect c a c') (hkid : n ∈ c.kids p)
    (hn' : n ∈ c'.engine.world.mNodeLib) : n ∈ c'.kids p := by
  have hwithout : ∀ {F : List NodeID}, Closed c.kids F → n ∉ F → n ∈ Forest.without c.kids F p :=
    fun hclosed hnF => mem_without.mpr ⟨fun hpF => hnF (hclosed p hpF n hkid), hkid, hnF⟩
  cases heffect with
  | freed _ hfreed hclosed _ => exact hwithout hclosed ((hfreed.table n).mp hn').2
  | delete ht _ _ hfreed => exact hwithout (closed_below ht.spans) ((hfreed.table n).mp hn').2
  | _ => exact hkid

/-- An effect of the cycle keeps that. -/
theorem Ending.effect (h : Ending n p events c) (hc : c.Sound) (hfate : Fate e₀ events c)
    (hadvance : Advance e₀ events c more c') (heffect : Effect c a c') (ha : endAtom c.engine a)
    (hn0 : n ≠ 0#32) (hn' : n ∈ c'.engine.world.mNodeLib) :
    Ending n p (events ++ more) c' where
  kid := heffect.kid_kept h.kid hn'
  ended := by
    obtain ⟨more', hmore⟩ := heffect.endKept ha n
    have hlog := hadvance.log.symm.trans hmore.log
    obtain rfl := List.append_cancel_left hlog
    have hn := hadvance.table n hn'
    exact ((hmore.kept hn h.ended).resolve_left fun hfreed => hadvance.freed n hfreed hn').2
  turn := h.turn_effect hc hfate hadvance heffect hn0 hn'

/-- What holds in the course of a cycle: an ended node that is still there is about to be freed, or
its parent is not computed. -/
structure Closing (e₀ : Engine) (n p : NodeID) (events : List NodeEvent) (c : Config) : Prop where
  fate : Fate e₀ events c
  ending : n ∈ c.engine.world.mNodeLib → Ending n p events c

/-- Every effect that is allowed adds to the cycle. -/
theorem Closing.effect (h : Closing e₀ n p events c) (hn0 : n ≠ 0#32)
    (heffect : EffectAllowed endRules c c') : ∃ more, Closing e₀ n p (events ++ more) c' := by
  obtain ⟨a, hc, ha, heffect⟩ := heffect
  obtain ⟨more, hadvance⟩ := heffect.advance h.fate hc.toSound
  refine ⟨more, h.fate.advance hc.toSound hadvance, fun hn' => ?_⟩
  exact (h.ending (hadvance.table n hn')).effect hc.toSound h.fate hadvance heffect ha hn0 hn'

theorem Closing.effects (h : Closing e₀ n p events c) (hn0 : n ≠ 0#32)
    (heffects : Relation.ReflTransGen (EffectAllowed endRules) c c') :
    ∃ more, Closing e₀ n p (events ++ more) c' := by
  induction heffects with
  | refl =>
    refine ⟨[], ?_⟩
    rw [List.append_nil]
    exact h
  | tail _ heffect ih =>
    obtain ⟨more, hmore⟩ := ih
    obtain ⟨more', hmore'⟩ := hmore.effect hn0 heffect
    refine ⟨more ++ more', ?_⟩
    rw [← List.append_assoc]
    exact hmore'

/-- Steps that are allowed. -/
theorem Closing.steps (h : Closing e₀ n p events c) (hn0 : n ≠ 0#32) (hc : Alive c)
    (fires : List (List ℕ)) (hlife : LifeAllowed endRules c.engine (fires.map .step)) :
    ∃ c' more, c.engine.life (fires.map .step) = some c'.engine ∧ Alive c' ∧
      Closing e₀ n p (events ++ more) c' := by
  induction fires generalizing c events with
  | nil =>
    refine ⟨c, [], rfl, hc, ?_⟩
    rw [List.append_nil]
    exact h
  | cons fire fires ih =>
    obtain ⟨c₁, hstep, hc₁, heffects⟩ := hc.step hlife.1
    obtain ⟨more, h₁⟩ := h.effects hn0 heffects
    obtain ⟨c', more', hrun, hc', h'⟩ := ih h₁ hc₁ (hlife.2 _ hstep)
    refine ⟨c', more ++ more', ?_, hc', ?_⟩
    · rw [List.map_cons, Engine.life]
      show (c.engine.step fire).bind _ = _
      rw [hstep]
      exact hrun
    · rw [← List.append_assoc]
      exact h'

/-- A cycle that is allowed and computes the parent of an ended node frees the node. -/
theorem Idle.end_freed (h : Idle e kids) (hn : n ∈ e.world.mNodeLib) (hended : e.Ended n)
    (hparent : (e.world.mNode n).mParent = some p) (fires : List (List ℕ))
    (hlife : LifeAllowed endRules e (.run :: fires.map .step)) :
    ∃ e' more, e.life (.run :: fires.map .step) = some e' ∧ e'.log = e.log ++ more ∧
      (e'.stack = [] → .computed p ∈ more → n ∉ e'.world.mNodeLib) := by
  obtain ⟨b, c₁, hb, hrun, halive, hlooping, heffect⟩ := h.run
  have hkid : n ∈ kids p := h.complete n hn p hparent
  have hn0 : n ≠ 0#32 := (h.mem p n hkid).2.1
  have hclosing : Closing (e.restrict (0#32 :: b)) n p [] ⟨e, kids, [], 0#32 :: b⟩ :=
    ⟨hlooping.toSound.fate, fun _ => ⟨hkid, hended, .inr List.not_mem_nil⟩⟩
  obtain ⟨more, h₁⟩ := hclosing.effect hn0 ⟨_, hlooping, hlife.1.2, heffect⟩
  obtain ⟨c', more', hsteps, hc', h'⟩ := h₁.steps hn0 halive fires
    (hlife.2 _ (by rw [next, if_pos h.idle]; exact hrun))
  refine ⟨c'.engine, _, ?_, h'.fate.log, fun hdone hp hn' => ?_⟩
  · rw [Engine.life, next, if_pos h.idle, hrun]
    exact hsteps
  · -- no node is to come
    have hnil : c'.pend = [] := by
      have hloops := hc'.loops
      rw [hdone] at hloops
      exact hloops.eq_nil
    rcases (h'.ending hn').turn with hpend | hp'
    · rw [hnil] at hpend
      cases hpend
    · exact hp' hp

/-! ## Runs -/

/-- Whatever run has come before, as long as no node that was ended is paused again, or leaves a
loop that installs another calc function: a node that `Node_End` was applied to stays marked until
it is freed, whatever comes, and the next cycle that computes its parent frees it. -/
theorem end_not_lost (inOptions : WorldOptions) (graphDefs : List (List Byte))
    (before : List EngineEvent) (hbefore : LifeAllowed .all (new inOptions graphDefs) before) :
    ∃ e, (new inOptions graphDefs).life before = some e ∧
      ∀ n ∈ e.world.mNodeLib, e.Ended n →
        (∀ after, LifeAllowed endRules e after → ∃ e' more, e.life after = some e' ∧
          e'.log = e.log ++ more ∧
          (.freed n ∈ more ∨ n ∈ e'.world.mNodeLib ∧ e'.Ended n)) ∧
        (e.stack = [] → ∀ p, (e.world.mNode n).mParent = some p → ∀ fires : List (List ℕ),
          LifeAllowed endRules e (.run :: fires.map .step) →
          ∃ e' more, e.life (.run :: fires.map .step) = some e' ∧ e'.log = e.log ++ more ∧
            (e'.stack = [] → .computed p ∈ more → n ∉ e'.world.mNodeLib)) := by
  obtain ⟨c, hrun, halive, -⟩ := life_induction (P := fun _ => True)
    (fun _ _ _ _ _ _ _ _ => trivial) (fun _ _ _ _ _ _ _ => trivial)
    (idle_new inOptions graphDefs).alive trivial hbefore
  refine ⟨c.engine, hrun, fun n hn hended => ⟨fun after hafter => ?_,
    fun hidle p hparent fires hfires =>
      (halive.idle hidle).end_freed hn hended hparent fires hfires⟩⟩
  obtain ⟨c', more, hlife, hkept⟩ := halive.endKept n hafter
  exact ⟨c'.engine, more, hlife, hkept.log, hkept.kept hn hended⟩

/-- A synth that ended itself in its first calculation is marked after the cycle. -/
theorem end_not_lost_endsItself : ∃ e, (new kDefaultWorldOptions [[1#8]]).life
    [.request (.sNew [1#8] 2#32 0#32 0#32 1 [0]), .run, .step [], .step [], .step [], .step [2],
      .step [], .step []] = some e ∧
    ∀ after, LifeAllowed endRules e after → ∃ e' more, e.life after = some e' ∧
      e'.log = e.log ++ more ∧ (.freed 2#32 ∈ more ∨ 2#32 ∈ e'.world.mNodeLib ∧ e'.Ended 2#32) := by
  obtain ⟨e, hrun, hends⟩ := end_not_lost kDefaultWorldOptions [[1#8]]
    [.request (.sNew [1#8] 2#32 0#32 0#32 1 [0]), .run, .step [], .step [], .step [], .step [2],
      .step [], .step []]
    (lifeAllowed_of_plain (by simp [plain]) (by rfl))
  have hmarked : ((new kDefaultWorldOptions [[1#8]]).life
      [.request (.sNew [1#8] 2#32 0#32 0#32 1 [0]), .run, .step [], .step [], .step [], .step [2],
        .step [], .step []]).any (fun e =>
      2#32 ∈ e.world.mNodeLib ∧ (e.graph 2#32).mCalcFunc = .nodeDelete) = true := by rfl
  rw [hrun, Option.any_some, decide_eq_true_iff] at hmarked
  exact ⟨e, hrun, (hends 2#32 hmarked.1 hmarked.2).1⟩

end Engine

end PoopWorms.Server
