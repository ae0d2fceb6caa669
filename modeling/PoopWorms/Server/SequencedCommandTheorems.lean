import PoopWorms.Server.SequencedCommand
import Mathlib.Algebra.BigOperators.Group.List.Basic

/-!
# The two threads do what `CallEveryStage` does

A command is always at one place of `Progress`: not started, in exactly one message of one
fifo, or deleted. What it has done and what is left for it make up the effects of
`CallEveryStage` at every step, and each message that is performed uses up some `work`.
-/

namespace PoopWorms.Server

/-- The thread that an effect belongs on: odd stages and the destructor are real time. -/
def Effect.thread : Effect → Thread
  | .stage n => if n % 2 = 1 then .realTime else .nonRealTime
  | .delete => .realTime

/-- A stage, and then the rest if it returned true. -/
theorem callEveryStage_eq (stage : ℕ → Bool) {n : ℕ} (hn : 1 ≤ n) (hn' : n ≤ 4) :
    callEveryStage stage n = .stage n ::
      if n < 4 ∧ stage n then callEveryStage stage (n + 1) else [.delete] := by
  obtain rfl | rfl | rfl | rfl : n = 1 ∨ n = 2 ∨ n = 3 ∨ n = 4 := by omega
  · cases h : stage 1 <;> simp [callEveryStage, h]
  · cases h : stage 2 <;> simp [callEveryStage, h]
  · cases h : stage 3 <;> simp [callEveryStage, h]
  · simp [callEveryStage]

/-! ## Messages of a command -/

def FifoMsg.about (cmd : CommandID) : FifoMsg → Bool
  | .doSequencedCommand c => c = cmd
  | .freeSequencedCommand c => c = cmd
  | .other => false

/-- The messages of a queue that are about a command. -/
def mail (cmd : CommandID) (q : List FifoMsg) : List FifoMsg := q.filter (FifoMsg.about cmd)

/-- How far a command is, by its next stage, what it has done, and its messages. -/
inductive Progress (stage : ℕ → Bool) (cmd : CommandID) :
    ℕ → List Effect → List FifoMsg → List FifoMsg → Prop
  | created : Progress stage cmd 1 [] [] []
  | toNonRealTime {n : ℕ} {done : List Effect} (hn : n = 2 ∨ n = 4)
      (hrest : done ++ callEveryStage stage n = callEveryStage stage 1) :
      Progress stage cmd n done [.doSequencedCommand cmd] []
  | toRealTime {n : ℕ} {done : List Effect} (hn : n = 3)
      (hrest : done ++ callEveryStage stage n = callEveryStage stage 1) :
      Progress stage cmd n done [] [.doSequencedCommand cmd]
  | toDelete {n : ℕ} {done : List Effect} (hn : 2 ≤ n)
      (hrest : done ++ [.delete] = callEveryStage stage 1) :
      Progress stage cmd n done [] [.freeSequencedCommand cmd]
  | deleted {n : ℕ} {done : List Effect} (hn : 2 ≤ n) (hrest : done = callEveryStage stage 1) :
      Progress stage cmd n done [] []

namespace Driver

variable {k : ℕ} {stage : CommandID → ℕ → Bool} {s s' : Driver k} {qf qt : List FifoMsg}
  {thread : Thread} {cmd : CommandID} {fifo fifo' : MsgFifo FifoMsg (2 ^ k)} {q : List FifoMsg}
  {msg : FifoMsg}

/-- `q` waits behind the message that is being performed, if one is. -/
def Waiting (performing : Bool) (fifo : MsgFifo FifoMsg (2 ^ k)) (q : List FifoMsg) : Prop :=
  ∃ now : List FifoMsg, fifo.Carries (now ++ q) ∧ now.length = if performing then 1 else 0

theorem Waiting.write {performing : Bool} (h : Waiting performing fifo q)
    (hw : fifo.write msg = some fifo') : Waiting performing fifo' (q ++ [msg]) := by
  obtain ⟨now, hcarries, hlen⟩ := h
  refine ⟨now, ?_, hlen⟩
  rw [← List.append_assoc]
  exact hcarries.write hw

theorem Waiting.free {performing : Bool} (h : Waiting performing fifo q) (fuel : ℕ) :
    Waiting performing (MsgFifo.free fuel fifo) q := by
  obtain ⟨now, hcarries, hlen⟩ := h
  exact ⟨now, hcarries.free fuel, hlen⟩

theorem Waiting.advance (h : Waiting true fifo q) : Waiting false fifo.advance q := by
  obtain ⟨now, hcarries, hlen⟩ := h
  obtain ⟨m, rfl⟩ := List.length_eq_one_iff.mp hlen
  exact ⟨[], hcarries.advance, rfl⟩

theorem Waiting.next (h : Waiting false fifo q) (hnext : fifo.next = some msg) :
    ∃ q', q = msg :: q' ∧ Waiting true fifo q' := by
  obtain ⟨now, hcarries, hlen⟩ := h
  obtain rfl : now = [] := List.length_eq_zero_iff.mp hlen
  rw [hcarries.next_eq, List.nil_append] at hnext
  obtain ⟨q', rfl⟩ := List.head?_eq_some_iff.mp hnext
  exact ⟨q', rfl, [msg], hcarries, rfl⟩

/-- Every command is somewhere in its progress, and everything was done by the thread that
it belongs on. -/
structure Inv (stage : CommandID → ℕ → Bool) (s : Driver k) (qf qt : List FifoMsg) : Prop where
  fromEngine : Waiting s.performingFromEngine s.mFromEngine qf
  toEngine : Waiting s.performingToEngine s.mToEngine qt
  threads : ∀ e ∈ s.log, e.thread = e.effect.thread
  progress : ∀ cmd, Progress (stage cmd) cmd (s.mNextStage cmd) (s.effects cmd) (mail cmd qf)
    (mail cmd qt)

/-- What performing a message can still lead to. -/
def weight (mNextStage : CommandID → ℕ) : FifoMsg → ℕ
  | .doSequencedCommand cmd => 2 * (6 - mNextStage cmd)
  | _ => 2

/-- A bound on the steps that perform what has been sent so far. -/
def work (s : Driver k) (qf qt : List FifoMsg) : ℕ :=
  (qf.map (weight s.mNextStage)).sum + (qt.map (weight s.mNextStage)).sum +
    (if s.performingFromEngine then 1 else 0) + if s.performingToEngine then 1 else 0

theorem effects_record (c : CommandID) (e : Effect) :
    (s.record thread c e).effects cmd = s.effects cmd ++ if c = cmd then [e] else [] := by
  unfold effects record
  rw [List.filter_append, List.map_append]
  congr 1
  by_cases h : c = cmd <;> simp [h]

theorem mail_append (q q' : List FifoMsg) : mail cmd (q ++ q') = mail cmd q ++ mail cmd q' :=
  List.filter_append ..

/-- `CallNextStage` by its stage number: the stage, and then the message that it sends. -/
theorem callNextStage_eq {n : ℕ} (hstage : s.mNextStage cmd = n) (hn : 1 ≤ n) (hn' : n ≤ 4) :
    s.callNextStage stage thread cmd =
      let s' := { s.record thread cmd (.stage n) with
        mNextStage := Function.update s.mNextStage cmd (n + 1) }
      if n < 4 ∧ stage cmd n then
        if n % 2 = 1 then s'.sendMsgFromEngine (.doSequencedCommand cmd)
        else s'.sendMsgToEngine (.doSequencedCommand cmd)
      else if n % 2 = 1 then some (s'.record thread cmd .delete)
      else s'.sendMsgToEngine (.freeSequencedCommand cmd) := by
  obtain rfl | rfl | rfl | rfl : n = 1 ∨ n = 2 ∨ n = 3 ∨ n = 4 := by omega
  all_goals simp [callNextStage, callStage, hstage]

/-! ## A command in hand -/

/-- A command is being performed and still has to do `rest`; all others are in place. -/
structure InHand (stage : CommandID → ℕ → Bool) (s : Driver k) (qf qt : List FifoMsg)
    (cmd : CommandID) (rest : List Effect) : Prop where
  fromEngine : Waiting s.performingFromEngine s.mFromEngine qf
  toEngine : Waiting s.performingToEngine s.mToEngine qt
  threads : ∀ e ∈ s.log, e.thread = e.effect.thread
  others : ∀ c ≠ cmd, Progress (stage c) c (s.mNextStage c) (s.effects c) (mail c qf)
    (mail c qt)
  noMail : mail cmd qf = [] ∧ mail cmd qt = []
  rest_eq : s.effects cmd ++ rest = callEveryStage (stage cmd) 1

theorem mail_other {c : CommandID} (hc : c ≠ cmd) (msg : FifoMsg)
    (habout : msg = .doSequencedCommand cmd ∨ msg = .freeSequencedCommand cmd) :
    mail c [msg] = [] := by
  rcases habout with rfl | rfl <;> simp [mail, FifoMsg.about, hc.symm]

/-- Messages about other commands weigh the same after a command's next stage moves. -/
theorem map_weight_update (mNextStage : CommandID → ℕ) (n : ℕ) (hmail : mail cmd q = []) :
    q.map (weight (Function.update mNextStage cmd n)) = q.map (weight mNextStage) := by
  apply List.map_congr_left
  intro m hm
  cases m with
  | doSequencedCommand c =>
    have hc : c ≠ cmd := by
      rintro rfl
      have hmem : FifoMsg.doSequencedCommand c ∈ mail c q :=
        List.mem_filter.mpr ⟨hm, by simp [FifoMsg.about]⟩
      rw [hmail] at hmem
      cases hmem
    show 2 * (6 - Function.update mNextStage cmd n c) = 2 * (6 - mNextStage c)
    rw [Function.update_of_ne hc]
  | freeSequencedCommand c => rfl
  | other => rfl

namespace InHand

variable {rest : List Effect} {e : Effect} {n : ℕ}

theorem record (h : InHand stage s qf qt cmd (e :: rest)) (hthread : thread = e.thread) :
    InHand stage (s.record thread cmd e) qf qt cmd rest := by
  refine ⟨h.fromEngine, h.toEngine, ?_, ?_, h.noMail, ?_⟩
  · intro x hx
    rcases List.mem_append.mp hx with hx | hx
    · exact h.threads x hx
    · rw [List.mem_singleton.mp hx]
      exact hthread
  · intro c hc
    rw [effects_record, if_neg hc.symm, List.append_nil]
    exact h.others c hc
  · rw [effects_record, if_pos rfl, List.append_assoc, List.singleton_append]
    exact h.rest_eq

theorem setNextStage (h : InHand stage s qf qt cmd rest) (n : ℕ) :
    InHand stage { s with mNextStage := Function.update s.mNextStage cmd n } qf qt cmd rest := by
  refine ⟨h.fromEngine, h.toEngine, h.threads, fun c hc => ?_, h.noMail, h.rest_eq⟩
  show Progress (stage c) c (Function.update s.mNextStage cmd n c) _ _ _
  rw [Function.update_of_ne hc]
  exact h.others c hc

theorem work_setNextStage (h : InHand stage s qf qt cmd rest) (n : ℕ) :
    work { s with mNextStage := Function.update s.mNextStage cmd n } qf qt = work s qf qt := by
  unfold work
  rw [map_weight_update _ _ h.noMail.1, map_weight_update _ _ h.noMail.2]

/-- The command goes to the other thread in a message. -/
theorem sendMsgFromEngine (h : InHand stage s qf qt cmd rest)
    (hprogress : Progress (stage cmd) cmd (s.mNextStage cmd) (s.effects cmd)
      [.doSequencedCommand cmd] [])
    (hsend : s.sendMsgFromEngine (.doSequencedCommand cmd) = some s') :
    ∃ qf' qt', Inv stage s' qf' qt' ∧
      work s' qf' qt' = work s qf qt + weight s.mNextStage (.doSequencedCommand cmd) := by
  unfold Driver.sendMsgFromEngine at hsend
  obtain ⟨fifo, hwrite, rfl⟩ := Option.map_eq_some_iff.mp hsend
  refine ⟨qf ++ [.doSequencedCommand cmd], qt,
    ⟨h.fromEngine.write hwrite, h.toEngine, h.threads, fun c => ?_⟩, ?_⟩
  · rw [mail_append]
    by_cases hc : c = cmd
    · subst hc
      have hmail : mail c [.doSequencedCommand c] = [.doSequencedCommand c] := by
        simp [mail, FifoMsg.about]
      rw [h.noMail.1, h.noMail.2, hmail]
      exact hprogress
    · rw [mail_other hc _ (.inl rfl), List.append_nil]
      exact h.others c hc
  · simp only [work, List.map_append, List.sum_append, List.map_singleton, List.sum_singleton]
    omega

theorem sendMsgToEngine (h : InHand stage s qf qt cmd rest)
    (habout : msg = .doSequencedCommand cmd ∨ msg = .freeSequencedCommand cmd)
    (hprogress : Progress (stage cmd) cmd (s.mNextStage cmd) (s.effects cmd) [] [msg])
    (hsend : s.sendMsgToEngine msg = some s') :
    ∃ qf' qt', Inv stage s' qf' qt' ∧ work s' qf' qt' = work s qf qt + weight s.mNextStage msg := by
  unfold Driver.sendMsgToEngine at hsend
  obtain ⟨fifo, hwrite, rfl⟩ := Option.map_eq_some_iff.mp hsend
  refine ⟨qf, qt ++ [msg],
    ⟨h.fromEngine, (h.toEngine.free _).write hwrite, h.threads, fun c => ?_⟩, ?_⟩
  · rw [mail_append]
    by_cases hc : c = cmd
    · subst hc
      have hmail : mail c [msg] = [msg] := by
        rcases habout with rfl | rfl <;> simp [mail, FifoMsg.about]
      rw [h.noMail.1, h.noMail.2, hmail]
      exact hprogress
    · rw [mail_other hc _ habout, List.append_nil]
      exact h.others c hc
  · simp only [work, List.map_append, List.sum_append, List.map_singleton, List.sum_singleton]
    omega

theorem deleted (h : InHand stage s qf qt cmd []) (hn : 2 ≤ s.mNextStage cmd) :
    Inv stage s qf qt := by
  refine ⟨h.fromEngine, h.toEngine, h.threads, fun c => ?_⟩
  by_cases hc : c = cmd
  · subst hc
    rw [h.noMail.1, h.noMail.2]
    refine .deleted hn ?_
    rw [← h.rest_eq, List.append_nil]
  · exact h.others c hc

/-- `CallNextStage` on the right thread puts the command where its progress says. -/
theorem callNextStage (hn : 1 ≤ n) (hn' : n ≤ 4)
    (h : InHand stage s qf qt cmd (callEveryStage (stage cmd) n))
    (hstage : s.mNextStage cmd = n) (hthread : thread = Effect.thread (.stage n))
    (hcall : s.callNextStage stage thread cmd = some s') :
    ∃ qf' qt', Inv stage s' qf' qt' ∧ work s' qf' qt' ≤ work s qf qt + 2 * (5 - n) := by
  rw [callNextStage_eq hstage hn hn'] at hcall
  rw [callEveryStage_eq _ hn hn'] at h
  have hdone := (h.record hthread).setNextStage (n + 1)
  have hwork : work { s.record thread cmd (.stage n) with
      mNextStage := Function.update s.mNextStage cmd (n + 1) } qf qt = work s qf qt :=
    (h.record hthread).work_setNextStage (n + 1)
  simp only at hcall
  set s₁ : Driver k := { s.record thread cmd (.stage n) with
      mNextStage := Function.update s.mNextStage cmd (n + 1) } with hs₁
  have hnext : s₁.mNextStage cmd = n + 1 := Function.update_self ..
  change InHand stage s₁ qf qt cmd _ at hdone
  have hrest := hdone.rest_eq
  by_cases hagain : n < 4 ∧ stage cmd n
  · rw [if_pos hagain] at hcall hdone hrest
    have hweight : weight s₁.mNextStage (.doSequencedCommand cmd) = 2 * (5 - n) := by
      show 2 * (6 - s₁.mNextStage cmd) = 2 * (5 - n)
      omega
    by_cases hodd : n % 2 = 1
    · rw [if_pos hodd] at hcall
      obtain ⟨qf', qt', hinv, hle⟩ := hdone.sendMsgFromEngine
        (by rw [hnext]; exact .toNonRealTime (by omega) hrest) hcall
      exact ⟨qf', qt', hinv, by omega⟩
    · rw [if_neg hodd] at hcall
      obtain ⟨qf', qt', hinv, hle⟩ := hdone.sendMsgToEngine (.inl rfl)
        (by rw [hnext]; exact .toRealTime (by omega) hrest) hcall
      exact ⟨qf', qt', hinv, by omega⟩
  · rw [if_neg hagain] at hcall hdone hrest
    by_cases hodd : n % 2 = 1
    · rw [if_pos hodd] at hcall
      cases hcall
      have hthread' : thread = Effect.thread .delete := by
        rw [hthread]
        exact if_pos hodd
      refine ⟨qf, qt, (hdone.record hthread').deleted ?_, ?_⟩
      · show 2 ≤ s₁.mNextStage cmd
        omega
      · show work s₁ qf qt ≤ _
        omega
    · rw [if_neg hodd] at hcall
      obtain ⟨qf', qt', hinv, hle⟩ := hdone.sendMsgToEngine (.inr rfl)
        (by rw [hnext]; exact .toDelete (by omega) hrest) hcall
      have hweight : weight s₁.mNextStage (.freeSequencedCommand cmd) = 2 := rfl
      exact ⟨qf', qt', hinv, by omega⟩

end InHand

/-! ## Steps -/

theorem mail_cons_about (habout : msg.about cmd = true) :
    mail cmd (msg :: q) = msg :: mail cmd q := List.filter_cons_of_pos habout

theorem mail_cons_other (habout : msg.about cmd = false) : mail cmd (msg :: q) = mail cmd q :=
  List.filter_cons_of_neg (by simp [habout])

theorem about_other {c : CommandID} (hc : c ≠ cmd)
    (hmsg : msg = .doSequencedCommand cmd ∨ msg = .freeSequencedCommand cmd) :
    msg.about c = false := by
  rcases hmsg with rfl | rfl <;> simp [FifoMsg.about, hc.symm]

namespace Inv

variable (h : Inv stage s qf qt)

include h

/-- A step keeps the invariant, and a step of `Perform` uses up work. -/
theorem start (hstage : s.mNextStage cmd = 1)
    (hcall : s.callNextStage stage .realTime cmd = some s') : ∃ qf' qt', Inv stage s' qf' qt' := by
  have hprogress := h.progress cmd
  rw [hstage] at hprogress
  generalize hdone : s.effects cmd = done at hprogress
  generalize hmailf : mail cmd qf = mailf at hprogress
  generalize hmailt : mail cmd qt = mailt at hprogress
  cases hprogress with
  | created =>
    have hhand : InHand stage s qf qt cmd (callEveryStage (stage cmd) 1) :=
      ⟨h.fromEngine, h.toEngine, h.threads, fun c _ => h.progress c, ⟨hmailf, hmailt⟩,
        by rw [hdone, List.nil_append]⟩
    obtain ⟨qf', qt', hinv, -⟩ := hhand.callNextStage (by omega) (by omega) hstage rfl hcall
    exact ⟨qf', qt', hinv⟩
  | toNonRealTime hn => omega
  | toRealTime hn => omega
  | toDelete hn => omega
  | deleted hn => omega

/-- The real-time thread takes a message out of its fifo. -/
theorem performToEngine (hidle : s.performingToEngine = false)
    (hnext : s.mToEngine.next = some msg)
    (hperform : { s with performingToEngine := true }.perform stage .realTime msg = some s') :
    ∃ qf' qt', Inv stage s' qf' qt' ∧ work s' qf' qt' < work s qf qt := by
  have hto := h.toEngine
  rw [hidle] at hto
  obtain ⟨qt, rfl, hwaiting⟩ := hto.next hnext
  set s₁ : Driver k := { s with performingToEngine := true } with hs₁
  have hwork : work s₁ qf qt + weight s.mNextStage msg = work s qf (msg :: qt) + 1 := by
    simp only [work, hs₁, hidle, List.map_cons, List.sum_cons, if_true, Bool.false_eq_true,
      if_false]
    omega
  cases msg with
  | other =>
    have hs' : s' = s₁ := (Option.some.inj hperform).symm
    subst hs'
    have hweight : weight s.mNextStage .other = 2 := rfl
    refine ⟨qf, qt, ⟨h.fromEngine, hwaiting, h.threads, fun c => ?_⟩, by omega⟩
    have hc := h.progress c
    rw [mail_cons_other rfl] at hc
    exact hc
  | doSequencedCommand cmd =>
    have hprogress := h.progress cmd
    rw [mail_cons_about (by simp [FifoMsg.about])] at hprogress
    generalize hdone : s.effects cmd = done at hprogress
    generalize hstage : s.mNextStage cmd = n at hprogress
    generalize hmailf : mail cmd qf = mailf at hprogress
    generalize hmailt : mail cmd qt = mailt at hprogress
    cases hprogress with
    | toRealTime hn hrest =>
      have hhand : InHand stage s₁ qf qt cmd (callEveryStage (stage cmd) n) := by
        refine ⟨h.fromEngine, hwaiting, h.threads, fun c hc => ?_, ⟨hmailf, hmailt⟩, ?_⟩
        · have hprogress := h.progress c
          rw [mail_cons_other (about_other hc (.inl rfl))] at hprogress
          exact hprogress
        · show s.effects cmd ++ _ = _
          rw [hdone]
          exact hrest
      subst hn
      obtain ⟨qf', qt', hinv, hle⟩ :=
        hhand.callNextStage (by omega) (by omega) hstage rfl hperform
      have hweight : weight s.mNextStage (.doSequencedCommand cmd) = 2 * (6 - 3) := by
        show 2 * (6 - s.mNextStage cmd) = _
        rw [hstage]
      exact ⟨qf', qt', hinv, by omega⟩
  | freeSequencedCommand cmd =>
    have hprogress := h.progress cmd
    rw [mail_cons_about (by simp [FifoMsg.about])] at hprogress
    generalize hdone : s.effects cmd = done at hprogress
    generalize hstage : s.mNextStage cmd = n at hprogress
    generalize hmailf : mail cmd qf = mailf at hprogress
    generalize hmailt : mail cmd qt = mailt at hprogress
    cases hprogress with
    | toDelete hn hrest =>
      have hhand : InHand stage s₁ qf qt cmd [.delete] := by
        refine ⟨h.fromEngine, hwaiting, h.threads, fun c hc => ?_, ⟨hmailf, hmailt⟩, ?_⟩
        · have hprogress := h.progress c
          rw [mail_cons_other (about_other hc (.inr rfl))] at hprogress
          exact hprogress
        · show s.effects cmd ++ _ = _
          rw [hdone]
          exact hrest
      cases hperform
      have hweight : weight s.mNextStage (.freeSequencedCommand cmd) = 2 := rfl
      refine ⟨qf, qt, (hhand.record rfl).deleted ?_, ?_⟩
      · show 2 ≤ s.mNextStage cmd
        omega
      · show work s₁ qf qt < _
        omega

/-- The non-real-time thread takes a message out of its fifo. -/
theorem performFromEngine (hidle : s.performingFromEngine = false)
    (hnext : s.mFromEngine.next = some msg)
    (hperform : { s with performingFromEngine := true }.perform stage .nonRealTime msg = some s') :
    ∃ qf' qt', Inv stage s' qf' qt' ∧ work s' qf' qt' < work s qf qt := by
  have hfrom := h.fromEngine
  rw [hidle] at hfrom
  obtain ⟨qf, rfl, hwaiting⟩ := hfrom.next hnext
  set s₁ : Driver k := { s with performingFromEngine := true } with hs₁
  have hwork : work s₁ qf qt + weight s.mNextStage msg = work s (msg :: qf) qt + 1 := by
    simp only [work, hs₁, hidle, List.map_cons, List.sum_cons, if_true, Bool.false_eq_true,
      if_false]
    omega
  cases msg with
  | other =>
    have hs' : s' = s₁ := (Option.some.inj hperform).symm
    subst hs'
    have hweight : weight s.mNextStage .other = 2 := rfl
    refine ⟨qf, qt, ⟨hwaiting, h.toEngine, h.threads, fun c => ?_⟩, by omega⟩
    have hc := h.progress c
    rw [mail_cons_other rfl] at hc
    exact hc
  | doSequencedCommand cmd =>
    have hprogress := h.progress cmd
    rw [mail_cons_about (by simp [FifoMsg.about])] at hprogress
    generalize hdone : s.effects cmd = done at hprogress
    generalize hstage : s.mNextStage cmd = n at hprogress
    generalize hmailf : mail cmd qf = mailf at hprogress
    generalize hmailt : mail cmd qt = mailt at hprogress
    cases hprogress with
    | toNonRealTime hn hrest =>
      have hhand : InHand stage s₁ qf qt cmd (callEveryStage (stage cmd) n) := by
        refine ⟨hwaiting, h.toEngine, h.threads, fun c hc => ?_, ⟨hmailf, hmailt⟩, ?_⟩
        · have hprogress := h.progress c
          rw [mail_cons_other (about_other hc (.inl rfl))] at hprogress
          exact hprogress
        · show s.effects cmd ++ _ = _
          rw [hdone]
          exact hrest
      obtain ⟨qf', qt', hinv, hle⟩ := hhand.callNextStage (by omega) (by omega) hstage
        (by rcases hn with rfl | rfl <;> rfl) hperform
      have hweight : weight s.mNextStage (.doSequencedCommand cmd) = 2 * (6 - n) := by
        show 2 * (6 - s.mNextStage cmd) = _
        rw [hstage]
      exact ⟨qf', qt', hinv, by omega⟩
  | freeSequencedCommand cmd =>
    -- commands are only freed by the real-time thread
    have hprogress := h.progress cmd
    rw [mail_cons_about (by simp [FifoMsg.about])] at hprogress
    generalize s.mNextStage cmd = n at hprogress
    generalize s.effects cmd = done at hprogress
    cases hprogress

/-- The other steps leave the commands where they are. -/
theorem sendMsgToEngine_other (hsend : s.sendMsgToEngine .other = some s') :
    Inv stage s' qf (qt ++ [.other]) := by
  unfold Driver.sendMsgToEngine at hsend
  obtain ⟨fifo, hwrite, rfl⟩ := Option.map_eq_some_iff.mp hsend
  refine ⟨h.fromEngine, (h.toEngine.free _).write hwrite, h.threads, fun c => ?_⟩
  have hmail : mail c [.other] = [] := rfl
  rw [mail_append, hmail, List.append_nil]
  exact h.progress c

theorem sendMsgFromEngine_other (hsend : s.sendMsgFromEngine .other = some s') :
    Inv stage s' (qf ++ [.other]) qt := by
  unfold Driver.sendMsgFromEngine at hsend
  obtain ⟨fifo, hwrite, rfl⟩ := Option.map_eq_some_iff.mp hsend
  refine ⟨h.fromEngine.write hwrite, h.toEngine, h.threads, fun c => ?_⟩
  have hmail : mail c [.other] = [] := rfl
  rw [mail_append, hmail, List.append_nil]
  exact h.progress c

theorem advanceToEngine (hbusy : s.performingToEngine = true) :
    Inv stage { s with mToEngine := s.mToEngine.advance, performingToEngine := false } qf qt := by
  have hto := h.toEngine
  rw [hbusy] at hto
  exact ⟨h.fromEngine, hto.advance, h.threads, h.progress⟩

theorem advanceFromEngine (hbusy : s.performingFromEngine = true) :
    Inv stage { s with mFromEngine := s.mFromEngine.advance, performingFromEngine := false }
      qf qt := by
  have hfrom := h.fromEngine
  rw [hbusy] at hfrom
  exact ⟨hfrom.advance, h.toEngine, h.threads, h.progress⟩

end Inv

/-! ## Runs -/

/-- The steps of the loops in `Perform`. -/
def Performs : DriverAct → Prop
  | .performToEngine | .advanceToEngine | .performFromEngine | .advanceFromEngine => True
  | _ => False

/-- One step keeps the invariant, and a step of `Perform` uses up work. -/
theorem Inv.act (h : Inv stage s qf qt) {a : DriverAct} (hact : s.act stage a = some s') :
    ∃ qf' qt', Inv stage s' qf' qt' ∧ (Performs a → work s' qf' qt' < work s qf qt) := by
  cases a with
  | start cmd =>
    rw [Driver.act] at hact
    split at hact
    · rename_i hstage
      obtain ⟨qf', qt', hinv⟩ := h.start hstage hact
      exact ⟨qf', qt', hinv, False.elim⟩
    · cases hact
  | performToEngine =>
    rw [Driver.act] at hact
    split at hact
    · cases hact
    · rename_i hidle
      obtain ⟨msg, hnext, hperform⟩ := Option.bind_eq_some_iff.mp hact
      obtain ⟨qf', qt', hinv, hlt⟩ := h.performToEngine (by simpa using hidle) hnext hperform
      exact ⟨qf', qt', hinv, fun _ => hlt⟩
  | advanceToEngine =>
    rw [Driver.act] at hact
    split at hact
    · rename_i hbusy
      cases hact
      refine ⟨qf, qt, h.advanceToEngine hbusy, fun _ => ?_⟩
      simp [work, hbusy]
    · cases hact
  | freeFromEngine =>
    cases hact
    exact ⟨qf, qt, ⟨h.fromEngine.free _, h.toEngine, h.threads, h.progress⟩, False.elim⟩
  | sendOtherFromEngine => exact ⟨_, _, h.sendMsgFromEngine_other hact, False.elim⟩
  | performFromEngine =>
    rw [Driver.act] at hact
    split at hact
    · cases hact
    · rename_i hidle
      obtain ⟨msg, hnext, hperform⟩ := Option.bind_eq_some_iff.mp hact
      obtain ⟨qf', qt', hinv, hlt⟩ := h.performFromEngine (by simpa using hidle) hnext hperform
      exact ⟨qf', qt', hinv, fun _ => hlt⟩
  | advanceFromEngine =>
    rw [Driver.act] at hact
    split at hact
    · rename_i hbusy
      cases hact
      refine ⟨qf, qt, h.advanceFromEngine hbusy, fun _ => ?_⟩
      simp [work, hbusy]
    · cases hact
  | sendOtherToEngine => exact ⟨_, _, h.sendMsgToEngine_other hact, False.elim⟩

theorem inv_new : Inv stage (new : Driver k) [] [] where
  fromEngine := ⟨[], MsgFifo.carries_new _, rfl⟩
  toEngine := ⟨[], MsgFifo.carries_new _, rfl⟩
  threads := nofun
  progress _ := .created

theorem Inv.acts (h : Inv stage s qf qt) {as : List DriverAct}
    (hacts : s.acts stage as = some s') : ∃ qf' qt', Inv stage s' qf' qt' := by
  induction as generalizing s qf qt with
  | nil =>
    cases hacts
    exact ⟨qf, qt, h⟩
  | cons a as ih =>
    obtain ⟨s₁, hact, hrest⟩ := Option.bind_eq_some_iff.mp hacts
    obtain ⟨qf', qt', hinv, -⟩ := h.act hact
    exact ih hinv hrest

/-- The loops of `Perform` end. -/
theorem Inv.length_le_work (h : Inv stage s qf qt) {as : List DriverAct}
    (hacts : s.acts stage as = some s') (hperforms : ∀ a ∈ as, Performs a) :
    as.length ≤ work s qf qt := by
  induction as generalizing s qf qt with
  | nil => exact Nat.zero_le _
  | cons a as ih =>
    obtain ⟨s₁, hact, hrest⟩ := Option.bind_eq_some_iff.mp hacts
    obtain ⟨qf', qt', hinv, hlt⟩ := h.act hact
    have hlt := hlt (hperforms a (by simp))
    have hle := ih hinv hrest fun b hb => hperforms b (by simp [hb])
    rw [List.length_cons]
    omega

/-! ## Refinement -/

/-- `CallNextStage` ends by sending a message, if there is room, or by deleting. -/
theorem callNextStage_cases (stage : CommandID → ℕ → Bool) (s : Driver k) (thread : Thread)
    (cmd : CommandID) : ∃ s₁ : Driver k,
      s₁.mNextStage = Function.update s.mNextStage cmd (s.mNextStage cmd + 1) ∧
      s₁.mFromEngine = s.mFromEngine ∧ s₁.mToEngine = s.mToEngine ∧
      ((∃ msg, s.callNextStage stage thread cmd = s₁.sendMsgFromEngine msg) ∨
        (∃ msg, s.callNextStage stage thread cmd = s₁.sendMsgToEngine msg) ∨
        s.callNextStage stage thread cmd = some (s₁.record thread cmd .delete)) := by
  have hfifos : (s.callStage stage thread cmd).1.mFromEngine = s.mFromEngine ∧
      (s.callStage stage thread cmd).1.mToEngine = s.mToEngine := by
    unfold callStage
    split <;> exact ⟨rfl, rfl⟩
  refine ⟨{ (s.callStage stage thread cmd).1 with
    mNextStage := Function.update s.mNextStage cmd (s.mNextStage cmd + 1) },
    rfl, hfifos.1, hfifos.2, ?_⟩
  unfold callNextStage
  dsimp only
  split_ifs
  · exact .inl ⟨_, rfl⟩
  · exact .inr (.inl ⟨_, rfl⟩)
  · exact .inr (.inr rfl)
  · exact .inr (.inl ⟨_, rfl⟩)

theorem mNextStage_callNextStage (hcall : s.callNextStage stage thread cmd = some s') :
    s'.mNextStage = Function.update s.mNextStage cmd (s.mNextStage cmd + 1) := by
  obtain ⟨s₁, hnext, -, -, ⟨msg, h⟩ | ⟨msg, h⟩ | h⟩ :=
    callNextStage_cases stage s thread cmd
  · obtain ⟨fifo, -, rfl⟩ := Option.map_eq_some_iff.mp (h.symm.trans hcall)
    exact hnext
  · obtain ⟨fifo, -, rfl⟩ := Option.map_eq_some_iff.mp (h.symm.trans hcall)
    exact hnext
  · obtain rfl := Option.some.inj (h.symm.trans hcall)
    exact hnext

theorem mNextStage_perform_le (hperform : s.perform stage thread msg = some s') (c : CommandID) :
    s.mNextStage c ≤ s'.mNextStage c := by
  cases msg with
  | doSequencedCommand cmd =>
    rw [mNextStage_callNextStage hperform]
    by_cases hc : c = cmd
    · subst hc
      rw [Function.update_self]
      omega
    · rw [Function.update_of_ne hc]
  | freeSequencedCommand cmd =>
    cases hperform
    exact Nat.le_refl _
  | other =>
    cases hperform
    exact Nat.le_refl _

/-- The next stage of a command only moves on, and a command that was started has one. -/
theorem mNextStage_act {a : DriverAct} (hact : s.act stage a = some s') (c : CommandID) :
    s.mNextStage c ≤ s'.mNextStage c ∧ (a = .start c → 2 ≤ s'.mNextStage c) := by
  cases a with
  | start cmd =>
    rw [Driver.act] at hact
    split at hact
    · rename_i hstage
      rw [mNextStage_callNextStage hact]
      by_cases hc : c = cmd
      · subst hc
        rw [Function.update_self]
        omega
      · rw [Function.update_of_ne hc]
        refine ⟨Nat.le_refl _, fun h => ?_⟩
        cases h
        exact absurd rfl hc
    · cases hact
  | performToEngine =>
    rw [Driver.act] at hact
    split at hact
    · cases hact
    · obtain ⟨msg, -, hperform⟩ := Option.bind_eq_some_iff.mp hact
      exact ⟨mNextStage_perform_le hperform c, nofun⟩
  | performFromEngine =>
    rw [Driver.act] at hact
    split at hact
    · cases hact
    · obtain ⟨msg, -, hperform⟩ := Option.bind_eq_some_iff.mp hact
      exact ⟨mNextStage_perform_le hperform c, nofun⟩
  | advanceToEngine =>
    rw [Driver.act] at hact
    split at hact
    · cases hact
      exact ⟨Nat.le_refl _, nofun⟩
    · cases hact
  | advanceFromEngine =>
    rw [Driver.act] at hact
    split at hact
    · cases hact
      exact ⟨Nat.le_refl _, nofun⟩
    · cases hact
  | freeFromEngine =>
    cases hact
    exact ⟨Nat.le_refl _, nofun⟩
  | sendOtherFromEngine =>
    obtain ⟨fifo, -, rfl⟩ := Option.map_eq_some_iff.mp hact
    exact ⟨Nat.le_refl _, nofun⟩
  | sendOtherToEngine =>
    obtain ⟨fifo, -, rfl⟩ := Option.map_eq_some_iff.mp hact
    exact ⟨Nat.le_refl _, nofun⟩

theorem started_acts {as : List DriverAct} (hacts : s.acts stage as = some s')
    (hcmd : 2 ≤ s.mNextStage cmd ∨ .start cmd ∈ as) : 2 ≤ s'.mNextStage cmd := by
  induction as generalizing s with
  | nil =>
    cases hacts
    rcases hcmd with h | h
    · exact h
    · cases h
  | cons a as ih =>
    obtain ⟨s₁, hact, hrest⟩ := Option.bind_eq_some_iff.mp hacts
    obtain ⟨hle, hstart⟩ := mNextStage_act hact cmd
    apply ih hrest
    rcases hcmd with h | h
    · exact .inl (Nat.le_trans h hle)
    · rcases List.mem_cons.mp h with h | h
      · exact .inl (hstart h.symm)
      · exact .inr h

theorem Waiting.eq_nil (h : Waiting false fifo q) (hdata : fifo.hasData = false) : q = [] := by
  obtain ⟨now, hcarries, hlen⟩ := h
  obtain rfl : now = [] := List.length_eq_zero_iff.mp hlen
  have hnext := hcarries.next_eq
  rw [MsgFifo.next, hdata, List.nil_append] at hnext
  exact List.head?_eq_none_iff.mp hnext.symm

/-- A fifo has no room for one more message. -/
def Full (s : Driver k) : Prop :=
  ∃ msg, s.mFromEngine.write msg = none ∨ (MsgFifo.free (2 ^ k) s.mToEngine).write msg = none

theorem isSome_sendMsgFromEngine (hfull : ¬ s.Full) (msg : FifoMsg) :
    (s.sendMsgFromEngine msg).isSome := by
  unfold sendMsgFromEngine
  rw [Option.isSome_map, Option.isSome_iff_ne_none]
  intro h
  exact hfull ⟨msg, .inl h⟩

theorem isSome_sendMsgToEngine (hfull : ¬ s.Full) (msg : FifoMsg) :
    (s.sendMsgToEngine msg).isSome := by
  unfold sendMsgToEngine
  rw [Option.isSome_map, Option.isSome_iff_ne_none]
  intro h
  exact hfull ⟨msg, .inr h⟩

/-- Only a full fifo keeps a message from being performed. -/
theorem isSome_perform (hfull : ¬ s.Full) (msg : FifoMsg) :
    (s.perform stage thread msg).isSome := by
  cases msg with
  | doSequencedCommand cmd =>
    show (s.callNextStage stage thread cmd).isSome
    obtain ⟨s₁, -, hfrom, hto, hcases⟩ := callNextStage_cases stage s thread cmd
    have hfull₁ : ¬ s₁.Full := by
      unfold Full
      rw [hfrom, hto]
      exact hfull
    rcases hcases with ⟨msg, h⟩ | ⟨msg, h⟩ | h
    · rw [h]
      exact isSome_sendMsgFromEngine hfull₁ msg
    · rw [h]
      exact isSome_sendMsgToEngine hfull₁ msg
    · rw [h]
      rfl
  | freeSequencedCommand cmd => rfl
  | other => rfl

/-- While something is left to perform, a thread can go on. -/
theorem exists_performs (hdrained : ¬ s.Drained) (hfull : ¬ s.Full) :
    ∃ a, Performs a ∧ (s.act stage a).isSome := by
  cases hfrom : s.performingFromEngine with
  | true => exact ⟨.advanceFromEngine, trivial, by simp [act, hfrom]⟩
  | false =>
    cases hto : s.performingToEngine with
    | true => exact ⟨.advanceToEngine, trivial, by simp [act, hto]⟩
    | false =>
      cases hdata : s.mFromEngine.hasData with
      | true =>
        refine ⟨.performFromEngine, trivial, ?_⟩
        rw [act, hfrom, MsgFifo.next, hdata]
        exact isSome_perform (s := { s with performingFromEngine := true }) hfull _
      | false =>
        cases hdata' : s.mToEngine.hasData with
        | true =>
          refine ⟨.performToEngine, trivial, ?_⟩
          rw [act, hto, MsgFifo.next, hdata']
          exact isSome_perform (s := { s with performingToEngine := true }) hfull _
        | false => exact absurd ⟨hdata, hdata', hfrom, hto⟩ hdrained

end Driver

/-- In every run in which no fifo is full, each command does on the two threads what
`CallEveryStage` does on one: at every moment a part of it from the beginning, each effect
on its own thread, and all of it once the threads have performed what was sent. While
something is left a thread can go on, and the threads cannot go on for ever. -/
theorem callNextStage_refines_callEveryStage {k : ℕ} (stage : CommandID → ℕ → Bool)
    (as : List DriverAct) (s : Driver k) (hrun : Driver.new.acts stage as = some s) :
    (∀ cmd, s.effects cmd <+: callEveryStage (stage cmd) 1) ∧
    (∀ e ∈ s.log, e.thread = e.effect.thread) ∧
    (∀ cmd, .start cmd ∈ as → s.Drained → s.effects cmd = callEveryStage (stage cmd) 1) ∧
    (¬ s.Drained → ¬ s.Full → ∃ a, Driver.Performs a ∧ (s.act stage a).isSome) ∧
    ∃ bound, ∀ as' s', s.acts stage as' = some s' → (∀ a ∈ as', Driver.Performs a) →
      as'.length ≤ bound := by
  obtain ⟨qf, qt, hinv⟩ := Driver.inv_new.acts hrun
  refine ⟨fun cmd => ?_, hinv.threads, fun cmd hcmd hdrained => ?_,
    Driver.exists_performs, Driver.work s qf qt, fun as' s' => hinv.length_le_work⟩
  · have hprogress := hinv.progress cmd
    generalize Driver.effects s cmd = done at hprogress ⊢
    generalize s.mNextStage cmd = n at hprogress
    generalize mail cmd qf = mailf at hprogress
    generalize mail cmd qt = mailt at hprogress
    cases hprogress with
    | created => exact List.nil_prefix
    | toNonRealTime hn hrest => exact ⟨_, hrest⟩
    | toRealTime hn hrest => exact ⟨_, hrest⟩
    | toDelete hn hrest => exact ⟨_, hrest⟩
    | deleted hn hrest => exact hrest ▸ List.prefix_rfl
  · obtain ⟨hdataf, hdatat, hidlef, hidlet⟩ := hdrained
    have hfrom := hinv.fromEngine
    have hto := hinv.toEngine
    rw [hidlef] at hfrom
    rw [hidlet] at hto
    have hqf := hfrom.eq_nil hdataf
    have hqt := hto.eq_nil hdatat
    subst hqf hqt
    have hstarted := Driver.started_acts hrun (.inr hcmd)
    have hprogress := hinv.progress cmd
    generalize Driver.effects s cmd = done at hprogress ⊢
    generalize s.mNextStage cmd = n at hprogress hstarted
    cases hprogress with
    | created => omega
    | deleted hn hrest => exact hrest

/-- The steps of one command with four stages. -/
def fourStages : List DriverAct :=
  [.start 0, .performFromEngine, .advanceFromEngine, .performToEngine, .advanceToEngine,
    .performFromEngine, .advanceFromEngine, .performToEngine, .advanceToEngine]

/-- One command with four stages, on its own. -/
theorem callNextStage_refines_callEveryStage_alone : ∃ s : Driver 2,
    Driver.new.acts (fun _ _ => true) fourStages = some s ∧
    s.effects 0 = callEveryStage (fun _ => true) 1 := by
  have hsome : ((Driver.new : Driver 2).acts (fun _ _ => true) fourStages).isSome := by decide
  refine ⟨_, (Option.some_get hsome).symm, ?_⟩
  apply (callNextStage_refines_callEveryStage (fun _ _ => true) fourStages _
    (Option.some_get hsome).symm).2.2.1 0 (by decide)
  exact ⟨by decide +revert, by decide +revert, by decide +revert, by decide +revert⟩

end PoopWorms.Server
