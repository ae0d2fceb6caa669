import Mathlib.Data.List.Basic
import Mathlib.Tactic.Common

/-!
# Readers and formats

A reader takes tokens from the front of a list: it may stop, or come to the end of the list
while it wants more. A format says, without a reader, which lists of tokens spell which value
and at which lists a reader of the format stops. `Decodes` states that a reader reads a
format: what it does to a list is decided by what the list begins with.
-/

namespace PoopWorms.Readers

variable {τ ε α β : Type}

/-- Why a reader has no result. -/
inductive Fault (ε : Type)
  /-- A token was asked for behind the last one. -/
  | pastEnd
  | stop (e : ε)

abbrev Reader (τ ε α : Type) := StateT (List τ) (Except (Fault ε)) α

/-- The next token. -/
def token : Reader τ ε τ
  | [] => .error .pastEnd
  | t :: ts => .ok (t, ts)

def stop (e : ε) : Reader τ ε α := fun _ => .error (.stop e)

/-- A computation that reads nothing. -/
def ofExcept : Except ε α → Reader τ ε α
  | .ok a => pure a
  | .error e => stop e

/-- A loop that reads `n` values. -/
def times (n : ℕ) (rd : Reader τ ε α) : Reader τ ε (List α) :=
  match n with
  | 0 => pure []
  | n + 1 => do
    let a ← rd
    let as ← times n rd
    return a :: as

/-! ## Formats -/

/-- The tokens of several values, one after the other. -/
inductive Listed (Spells : List τ → α → Prop) : List τ → List α → Prop
  | nil : Listed Spells [] []
  | cons {ts us : List τ} {a : α} {as : List α} (head : Spells ts a)
      (tail : Listed Spells us as) : Listed Spells (ts ++ us) (a :: as)

/-- In front of the last of `n` values a reader stops. -/
def ListStops (Spells : List τ → α → Prop) (Stops : List τ → ε → Prop) (n : ℕ) (ts : List τ)
    (e : ε) : Prop :=
  ∃ us vs as, ts = us ++ vs ∧ Listed Spells us as ∧ as.length < n ∧ Stops vs e

/-- Every item of a list is spelt by some of its tokens. -/
theorem Listed.exists_spells {Spells : List τ → α → Prop} {ts : List τ} {as : List α}
    (h : Listed Spells ts as) {a : α} (ha : a ∈ as) : ∃ us, Spells us a := by
  induction h with
  | nil => exact absurd ha List.not_mem_nil
  | @cons us _ _ _ head _ ih =>
    rcases List.mem_cons.mp ha with rfl | ha
    · exact ⟨us, head⟩
    · exact ih ha

/-- The reader `rd` gives the values that are spelled and stops where it should, whatever
comes behind. -/
structure Decodes (rd : Reader τ ε α) (Spells : List τ → α → Prop) (Stops : List τ → ε → Prop) :
    Prop where
  ok_iff : ∀ ts a rest, rd ts = .ok (a, rest) ↔ ∃ us, ts = us ++ rest ∧ Spells us a
  stop_iff : ∀ ts e, rd ts = .error (.stop e) ↔ ∃ us rest, ts = us ++ rest ∧ Stops us e

section Rules

variable {rd : Reader τ ε α} {Spells : List τ → α → Prop} {Stops : List τ → ε → Prop}

/-- Formats may be replaced by equivalent ones. -/
theorem Decodes.congr (h : Decodes rd Spells Stops) {Spells' : List τ → α → Prop}
    {Stops' : List τ → ε → Prop} (hspells : ∀ ts a, Spells ts a ↔ Spells' ts a)
    (hstops : ∀ ts e, Stops ts e ↔ Stops' ts e) : Decodes rd Spells' Stops' := by
  have hs : Spells = Spells' := by
    ext ts a
    exact hspells ts a
  have ht : Stops = Stops' := by
    ext ts e
    exact hstops ts e
  exact hs ▸ ht ▸ h

theorem decodes_token : Decodes (token : Reader τ ε τ) (fun ts t => ts = [t]) fun _ _ => False := by
  refine ⟨fun ts a rest => ?_, fun ts e => ?_⟩
  · cases ts with
    | nil => simp [token]
    | cons t ts => simp [token, and_comm, eq_comm]
  · cases ts with
    | nil => simp [token]
    | cons t ts => simp [token]

theorem decodes_pure (a : α) :
    Decodes (pure a : Reader τ ε α) (fun ts b => ts = [] ∧ b = a) fun _ _ => False := by
  refine ⟨fun ts b rest => ?_, fun ts e => ?_⟩
  · show Except.ok (a, ts) = .ok (b, rest) ↔ _
    simp [eq_comm, and_comm]
  · show Except.ok (a, ts) = .error _ ↔ _
    simp

theorem decodes_stop (e : ε) :
    Decodes (stop e : Reader τ ε α) (fun _ _ => False) fun ts e' => ts = [] ∧ e' = e := by
  refine ⟨fun ts a rest => ?_, fun ts e' => ?_⟩
  · simp [stop]
  · simp [stop, eq_comm]

theorem decodes_ofExcept (r : Except ε α) :
    Decodes (ofExcept r : Reader τ ε α) (fun ts a => ts = [] ∧ r = .ok a)
      fun ts e => ts = [] ∧ r = .error e := by
  cases r with
  | ok a => exact (decodes_pure a).congr (by simp [eq_comm]) (by simp)
  | error e => exact (decodes_stop e).congr (by simp) (by simp [eq_comm])

/-- One reader after the other. -/
theorem Decodes.bind (h : Decodes rd Spells Stops) {k : α → Reader τ ε β}
    {Spells₂ : α → List τ → β → Prop} {Stops₂ : α → List τ → ε → Prop}
    (hk : ∀ a, Decodes (k a) (Spells₂ a) (Stops₂ a)) :
    Decodes (rd >>= k) (fun ts b => ∃ us vs a, ts = us ++ vs ∧ Spells us a ∧ Spells₂ a vs b)
      fun ts e => Stops ts e ∨ ∃ us vs a, ts = us ++ vs ∧ Spells us a ∧ Stops₂ a vs e := by
  have hrun : ∀ ts, (rd >>= k) ts = (rd ts).bind fun p => k p.1 p.2 := fun _ => rfl
  refine ⟨fun ts b rest => ?_, fun ts e => ?_⟩
  · rw [hrun]
    constructor
    · intro hok
      cases hrd : rd ts with
      | error f =>
        rw [hrd] at hok
        nomatch hok
      | ok p =>
        rw [hrd] at hok
        obtain ⟨us, rfl, hus⟩ := (h.ok_iff ts p.1 p.2).mp hrd
        obtain ⟨vs, hvs, hb⟩ := ((hk p.1).ok_iff p.2 b rest).mp hok
        exact ⟨us ++ vs, by rw [hvs, List.append_assoc], us, vs, p.1, rfl, hus, hb⟩
    · intro hspells
      obtain ⟨_, rfl, us, vs, a, rfl, hus, hb⟩ := hspells
      have hrd := (h.ok_iff (us ++ vs ++ rest) a (vs ++ rest)).mpr
        ⟨us, List.append_assoc .., hus⟩
      rw [hrd]
      exact ((hk a).ok_iff (vs ++ rest) b rest).mpr ⟨vs, rfl, hb⟩
  · rw [hrun]
    constructor
    · intro hstop
      cases hrd : rd ts with
      | error f =>
        rw [hrd] at hstop
        have hf : f = .stop e := Except.error.inj hstop
        obtain ⟨us, rest, hts, hus⟩ := (h.stop_iff ts e).mp (hf ▸ hrd)
        exact ⟨us, rest, hts, .inl hus⟩
      | ok p =>
        rw [hrd] at hstop
        obtain ⟨us, rfl, hus⟩ := (h.ok_iff ts p.1 p.2).mp hrd
        obtain ⟨vs, rest, hvs, hstops⟩ := ((hk p.1).stop_iff p.2 e).mp hstop
        exact ⟨us ++ vs, rest, by rw [hvs, List.append_assoc], .inr ⟨us, vs, p.1, rfl, hus, hstops⟩⟩
    · intro hstops
      obtain ⟨_, rest, rfl, hstop | ⟨us, vs, a, rfl, hus, hstop⟩⟩ := hstops
      · rw [(h.stop_iff _ e).mpr ⟨_, rest, rfl, hstop⟩]
        rfl
      · have hrd := (h.ok_iff (us ++ vs ++ rest) a (vs ++ rest)).mpr
          ⟨us, List.append_assoc .., hus⟩
        rw [hrd]
        exact ((hk a).stop_iff (vs ++ rest) e).mpr ⟨vs, rest, rfl, hstop⟩

/-- A loop of `n` turns reads `n` values. -/
theorem Decodes.times (h : Decodes rd Spells Stops) (n : ℕ) :
    Decodes (times n rd) (fun ts as => Listed Spells ts as ∧ as.length = n)
      (ListStops Spells Stops n) := by
  induction n with
  | zero =>
    refine (decodes_pure []).congr (fun ts as => ?_) (fun ts e => ?_)
    · constructor
      · intro hnil
        obtain ⟨rfl, rfl⟩ := hnil
        exact ⟨.nil, rfl⟩
      · intro hlisted
        obtain ⟨hlisted, hlength⟩ := hlisted
        cases hlisted with
        | nil => exact ⟨rfl, rfl⟩
        | cons _ _ => nomatch hlength
    · simp [ListStops]
  | succ n ih =>
    refine (h.bind fun a => ih.bind fun as => decodes_pure (a :: as)).congr
      (fun ts as => ?_) (fun ts e => ?_)
    · constructor
      · intro hspells
        obtain ⟨us, vs, a, rfl, ha, vs', _, as', rfl, ⟨has, hlength⟩, rfl, rfl⟩ := hspells
        rw [List.append_nil]
        exact ⟨.cons ha has, congrArg Nat.succ hlength⟩
      · intro hlisted
        obtain ⟨hlisted, hlength⟩ := hlisted
        cases hlisted with
        | nil => nomatch hlength
        | @cons us vs a as ha has =>
          exact ⟨us, vs, a, rfl, ha, vs, [], as, (List.append_nil vs).symm,
            ⟨has, Nat.succ.inj hlength⟩, rfl, rfl⟩
    · constructor
      · intro hstops
        rcases hstops with hfirst | ⟨us, vs, a, rfl, ha, hlater | ⟨_, _, _, _, _, hfalse⟩⟩
        · exact ⟨[], ts, [], rfl, .nil, Nat.succ_pos n, hfirst⟩
        · obtain ⟨us', vs', as, rfl, has, hlt, hstop⟩ := hlater
          exact ⟨us ++ us', vs', a :: as, (List.append_assoc ..).symm, .cons ha has,
            Nat.succ_lt_succ hlt, hstop⟩
        · exact hfalse.elim
      · intro hstops
        obtain ⟨us, vs, as, rfl, hlisted, hlt, hstop⟩ := hstops
        cases hlisted with
        | nil => exact .inl hstop
        | @cons us₁ us₂ a as ha has =>
          exact .inr ⟨us₁, us₂ ++ vs, a, List.append_assoc .., ha,
            .inl ⟨us₂, vs, as, rfl, has, Nat.lt_of_succ_lt_succ hlt, hstop⟩⟩

end Rules

/-- What a reader does to a list of tokens, in terms of what the list begins with. -/
theorem Decodes.cases {rd : Reader τ ε α} {Spells : List τ → α → Prop}
    {Stops : List τ → ε → Prop} (h : Decodes rd Spells Stops) (ts : List τ) :
    (∃ us rest a, ts = us ++ rest ∧ Spells us a ∧ rd ts = .ok (a, rest)) ∨
      (∃ us rest e, ts = us ++ rest ∧ Stops us e ∧ rd ts = .error (.stop e)) ∨
      rd ts = .error .pastEnd := by
  match hrd : rd ts with
  | .ok (a, rest) =>
    obtain ⟨us, hts, hus⟩ := (h.ok_iff ts a rest).mp hrd
    exact .inl ⟨us, rest, a, hts, hus, rfl⟩
  | .error (.stop e) =>
    obtain ⟨us, rest, hts, hus⟩ := (h.stop_iff ts e).mp hrd
    exact .inr (.inl ⟨us, rest, e, hts, hus, rfl⟩)
  | .error .pastEnd => exact .inr (.inr rfl)

end PoopWorms.Readers
