import Mathlib.Data.Finset.Card
import Mathlib.Data.Finset.Range
import Mathlib.Logic.Function.Basic
import Mathlib.Tactic.Common

/-!
# Colouring by a stack of free colours

A straight-line program defines values and uses them. Each value is given a colour when it
is defined: a free one if there is one, else the next new one; its colour is free again
after its last use, and never if it has none. `Colored` collects what the colours of a
whole program satisfy: values that are needed at the same time differ, and a new colour is
taken only when all smaller ones are needed.
-/

namespace PoopWorms.ColorStack

/-- A value `o` is defined, or used by `c`. -/
inductive Op (O C : Type*)
  | define (o : O)
  | use (o : O) (c : C)

variable {O C : Type*} [DecidableEq O]

/-- How often a value is used. -/
def uses (o : O) (ops : List (Op O C)) : ℕ :=
  ops.countP fun op => match op with
    | .define _ => false
    | .use o' _ => o' = o

@[simp] theorem uses_nil (o : O) : uses o ([] : List (Op O C)) = 0 := rfl

@[simp] theorem uses_define (o o' : O) (ops : List (Op O C)) :
    uses o (.define o' :: ops) = uses o ops := List.countP_cons_of_neg (by simp)

theorem uses_use (o o' : O) (c : C) (ops : List (Op O C)) :
    uses o (.use o' c :: ops) = uses o ops + if o' = o then 1 else 0 := by
  unfold uses
  rw [List.countP_cons]
  simp

@[simp] theorem uses_append (o : O) (ops ops' : List (Op O C)) :
    uses o (ops ++ ops') = uses o ops + uses o ops' := List.countP_append ..

theorem uses_pos_iff {o : O} {ops : List (Op O C)} : 0 < uses o ops ↔ ∃ c, .use o c ∈ ops := by
  unfold uses
  rw [List.countP_pos_iff]
  constructor
  · rintro ⟨op, hmem, hop⟩
    cases op with
    | define o' => cases hop
    | use o' c =>
      obtain rfl : o' = o := by simpa using hop
      exact ⟨c, hmem⟩
  · rintro ⟨c, hmem⟩
    exact ⟨_, hmem, by simp⟩

/-- No value is defined twice, and each is defined before it is used. -/
def WellScoped : List O → List (Op O C) → Prop
  | _, [] => True
  | seen, .define o :: ops => o ∉ seen ∧ WellScoped (o :: seen) ops
  | seen, .use o _ :: ops => o ∈ seen ∧ WellScoped seen ops

omit [DecidableEq O] in
/-- A program is well scoped if every definition is new and every use has a definition. -/
theorem wellScoped_of_cuts {done rest : List (Op O C)} {seen : List O}
    (hseen : ∀ o, o ∈ seen ↔ .define o ∈ done)
    (hdefine : ∀ pre o post, done ++ rest = pre ++ .define o :: post → .define o ∉ pre)
    (huse : ∀ pre o c post, done ++ rest = pre ++ .use o c :: post → .define o ∈ pre) :
    WellScoped seen rest := by
  induction rest generalizing done seen with
  | nil => trivial
  | cons op rest ih =>
    cases op with
    | define o =>
      have hseen' : ∀ o', o' ∈ o :: seen ↔ .define o' ∈ done ++ [.define o] := by
        intro o'
        rw [List.mem_cons, hseen o', List.mem_append, List.mem_singleton, Op.define.injEq, or_comm]
      refine ⟨fun hmem => hdefine done o rest rfl ((hseen o).mp hmem), ih hseen' ?_ ?_⟩
      · simpa using hdefine
      · simpa using huse
    | use o c =>
      have hseen' : ∀ o', o' ∈ seen ↔ .define o' ∈ done ++ [.use o c] := by
        intro o'
        rw [hseen o']
        simp
      refine ⟨(hseen o).mpr (huse done o c rest rfl), ih hseen' ?_ ?_⟩
      · simpa using hdefine
      · simpa using huse

structure State (O : Type*) where
  colour : O → ℕ
  free : List ℕ
  next : ℕ

/-- One operation, when `rest` is still to come. -/
def step (rest : List (Op O C)) (s : State O) : Op O C → State O
  | .define o =>
    match s.free with
    | c :: free => { s with colour := Function.update s.colour o c, free := free }
    | [] => { s with colour := Function.update s.colour o s.next, next := s.next + 1 }
  | .use o _ => if uses o rest = 0 then { s with free := s.colour o :: s.free } else s

/-- A part of a program, with `rest` to come after it. -/
def run : State O → List (Op O C) → List (Op O C) → State O
  | s, [], _ => s
  | s, op :: ops, rest => run (step (ops ++ rest) s op) ops rest

/-- Every definition of a part of a program finds at most `N` colours in use. -/
def Fits (N : ℕ) : State O → List (Op O C) → List (Op O C) → Prop
  | _, [], _ => True
  | s, op :: ops, rest =>
    (∀ o, op = .define o → s.next ≤ N) ∧ Fits N (step (ops ++ rest) s op) ops rest

theorem run_append (s : State O) (ops ops' rest : List (Op O C)) :
    run s (ops ++ ops') rest = run (run s ops (ops' ++ rest)) ops' rest := by
  induction ops generalizing s with
  | nil => rfl
  | cons op ops ih =>
    rw [List.cons_append, run, run, List.append_assoc]
    exact ih _

theorem fits_append {N : ℕ} {s : State O} {ops ops' rest : List (Op O C)} :
    Fits N s (ops ++ ops') rest ↔
      Fits N s ops (ops' ++ rest) ∧ Fits N (run s ops (ops' ++ rest)) ops' rest := by
  induction ops generalizing s with
  | nil => simp [Fits, run]
  | cons op ops ih =>
    rw [List.cons_append, Fits, Fits, run, List.append_assoc, ih, and_assoc]

/-- Between `done` and `rest` a value has to be kept: it was defined and it is used later,
or it has no use at all. -/
def Held (done rest : List (Op O C)) (o : O) : Prop :=
  .define o ∈ done ∧ (0 < uses o rest ∨ uses o done = 0)

/-- What the colours of the values that were defined in `done` satisfy. -/
structure Colored (done rest : List (Op O C)) (s : State O) : Prop where
  lt : ∀ o, .define o ∈ done → s.colour o < s.next
  apart : ∀ pre o post, done = pre ++ .define o :: post →
    ∀ o' ≠ o, Held (pre ++ [.define o]) (post ++ rest) o' → s.colour o' ≠ s.colour o
  attained : ∀ c < s.next, ∃ pre o post, done = pre ++ .define o :: post ∧ s.colour o = c ∧
    ∀ c' < c, ∃ o' ≠ o, Held (pre ++ [.define o]) (post ++ rest) o' ∧ s.colour o' = c'

/-- The free colours are those that no value is kept in. -/
structure Inv (done rest : List (Op O C)) (s : State O) : Prop extends Colored done rest s where
  scope : ∃ seen, (∀ o, o ∈ seen ↔ .define o ∈ done) ∧ WellScoped seen rest
  defined : ∀ o, 0 < uses o done → .define o ∈ done
  inj : ∀ {o o'}, Held done rest o → Held done rest o' → s.colour o = s.colour o' → o = o'
  free_nodup : s.free.Nodup
  free_lt : ∀ c ∈ s.free, c < s.next
  not_free : ∀ {o}, Held done rest o → s.colour o ∉ s.free
  cover : ∀ c < s.next, c ∈ s.free ∨ ∃ o, Held done rest o ∧ s.colour o = c

variable {done rest pre post : List (Op O C)} {s : State O} {o o' : O} {c : C}

/-- A definition moves from what is to come to what is done. -/
theorem held_define_iff (hnew : .define o ∉ done) (hused : uses o done = 0) :
    Held (done ++ [.define o]) rest o' ↔
      o' = o ∨ o' ≠ o ∧ Held done (.define o :: rest) o' := by
  unfold Held
  by_cases ho : o' = o
  · subst ho
    simp [hused]
  · simp [ho]

theorem held_use (h : Held (done ++ [.use o c]) rest o') : Held done (.use o c :: rest) o' := by
  obtain ⟨hdef, huse⟩ := h
  refine ⟨by simpa using hdef, ?_⟩
  rw [uses_append, uses_use, uses_nil] at huse
  rw [uses_use]
  omega

/-- The last use of a value ends its time. -/
theorem held_use_iff :
    Held (done ++ [.use o c]) rest o' ↔
      Held done (.use o c :: rest) o' ∧ ¬ (o' = o ∧ uses o rest = 0) := by
  constructor
  · intro h
    refine ⟨held_use h, ?_⟩
    rintro ⟨rfl, hlast⟩
    obtain ⟨-, huse⟩ := h
    rw [uses_append, uses_use, uses_nil, if_pos rfl] at huse
    omega
  · rintro ⟨⟨hdef', huse⟩, hlast⟩
    refine ⟨by simpa using hdef', ?_⟩
    rw [uses_append, uses_use, uses_nil]
    rw [uses_use] at huse
    by_cases ho' : o = o'
    · subst ho'
      rw [if_pos rfl] at huse ⊢
      left
      by_contra hzero
      exact hlast ⟨rfl, by omega⟩
    · rw [if_neg ho'] at huse ⊢
      omega

/-- What is held later was held before, if it was defined then. -/
theorem Held.earlier {mid : List (Op O C)} (h : Held (pre ++ mid) rest o)
    (ho : .define o ∈ pre) : Held pre (mid ++ rest) o := by
  obtain ⟨-, huse⟩ := h
  refine ⟨ho, ?_⟩
  rw [uses_append] at huse ⊢
  omega

omit [DecidableEq O] in
/-- A list with a last operation, cut at a definition. -/
theorem append_singleton_eq_cut {x : Op O C}
    (h : done ++ [x] = pre ++ .define o :: post) :
    (x = .define o ∧ post = [] ∧ done = pre) ∨
      ∃ post', post = post' ++ [x] ∧ done = pre ++ .define o :: post' := by
  rcases List.eq_nil_or_concat post with rfl | ⟨post', y, rfl⟩
  · obtain ⟨rfl, hx⟩ := List.append_inj' h rfl
    cases hx
    exact .inl ⟨rfl, rfl, rfl⟩
  · rw [List.concat_eq_append, ← List.cons_append, ← List.append_assoc] at h
    obtain ⟨rfl, hx⟩ := List.append_inj' h rfl
    cases hx
    exact .inr ⟨post', by rw [List.concat_eq_append], rfl⟩

/-! ## Steps -/

namespace Inv

theorem nil (hscope : WellScoped [] rest) (colour : O → ℕ) : Inv [] rest ⟨colour, [], 0⟩ where
  lt := nofun
  apart pre o post h := by simp at h
  attained := nofun
  scope := ⟨[], by simp, hscope⟩
  defined o h := by simp at h
  inj h := by simp [Held] at h
  free_nodup := List.nodup_nil
  free_lt := nofun
  not_free h := by simp [Held] at h
  cover := nofun

theorem not_mem_define (h : Inv done (.define o :: rest) s) : .define o ∉ done := by
  obtain ⟨seen, hseen, hnot, -⟩ := h.scope
  intro hmem
  exact hnot ((hseen o).mpr hmem)

theorem uses_eq_zero (h : Inv done rest s) (hnew : .define o ∉ done) : uses o done = 0 := by
  by_contra huse
  exact hnew (h.defined o (Nat.pos_of_ne_zero huse))

/-- A value is defined with a colour `k` that no value is kept in. -/
theorem define_with (h : Inv done (.define o :: rest) s) {k next : ℕ} {free : List ℕ}
    (hk : k < next) (hnext : s.next ≤ next) (hnodup : free.Nodup)
    (hfree : ∀ c ∈ free, c < next ∧ c ≠ k)
    (hheld : ∀ o', Held done (.define o :: rest) o' → s.colour o' ∉ free ∧ s.colour o' ≠ k)
    (hcover : ∀ c < next, c ∈ free ∨ c = k ∨
      ∃ o', Held done (.define o :: rest) o' ∧ s.colour o' = c)
    (hfresh : ∀ c < next, s.next ≤ c → c = k ∧
      ∀ c' < k, ∃ o', Held done (.define o :: rest) o' ∧ s.colour o' = c') :
    Inv (done ++ [.define o]) rest ⟨Function.update s.colour o k, free, next⟩ := by
  obtain ⟨seen, hseen, hnot, hscope⟩ := h.scope
  have hnew := h.not_mem_define
  have hunused := h.uses_eq_zero hnew
  have hne : ∀ {o'}, .define o' ∈ done → o' ≠ o := by
    rintro o' hmem rfl
    exact hnew hmem
  have hcolour : ∀ {o'}, .define o' ∈ done → Function.update s.colour o k o' = s.colour o' :=
    fun hmem => Function.update_of_ne (hne hmem) ..
  refine ⟨⟨?_, ?_, ?_⟩, ⟨o :: seen, ?_, hscope⟩, ?_, ?_, hnodup, fun c hc => (hfree c hc).1,
    ?_, ?_⟩
  · intro o' hmem
    rcases List.mem_append.mp hmem with hmem | hmem
    · show Function.update s.colour o k o' < next
      rw [hcolour hmem]
      exact Nat.lt_of_lt_of_le (h.lt o' hmem) hnext
    · cases List.mem_singleton.mp hmem
      show Function.update s.colour o k o < next
      rw [Function.update_self]
      exact hk
  · intro pre o₁ post hcut o' ho' hheld'
    show Function.update s.colour o k o' ≠ Function.update s.colour o k o₁
    rcases append_singleton_eq_cut hcut with ⟨hx, rfl, rfl⟩ | ⟨post', rfl, rfl⟩
    · cases hx
      rw [List.nil_append, held_define_iff hnew hunused] at hheld'
      obtain ⟨-, hbefore⟩ := hheld'.resolve_left ho'
      rw [hcolour hbefore.1, Function.update_self]
      exact (hheld o' hbefore).2
    · rw [List.append_assoc] at hheld'
      have hpre : .define o' ∈ pre ++ .define o₁ :: post' := by
        rcases List.mem_append.mp hheld'.1 with hmem | hmem
        · exact List.mem_append_left _ hmem
        · cases List.mem_singleton.mp hmem
          exact absurd rfl ho'
      rw [hcolour hpre, hcolour (show .define o₁ ∈ pre ++ .define o₁ :: post' by simp)]
      exact h.apart pre o₁ post' rfl o' ho' hheld'
  · intro c hc
    by_cases hold : c < s.next
    · obtain ⟨pre, o₁, post, rfl, hc', hall⟩ := h.attained c hold
      refine ⟨pre, o₁, post ++ [.define o], by simp, ?_, ?_⟩
      · show Function.update s.colour o k o₁ = c
        rw [hcolour (by simp)]
        exact hc'
      · intro c' hc'
        obtain ⟨o', ho', hheld', hcol⟩ := hall c' hc'
        refine ⟨o', ho', by rw [List.append_assoc]; exact hheld', ?_⟩
        have hpre : .define o' ∈ pre ++ .define o₁ :: post := by
          rcases List.mem_append.mp hheld'.1 with hmem | hmem
          · exact List.mem_append_left _ hmem
          · cases List.mem_singleton.mp hmem
            exact absurd rfl ho'
        show Function.update s.colour o k o' = c'
        rw [hcolour hpre]
        exact hcol
    · obtain ⟨rfl, hall⟩ := hfresh c hc (by omega)
      refine ⟨done, o, [], rfl, Function.update_self .., ?_⟩
      intro c' hc'
      obtain ⟨o', hheld', hcol⟩ := hall c' hc'
      refine ⟨o', hne hheld'.1, ?_, ?_⟩
      · rw [List.nil_append, held_define_iff hnew hunused]
        exact .inr ⟨hne hheld'.1, hheld'⟩
      · show Function.update s.colour o c o' = c'
        rw [hcolour hheld'.1]
        exact hcol
  · intro o'
    rw [List.mem_cons, hseen o', List.mem_append, List.mem_singleton]
    constructor
    · rintro (rfl | hmem)
      · exact .inr rfl
      · exact .inl hmem
    · rintro (hmem | heq)
      · exact .inr hmem
      · cases heq
        exact .inl rfl
  · intro o' huse
    rw [uses_append, uses_define, uses_nil] at huse
    exact List.mem_append_left _ (h.defined o' huse)
  · intro o₁ o₂ h₁ h₂ heq
    rw [held_define_iff hnew hunused] at h₁ h₂
    change Function.update s.colour o k o₁ = Function.update s.colour o k o₂ at heq
    rcases h₁ with rfl | ⟨hne₁, h₁⟩ <;> rcases h₂ with rfl | ⟨hne₂, h₂⟩
    · rfl
    · rw [Function.update_self, Function.update_of_ne hne₂] at heq
      exact absurd heq.symm (hheld o₂ h₂).2
    · rw [Function.update_self, Function.update_of_ne hne₁] at heq
      exact absurd heq (hheld o₁ h₁).2
    · rw [Function.update_of_ne hne₁, Function.update_of_ne hne₂] at heq
      exact h.inj h₁ h₂ heq
  · intro o' hheld'
    rw [held_define_iff hnew hunused] at hheld'
    show Function.update s.colour o k o' ∉ free
    rcases hheld' with rfl | ⟨hne', hheld'⟩
    · rw [Function.update_self]
      intro hmem
      exact (hfree k hmem).2 rfl
    · rw [Function.update_of_ne hne']
      exact (hheld o' hheld').1
  · intro c hc
    rcases hcover c hc with hfree' | rfl | ⟨o', hheld', hcol⟩
    · exact .inl hfree'
    · refine .inr ⟨o, ?_, Function.update_self ..⟩
      rw [held_define_iff hnew hunused]
      exact .inl rfl
    · refine .inr ⟨o', ?_, ?_⟩
      · rw [held_define_iff hnew hunused]
        exact .inr ⟨hne hheld'.1, hheld'⟩
      · show Function.update s.colour o k o' = c
        rw [hcolour hheld'.1]
        exact hcol

/-- A definition takes a free colour, or a new one if all are taken. -/
theorem define (h : Inv done (.define o :: rest) s) :
    Inv (done ++ [.define o]) rest (step rest s (.define o)) := by
  unfold step
  cases hfree : s.free with
  | nil =>
    have hcover : ∀ c < s.next, ∃ o', Held done (.define o :: rest) o' ∧ s.colour o' = c := by
      intro c hc
      apply (h.cover c hc).resolve_left
      rw [hfree]
      exact List.not_mem_nil
    refine h.define_with (Nat.lt_succ_self _) (Nat.le_succ _) List.nodup_nil nofun ?_ ?_ ?_
    · intro o' hheld
      exact ⟨List.not_mem_nil, Nat.ne_of_lt (h.lt o' hheld.1)⟩
    · intro c hc
      rcases Nat.lt_or_eq_of_le (Nat.le_of_lt_succ hc) with hlt | heq
      · exact .inr (.inr (hcover c hlt))
      · exact .inr (.inl heq)
    · intro c hc hge
      exact ⟨by omega, hcover⟩
  | cons k free =>
    have hnodup := h.free_nodup
    rw [hfree, List.nodup_cons] at hnodup
    have hlt : ∀ c ∈ k :: free, c < s.next := hfree ▸ h.free_lt
    refine h.define_with (hlt k (by simp)) (Nat.le_refl _) hnodup.2 ?_ ?_ ?_ ?_
    · intro c hc
      refine ⟨hlt c (by simp [hc]), ?_⟩
      rintro rfl
      exact hnodup.1 hc
    · intro o' hheld
      have hnot := h.not_free hheld
      rw [hfree, List.mem_cons, not_or] at hnot
      exact ⟨hnot.2, hnot.1⟩
    · intro c hc
      have hcover := h.cover c hc
      rw [hfree, List.mem_cons] at hcover
      tauto
    · intro c hc hge
      omega

/-- A last use frees the colour. -/
theorem use (h : Inv done (.use o c :: rest) s) :
    Inv (done ++ [.use o c]) rest (step rest s (.use o c)) := by
  obtain ⟨seen, hseen, ho, hscope⟩ := h.scope
  have hdef : .define o ∈ done := (hseen o).mp ho
  have hheld : Held done (.use o c :: rest) o :=
    ⟨hdef, .inl (by rw [uses_use, if_pos rfl]; omega)⟩
  have hcolour : (step rest s (.use o c)).colour = s.colour := by
    unfold step
    dsimp only
    split_ifs <;> rfl
  have hnext : (step rest s (.use o c)).next = s.next := by
    unfold step
    dsimp only
    split_ifs <;> rfl
  have hfree : ∀ k, k ∈ (step rest s (.use o c)).free ↔
      k ∈ s.free ∨ k = s.colour o ∧ uses o rest = 0 := by
    intro k
    unfold step
    dsimp only
    split_ifs with hlast
    · simp [hlast, or_comm]
    · simp [hlast]
  refine ⟨⟨?_, ?_, ?_⟩, ⟨seen, ?_, hscope⟩, ?_, ?_, ?_, ?_, ?_, ?_⟩
  · intro o' hmem
    rw [hcolour, hnext]
    exact h.lt o' (by simpa using hmem)
  · intro pre o₁ post hcut o' ho' hheld'
    rw [hcolour]
    rcases append_singleton_eq_cut hcut with ⟨hx, -, -⟩ | ⟨post', rfl, rfl⟩
    · cases hx
    · rw [List.append_assoc] at hheld'
      exact h.apart pre o₁ post' rfl o' ho' hheld'
  · intro k hk
    rw [hnext] at hk
    obtain ⟨pre, o₁, post, rfl, hk', hall⟩ := h.attained k hk
    refine ⟨pre, o₁, post ++ [.use o c], by simp, by rw [hcolour]; exact hk', ?_⟩
    intro k' hlt
    obtain ⟨o', ho', hheld', hcol⟩ := hall k' hlt
    exact ⟨o', ho', by rw [List.append_assoc]; exact hheld', by rw [hcolour]; exact hcol⟩
  · intro o'
    rw [hseen o']
    simp
  · intro o' huse
    rw [uses_append, uses_use, uses_nil] at huse
    apply List.mem_append_left
    by_cases heq : o = o'
    · exact heq ▸ hdef
    · rw [if_neg heq] at huse
      exact h.defined o' (by omega)
  · intro o₁ o₂ h₁ h₂ heq
    rw [hcolour] at heq
    exact h.inj (held_use h₁) (held_use h₂) heq
  · unfold step
    dsimp only
    split_ifs
    · exact List.nodup_cons.mpr ⟨h.not_free hheld, h.free_nodup⟩
    · exact h.free_nodup
  · intro k hk
    rw [hnext]
    rcases (hfree k).mp hk with hk | ⟨rfl, -⟩
    · exact h.free_lt k hk
    · exact h.lt o hdef
  · intro o' hheld'
    obtain ⟨hbefore, hlast⟩ := held_use_iff.mp hheld'
    rw [hcolour, hfree, not_or]
    refine ⟨h.not_free hbefore, ?_⟩
    rintro ⟨hcol, hzero⟩
    exact hlast ⟨h.inj hbefore hheld hcol, hzero⟩
  · intro k hk
    rw [hnext] at hk
    rw [hfree]
    rcases h.cover k hk with hk | ⟨o', hbefore, hcol⟩
    · exact .inl (.inl hk)
    · by_cases hlast : o' = o ∧ uses o rest = 0
      · rw [← hcol, hlast.1]
        exact .inl (.inr ⟨rfl, hlast.2⟩)
      · exact .inr ⟨o', held_use_iff.mpr ⟨hbefore, hlast⟩, by rw [hcolour]; exact hcol⟩

theorem run {ops : List (Op O C)} (h : Inv done (ops ++ rest) s) :
    Inv (done ++ ops) rest (run s ops rest) := by
  induction ops generalizing done s with
  | nil => rwa [List.append_nil]
  | cons op ops ih =>
    rw [← List.singleton_append, ← List.append_assoc]
    cases op with
    | define o => exact ih h.define
    | use o c => exact ih h.use

end Inv

/-! ## Numbers of colours -/

/-- A program fits if at each of its definitions it has at most `N` colours in use. -/
theorem fits_of_cuts {N : ℕ} {ops : List (Op O C)}
    (h : ∀ pre o post, ops = pre ++ .define o :: post →
      (run s pre (.define o :: post ++ rest)).next ≤ N) : Fits N s ops rest := by
  induction ops generalizing s with
  | nil => trivial
  | cons op ops ih =>
    refine ⟨?_, ih fun pre o post hcut => ?_⟩
    · rintro o rfl
      exact h [] o ops rfl
    · have hrun := h (op :: pre) o post (by rw [hcut]; rfl)
      rw [hcut]
      rw [run] at hrun
      rwa [List.append_assoc]

theorem next_le_of_fits {N : ℕ} (h : Fits N s (pre ++ .define o :: post) rest) :
    (run s pre (.define o :: post ++ rest)).next ≤ N :=
  (fits_append.mp h).2.1 o rfl

namespace Colored

variable {mid : List (Op O C)}

theorem ne_of_first {l₁ l₂ : List (Op O C)} (h : Colored (pre ++ mid) rest s)
    (hpre : pre = l₁ ++ .define o :: l₂) (hmem : .define o' ∈ l₁)
    (ho' : Held pre (mid ++ rest) o') (hne : o' ≠ o) : s.colour o' ≠ s.colour o := by
  subst hpre
  apply h.apart l₁ o (l₂ ++ mid) (by simp) o' hne
  rw [show l₁ ++ .define o :: l₂ = (l₁ ++ [.define o]) ++ l₂ by simp] at ho'
  rw [List.append_assoc]
  exact ho'.earlier (List.mem_append_left _ hmem)

/-- Values that are kept at the same time have different colours. -/
theorem ne_of_held (h : Colored (pre ++ mid) rest s) (ho : Held pre (mid ++ rest) o)
    (ho' : Held pre (mid ++ rest) o') (hne : o ≠ o') : s.colour o ≠ s.colour o' := by
  -- one of the two was defined first
  obtain ⟨l₁, l₂, hpre⟩ := List.append_of_mem ho'.1
  have hmem := ho.1
  rw [hpre, List.mem_append, List.mem_cons] at hmem
  rcases hmem with hmem | heq | hmem
  · exact h.ne_of_first hpre hmem ho hne
  · cases heq
    exact absurd rfl hne
  · obtain ⟨l₃, l₄, rfl⟩ := List.append_of_mem hmem
    apply Ne.symm
    have hcut : pre = (l₁ ++ .define o' :: l₃) ++ .define o :: l₄ := by
      rw [hpre]
      simp
    exact h.ne_of_first hcut (by simp) ho' hne.symm

/-- No more values are kept at once than there are colours. -/
theorem length_le_next (h : Colored (pre ++ mid) rest s) {l : List O} (hnodup : l.Nodup)
    (hl : ∀ o ∈ l, Held pre (mid ++ rest) o) : l.length ≤ s.next := by
  have hinj : (l.map s.colour).Nodup := by
    apply hnodup.map_on
    intro o ho o' ho' heq
    by_contra hne
    exact h.ne_of_held (hl o ho) (hl o' ho') hne heq
  have hsub : (l.map s.colour).toFinset ⊆ Finset.range s.next := by
    intro c hc
    rw [List.mem_toFinset, List.mem_map] at hc
    obtain ⟨o, ho, rfl⟩ := hc
    exact Finset.mem_range.mpr (h.lt o (List.mem_append_left _ (hl o ho).1))
  have hcard := Finset.card_le_card hsub
  rwa [List.toFinset_card_of_nodup hinj, List.length_map, Finset.card_range] at hcard

/-- When a colour was taken first, more values than its number were kept. -/
theorem lt_length (h : Colored done rest s) {c : ℕ} (hc : c < s.next) :
    ∃ pre o post, done = pre ++ .define o :: post ∧ s.colour o = c ∧
      ∀ l : List O, o ∈ l → (∀ o', Held (pre ++ [.define o]) (post ++ rest) o' → o' ∈ l) →
        c < l.length := by
  obtain ⟨pre, o, post, hcut, hcol, hall⟩ := h.attained c hc
  refine ⟨pre, o, post, hcut, hcol, fun l ho hl => ?_⟩
  have hsub : Finset.range (c + 1) ⊆ (l.map s.colour).toFinset := by
    intro c' hc'
    rw [List.mem_toFinset, List.mem_map]
    rcases Nat.lt_or_eq_of_le (Nat.le_of_lt_succ (Finset.mem_range.mp hc')) with hlt | rfl
    · obtain ⟨o', -, hheld, hcol'⟩ := hall c' hlt
      exact ⟨o', hl o' hheld, hcol'⟩
    · exact ⟨o, ho, hcol⟩
  have hcard := (Finset.card_le_card hsub).trans (List.toFinset_card_le _)
  rw [Finset.card_range, List.length_map] at hcard
  exact hcard

end Colored

end PoopWorms.ColorStack
