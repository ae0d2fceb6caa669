import Mathlib.Data.List.Nodup
import Mathlib.Logic.Function.Basic

/-!
# Relays

Items go through numbered stages. Before stage `n` an item waits in the line `f n`, the first
of a line is served first, and after a stage an item goes to the end of the next line or
leaves. `Ordered` says that no item overtakes one that started before it.
-/

namespace PoopWorms

open scoped List

/-- The next stage of each item, the items that wait in each line, and the stages done so far. -/
@[ext]
structure Relay (ι L : Type*) where
  next : ι → ℕ
  line : L → List ι
  done : List (ι × ℕ)

namespace Relay

variable {ι L : Type*}

/-- The items in the order in which they started. -/
def starts (done : List (ι × ℕ)) : List ι :=
  done.filterMap fun p => if p.2 = 1 then some p.1 else none

variable [DecidableEq ι] [DecidableEq L] (f : ℕ → L)

/-- The item does stage `n`, and goes to the end of the line of the next stage or leaves. -/
def pass (r : Relay ι L) (c : ι) (n : ℕ) (goes : Bool) : Relay ι L where
  next := Function.update r.next c (n + 1)
  line := if goes then Function.update r.line (f (n + 1)) (r.line (f (n + 1)) ++ [c]) else r.line
  done := r.done ++ [(c, n)]

/-- The line `x` is left with `l`. -/
def leave (r : Relay ι L) (x : L) (l : List ι) : Relay ι L :=
  { r with line := Function.update r.line x l }

/-- An item starts, or the first item of a line is served. -/
inductive Step (r : Relay ι L) : Relay ι L → Prop
  | start {c : ι} {goes : Bool} (hc : r.next c = 1) : Step r (r.pass f c 1 goes)
  | serve {c : ι} {n : ℕ} {l : List ι} {goes : Bool} (hline : r.line (f n) = c :: l)
      (hn : 2 ≤ n) (hnext : r.next c = n) : Step r ((r.leave (f n) l).pass f c n goes)

/-- While `a` waits, `b` is not further, and waits behind it if it is as far. -/
def Behind (r : Relay ι L) (a b : ι) : Prop :=
  ∀ x, a ∈ r.line x → r.next b ≤ r.next a ∧
    (r.next b = r.next a → b ∈ r.line x → [a, b] <+ r.line x)

/-- Items wait where their next stage is, and no item overtakes one that started before it. -/
structure Ordered (r : Relay ι L) : Prop where
  place : ∀ x, ∀ c ∈ r.line x, c ∈ starts r.done ∧ f (r.next c) = x
  nodup : ∀ x, (r.line x).Nodup
  starts_nodup : (starts r.done).Nodup
  started : ∀ c ∈ starts r.done, 2 ≤ r.next c
  past : ∀ p ∈ r.done, 1 ≤ p.2 ∧ p.2 < r.next p.1
  behind : ∀ a b, [a, b] <+ starts r.done → r.Behind a b
  order : ∀ a b, [a, b] <+ starts r.done → ∀ i j, [(b, j), (a, i)] <+ r.done → j < i

variable {f} {r r' : Relay ι L} {a b c : ι} {n : ℕ} {l : List ι} {x : L} {goes : Bool}

omit [DecidableEq ι] [DecidableEq L] in
theorem ordered_of_idle (hline : ∀ x, r.line x = []) (hdone : r.done = []) : r.Ordered f where
  place x c hc := by
    rw [hline x] at hc
    cases hc
  nodup x := by
    rw [hline x]
    exact List.nodup_nil
  starts_nodup := by
    rw [hdone]
    exact List.nodup_nil
  started c hc := by
    rw [hdone] at hc
    cases hc
  past p hp := by
    rw [hdone] at hp
    cases hp
  behind a b hab := by
    rw [hdone] at hab
    cases hab
  order a b hab := by
    rw [hdone] at hab
    cases hab

/-! ## Pairs in lists -/

omit [DecidableEq ι] in
theorem starts_append (done : List (ι × ℕ)) (c : ι) (n : ℕ) :
    starts (done ++ [(c, n)]) = starts done ++ if n = 1 then [c] else [] := by
  unfold starts
  rw [List.filterMap_append]
  congr 1
  by_cases hn : n = 1 <;> simp [hn]

omit [DecidableEq ι] [DecidableEq L] in
/-- A pair of a list with one more item is a pair of the list, or ends with that item. -/
theorem pair_append {α : Type*} {a b c : α} {l : List α} (h : [a, b] <+ l ++ [c]) :
    [a, b] <+ l ∨ a ∈ l ∧ b = c := by
  obtain ⟨l₁, l₂, hsplit, h₁, h₂⟩ := List.sublist_append_iff.mp h
  rcases List.sublist_singleton.mp h₂ with rfl | rfl
  · rw [List.append_nil] at hsplit
    exact .inl (hsplit ▸ h₁)
  · obtain ⟨rfl, hbc⟩ := List.append_inj' (show [a] ++ [b] = l₁ ++ [c] from hsplit) rfl
    exact .inr ⟨List.singleton_sublist.mp h₁, List.head_eq_of_cons_eq hbc⟩

omit [DecidableEq ι] [DecidableEq L] in
/-- An item of a pair of different items is not the other. -/
theorem ne_of_pair {α : Type*} {a b : α} {l : List α} (hl : l.Nodup) (h : [a, b] <+ l) : a ≠ b := by
  have hpair := hl.sublist h
  simpa using hpair

omit [DecidableEq ι] [DecidableEq L] in
theorem mem_of_pair {α : Type*} {a b : α} {l : List α} (h : [a, b] <+ l) : a ∈ l ∧ b ∈ l :=
  ⟨h.subset List.mem_cons_self, h.subset (by simp)⟩

/-! ## One stage -/

theorem pass_next_self : (r.pass f c n goes).next c = n + 1 := Function.update_self ..

theorem pass_next_of_ne (hac : a ≠ c) : (r.pass f c n goes).next a = r.next a :=
  Function.update_of_ne hac ..

/-- A line is as it was, or the item has joined it. -/
theorem pass_line (r : Relay ι L) (c : ι) (n : ℕ) (goes : Bool) (x : L) :
    (r.pass f c n goes).line x = r.line x ∨
      x = f (n + 1) ∧ (r.pass f c n goes).line x = r.line x ++ [c] := by
  unfold Relay.pass
  cases goes with
  | false => exact .inl rfl
  | true =>
    show Function.update r.line (f (n + 1)) (r.line (f (n + 1)) ++ [c]) x = _ ∨ _ ∧
      Function.update r.line (f (n + 1)) (r.line (f (n + 1)) ++ [c]) x = _
    by_cases hx : x = f (n + 1)
    · subst hx
      rw [Function.update_self]
      exact .inr ⟨rfl, rfl⟩
    · rw [Function.update_of_ne hx]
      exact .inl rfl

theorem mem_pass_line (hac : a ≠ c) : a ∈ (r.pass f c n goes).line x ↔ a ∈ r.line x := by
  rcases pass_line (f := f) r c n goes x with hline | ⟨-, hline⟩
  · rw [hline]
  · rw [hline, List.mem_append, List.mem_singleton]
    exact or_iff_left hac

theorem line_sublist_pass (r : Relay ι L) (c : ι) (n : ℕ) (goes : Bool) (x : L) :
    r.line x <+ (r.pass f c n goes).line x := by
  rcases pass_line (f := f) r c n goes x with hline | ⟨-, hline⟩
  · rw [hline]
  · rw [hline]
    exact List.sublist_append_left ..

/-- An item that waits nowhere does its stage: those that started before it are further, and those
that started after it are not. -/
theorem Ordered.pass (h : r.Ordered f) (hout : ∀ x, c ∉ r.line x) (hn : 1 ≤ n)
    (hnext : r.next c = n) (hstarts : c ∈ starts r.done ↔ n ≠ 1)
    (hbefore : ∀ a, [a, c] <+ starts (r.done ++ [(c, n)]) → ∀ x, a ∈ r.line x → n < r.next a)
    (hafter : ∀ b, [c, b] <+ starts (r.done ++ [(c, n)]) → r.next b ≤ n) (goes : Bool) :
    (r.pass f c n goes).Ordered f := by
  have hself : (r.pass f c n goes).next c = n + 1 := pass_next_self
  have hstarts' : starts (r.pass f c n goes).done = starts r.done ++ if n = 1 then [c] else [] :=
    starts_append ..
  have hmem : ∀ d, d ∈ starts (r.pass f c n goes).done ↔ d ∈ starts r.done ∨ d = c := by
    intro d
    rw [hstarts']
    split_ifs with hn1
    · simp
    · rw [List.append_nil]
      exact ⟨.inl, fun hd => hd.elim id fun hdc => hdc ▸ hstarts.mpr hn1⟩
  have hnodup : (starts (r.pass f c n goes).done).Nodup := by
    rw [hstarts']
    split_ifs with hn1
    · have hc : c ∉ starts r.done := fun hc => hstarts.mp hc hn1
      rw [← List.concat_eq_append]
      exact h.starts_nodup.concat hc
    · rw [List.append_nil]
      exact h.starts_nodup
  -- a pair that does not end with `c` is one from before
  have hpair : ∀ a b, b ≠ c → [a, b] <+ starts (r.pass f c n goes).done →
      [a, b] <+ starts r.done := by
    intro a b hbc hab
    rw [hstarts'] at hab
    split_ifs at hab
    · exact (pair_append hab).resolve_right fun hb => hbc hb.2
    · rwa [List.append_nil] at hab
  refine ⟨?_, ?_, hnodup, ?_, ?_, ?_, ?_⟩
  · intro x d hd
    by_cases hdc : d = c
    · subst hdc
      rcases pass_line (f := f) r d n goes x with hline | ⟨hx, -⟩
      · rw [hline] at hd
        exact absurd hd (hout x)
      · rw [hself]
        exact ⟨(hmem d).mpr (.inr rfl), hx.symm⟩
    · rw [mem_pass_line hdc] at hd
      rw [pass_next_of_ne hdc]
      exact ⟨(hmem d).mpr (.inl (h.place x d hd).1), (h.place x d hd).2⟩
  · intro x
    rcases pass_line (f := f) r c n goes x with hline | ⟨-, hline⟩
    · rw [hline]
      exact h.nodup x
    · rw [hline, ← List.concat_eq_append]
      exact (h.nodup x).concat (hout x)
  · intro d hd
    by_cases hdc : d = c
    · subst hdc
      omega
    · rw [pass_next_of_ne hdc]
      exact h.started d (((hmem d).mp hd).resolve_right hdc)
  · intro p hp
    rcases List.mem_append.mp hp with hp | hp
    · obtain ⟨hle, hlt⟩ := h.past p hp
      refine ⟨hle, ?_⟩
      by_cases hpc : p.1 = c
      · rw [hpc] at hlt ⊢
        omega
      · rw [pass_next_of_ne hpc]
        exact hlt
    · obtain rfl := List.mem_singleton.mp hp
      refine ⟨hn, ?_⟩
      rw [hself]
      omega
  · intro a b hab x ha
    have hne := ne_of_pair hnodup hab
    by_cases hac : a = c
    · subst hac
      have hb := hafter b hab
      rw [pass_next_of_ne hne.symm]
      exact ⟨by omega, fun heq => by omega⟩
    · rw [mem_pass_line hac] at ha
      rw [pass_next_of_ne hac]
      by_cases hbc : b = c
      · subst hbc
        have hlt := hbefore a hab x ha
        refine ⟨by omega, fun _ hb => ?_⟩
        rcases pass_line (f := f) r b n goes x with hline | ⟨-, hline⟩
        · rw [hline] at hb
          exact absurd hb (hout x)
        · rw [hline]
          exact (List.singleton_sublist.mpr ha).append (.refl [b])
      · rw [pass_next_of_ne hbc, mem_pass_line hbc]
        obtain ⟨hle, heq⟩ := h.behind a b (hpair a b hbc hab) x ha
        exact ⟨hle, fun hab' hb => (heq hab' hb).trans (line_sublist_pass r c n goes x)⟩
  · intro a b hab i j hij
    rcases pair_append (l := r.done) hij with hold | ⟨hb, hlast⟩
    · by_cases hbc : b = c
      · -- an item that has just started has done nothing before
        subst hbc
        have hb := h.past _ (mem_of_pair hold).1
        rw [hstarts'] at hab
        split_ifs at hab with hn1
        · dsimp only at hb
          omega
        · rw [List.append_nil] at hab
          exact h.order a b hab i j hold
      · exact h.order a b (hpair a b hbc hab) i j hold
    · cases hlast
      have hle := hafter b hab
      have hb := h.past _ hb
      dsimp only at hb
      omega

omit [DecidableEq ι] in
/-- A line is left without its first item. -/
theorem Ordered.leave (h : r.Ordered f) (hline : r.line x = c :: l) : (r.leave x l).Ordered f := by
  have hsub : ∀ y, (r.leave x l).line y <+ r.line y := by
    intro y
    by_cases hy : y = x
    · subst hy
      rw [hline]
      show Function.update r.line y l y <+ _
      rw [Function.update_self]
      exact List.sublist_cons_self ..
    · show Function.update r.line x l y <+ _
      rw [Function.update_of_ne hy]
  refine ⟨fun y d hd => h.place y d ((hsub y).subset hd), fun y => (h.nodup y).sublist (hsub y),
    h.starts_nodup, h.started, h.past, ?_, h.order⟩
  intro a b hab y ha
  obtain ⟨hle, heq⟩ := h.behind a b hab y ((hsub y).subset ha)
  refine ⟨hle, fun hab' hb => ?_⟩
  have hpair := heq hab' ((hsub y).subset hb)
  by_cases hy : y = x
  · subst hy
    have hnodup := h.nodup y
    rw [hline] at hpair hnodup
    have hl : (r.leave y l).line y = l := Function.update_self ..
    rw [hl] at ha ⊢
    have hac : a ≠ c := fun hac => (List.nodup_cons.mp hnodup).1 (hac ▸ ha)
    cases hpair with
    | cons _ hpair => exact hpair
    | cons_cons _ _ => exact absurd rfl hac
  · show [a, b] <+ Function.update r.line x l y
    rw [Function.update_of_ne hy]
    exact hpair

omit [DecidableEq ι] [DecidableEq L] in
/-- The first item of a line is behind all that started before it and still wait. -/
theorem Ordered.served (h : r.Ordered f) (hline : r.line (f n) = c :: l) (hnext : r.next c = n)
    (hac : [a, c] <+ starts r.done) (ha : a ∈ r.line x) : n < r.next a := by
  obtain ⟨hle, heq⟩ := h.behind a c hac x ha
  rw [hnext] at hle heq
  apply Nat.lt_of_le_of_ne hle
  intro hna
  have hx : x = f n := by
    rw [← (h.place x a ha).2, ← hna]
  subst hx
  have hpair := heq hna (by simp [hline])
  have hnodup := h.nodup (f n)
  rw [hline] at hpair hnodup
  have hne := ne_of_pair hnodup hpair
  cases hpair with
  | cons _ hpair => exact (List.nodup_cons.mp hnodup).1 (mem_of_pair hpair).2
  | cons_cons _ _ => exact hne rfl

/-- Every step keeps the order. -/
theorem Ordered.step (h : r.Ordered f) (hstep : r.Step f r') : r'.Ordered f := by
  cases hstep with
  | @start c goes hc =>
    have hnew : c ∉ starts r.done := fun hmem => by
      have hle := h.started c hmem
      omega
    apply h.pass
    · exact fun x hx => hnew (h.place x c hx).1
    · exact Nat.le_refl 1
    · exact hc
    · exact iff_of_false hnew (by simp)
    · intro a _ x ha
      exact h.started a (h.place x a ha).1
    · intro b hcb
      rw [starts_append, if_pos rfl] at hcb
      rcases pair_append hcb with hcb | ⟨hc, -⟩
      · exact absurd (mem_of_pair hcb).1 hnew
      · exact absurd hc hnew
  | @serve c n l goes hline hn hnext =>
    have hc : c ∈ r.line (f n) := by simp [hline]
    have hleave := h.leave hline
    have hself : (r.leave (f n) l).line (f n) = l := Function.update_self ..
    have hother : ∀ x ≠ f n, (r.leave (f n) l).line x = r.line x := fun x hx =>
      Function.update_of_ne hx ..
    have hnodup := h.nodup (f n)
    rw [hline] at hnodup
    have hn1 : n ≠ 1 := by omega
    apply hleave.pass
    · intro x hx
      by_cases hxn : x = f n
      · subst hxn
        rw [hself] at hx
        exact (List.nodup_cons.mp hnodup).1 hx
      · rw [hother x hxn] at hx
        apply hxn
        rw [← (h.place x c hx).2, hnext]
    · omega
    · exact hnext
    · exact iff_of_true (h.place _ c hc).1 hn1
    · intro a hac x ha
      rw [starts_append, if_neg hn1, List.append_nil] at hac
      by_cases hxn : x = f n
      · subst hxn
        rw [hself] at ha
        exact h.served hline hnext hac (show a ∈ r.line (f n) by simp [hline, ha])
      · rw [hother x hxn] at ha
        exact h.served hline hnext hac ha
    · intro b hcb
      rw [starts_append, if_neg hn1, List.append_nil] at hcb
      have hle := (h.behind c b hcb (f n) hc).1
      rw [hnext] at hle
      exact hle

end Relay

end PoopWorms
