import Mathlib.Data.List.Nodup
import Mathlib.Tactic.Common

/-!
# Doubly linked lists

`Linked prev next p l q` says that the nodes of `l` are chained by the `prev` and `next`
pointers, with `p` before the first node and `q` after the last. The three surgeries of an
intrusive list (put a node in, take a node out, put a node in the place of another) are
stated on a list cut at the place of the surgery, for any pointers that changed exactly as
the surgery changes them.
-/

namespace PoopWorms.LinkedList

variable {ι : Type*}

/-- The nodes of `l` are chained, with `p` before the first and `q` after the last. -/
def Linked (prev next : ι → Option ι) : Option ι → List ι → Option ι → Prop
  | _, [], _ => True
  | p, x :: xs, q => prev x = p ∧ next x = xs.head?.or q ∧ Linked prev next (some x) xs q

variable {prev next prev' next' : ι → Option ι} {p q p' q' : Option ι} {l l₁ l₂ : List ι}

@[simp] theorem linked_nil : Linked prev next p [] q := trivial

@[simp] theorem linked_cons {x : ι} {xs : List ι} :
    Linked prev next p (x :: xs) q ↔
      prev x = p ∧ next x = xs.head?.or q ∧ Linked prev next (some x) xs q := Iff.rfl

/-- A chain cut in two: each part ends where the other begins. -/
theorem linked_append :
    Linked prev next p (l₁ ++ l₂) q ↔
      Linked prev next p l₁ (l₂.head?.or q) ∧ Linked prev next (l₁.getLast?.or p) l₂ q := by
  induction l₁ generalizing p with
  | nil => simp
  | cons x xs ih =>
    have hhead : (xs ++ l₂).head?.or q = xs.head?.or (l₂.head?.or q) := by
      cases xs <;> simp
    have hlast : (x :: xs).getLast?.or p = xs.getLast?.or (some x) := by
      cases xs with
      | nil => simp
      | cons y ys => simp [List.getLast?_cons]
    rw [List.cons_append, linked_cons, linked_cons, ih, hhead, hlast]
    tauto

/-- Pointers that agree on the nodes of a chain chain them alike. -/
theorem Linked.congr (h : Linked prev next p l q) (hprev : ∀ x ∈ l, prev' x = prev x)
    (hnext : ∀ x ∈ l, next' x = next x) : Linked prev' next' p l q := by
  induction l generalizing p with
  | nil => trivial
  | cons x xs ih =>
    obtain ⟨hp, hn, hxs⟩ := h
    refine ⟨by rw [hprev x (by simp), hp], by rw [hnext x (by simp), hn], ?_⟩
    exact ih hxs (fun y hy => hprev y (by simp [hy])) (fun y hy => hnext y (by simp [hy]))

variable [DecidableEq ι]

/-- Repointing the `next` of the last node moves the right end of a chain. -/
theorem Linked.moveRight (h : Linked prev next p l q) (hl : l.Nodup)
    (hprev : ∀ x ∈ l, prev' x = prev x)
    (hnext : ∀ x ∈ l, next' x = if l.getLast? = some x then q' else next x) :
    Linked prev' next' p l q' := by
  induction l generalizing p with
  | nil => trivial
  | cons x xs ih =>
    obtain ⟨hp, hn, hxs⟩ := h
    obtain ⟨hx, hnd⟩ := List.nodup_cons.mp hl
    refine ⟨by rw [hprev x (by simp), hp], ?_, ?_⟩
    · cases xs with
      | nil => simpa using hnext x (by simp)
      | cons y ys =>
        have hlast : ¬ (x :: y :: ys).getLast? = some x := by
          intro heq
          rw [List.getLast?_cons_cons] at heq
          exact hx (List.mem_of_getLast? heq)
        rw [hnext x (by simp), if_neg hlast, hn]
        rfl
    · refine ih hxs hnd (fun y hy => hprev y (by simp [hy])) (fun y hy => ?_)
      rw [hnext y (by simp [hy])]
      cases xs with
      | nil => simp at hy
      | cons z zs => rw [List.getLast?_cons_cons]

/-- Repointing the `prev` of the first node moves the left end of a chain. -/
theorem Linked.moveLeft (h : Linked prev next p l q) (hl : l.Nodup)
    (hprev : ∀ x ∈ l, prev' x = if l.head? = some x then p' else prev x)
    (hnext : ∀ x ∈ l, next' x = next x) : Linked prev' next' p' l q := by
  cases l with
  | nil => trivial
  | cons x xs =>
    obtain ⟨-, hn, hxs⟩ := h
    obtain ⟨hx, -⟩ := List.nodup_cons.mp hl
    refine ⟨by simpa using hprev x (by simp), by rw [hnext x (by simp), hn], ?_⟩
    refine hxs.congr (fun y hy => ?_) (fun y hy => hnext y (by simp [hy]))
    have hne : ¬ (x :: xs).head? = some y := by
      intro heq
      simp only [List.head?_cons, Option.some.injEq] at heq
      exact hx (heq ▸ hy)
    rw [hprev y (by simp [hy]), if_neg hne]

/-! ## Surgery -/

/-- Putting `x` between `l₁` and `l₂`: only the node before `x` gets a new `next` and only
the node after `x` a new `prev`. -/
theorem Linked.insert {x : ι} (h : Linked prev next p (l₁ ++ l₂) q) (hl : (l₁ ++ l₂).Nodup)
    (hxprev : prev' x = l₁.getLast?.or p) (hxnext : next' x = l₂.head?.or q)
    (hprev : ∀ y ∈ l₁ ++ l₂, prev' y = if l₂.head? = some y then some x else prev y)
    (hnext : ∀ y ∈ l₁ ++ l₂, next' y = if l₁.getLast? = some y then some x else next y) :
    Linked prev' next' p (l₁ ++ x :: l₂) q := by
  obtain ⟨h₁, h₂⟩ := linked_append.mp h
  obtain ⟨hnd₁, hnd₂, hdis⟩ := List.nodup_append'.mp hl
  refine linked_append.mpr ⟨?_, hxprev, hxnext, ?_⟩
  · refine h₁.moveRight hnd₁ (fun y hy => ?_) (fun y hy => ?_)
    · rw [hprev y (by simp [hy]), if_neg]
      exact fun heq => hdis hy (List.mem_of_head? heq)
    · rw [hnext y (by simp [hy])]
      rfl
  · refine h₂.moveLeft hnd₂ (fun y hy => hprev y (by simp [hy])) (fun y hy => ?_)
    rw [hnext y (by simp [hy]), if_neg]
    exact fun heq => hdis (List.mem_of_getLast? heq) hy

/-- Taking `x` out: its neighbours are pointed past it. -/
theorem Linked.erase {x : ι} (h : Linked prev next p (l₁ ++ x :: l₂) q)
    (hl : (l₁ ++ x :: l₂).Nodup)
    (hprev : ∀ y ∈ l₁ ++ l₂, prev' y = if l₂.head? = some y then prev x else prev y)
    (hnext : ∀ y ∈ l₁ ++ l₂, next' y = if l₁.getLast? = some y then next x else next y) :
    Linked prev' next' p (l₁ ++ l₂) q := by
  obtain ⟨h₁, hxprev, hxnext, h₂⟩ := linked_append.mp h
  obtain ⟨hnd₁, hnd₂, hdis⟩ := List.nodup_append'.mp hl
  have hdis₂ : ∀ y ∈ l₁, y ∉ l₂ := fun y hy hy' => hdis hy (List.mem_cons_of_mem x hy')
  refine linked_append.mpr ⟨?_, ?_⟩
  · refine h₁.moveRight hnd₁ (fun y hy => ?_) (fun y hy => ?_)
    · rw [hprev y (by simp [hy]), if_neg]
      exact fun heq => hdis₂ y hy (List.mem_of_head? heq)
    · rw [hnext y (by simp [hy]), hxnext]
  · refine h₂.moveLeft (List.nodup_cons.mp hnd₂).2 (fun y hy => ?_) (fun y hy => ?_)
    · rw [hprev y (by simp [hy]), hxprev]
    · rw [hnext y (by simp [hy]), if_neg]
      exact fun heq => hdis₂ y (List.mem_of_getLast? heq) hy

/-- Putting `z` in the place of `x`: `z` takes over the neighbours of `x`. -/
theorem Linked.replace {x z : ι} (h : Linked prev next p (l₁ ++ x :: l₂) q)
    (hl : (l₁ ++ x :: l₂).Nodup) (hzprev : prev' z = prev x) (hznext : next' z = next x)
    (hprev : ∀ y ∈ l₁ ++ l₂, prev' y = if l₂.head? = some y then some z else prev y)
    (hnext : ∀ y ∈ l₁ ++ l₂, next' y = if l₁.getLast? = some y then some z else next y) :
    Linked prev' next' p (l₁ ++ z :: l₂) q := by
  obtain ⟨h₁, hxprev, hxnext, h₂⟩ := linked_append.mp h
  obtain ⟨hnd₁, hnd₂, hdis⟩ := List.nodup_append'.mp hl
  have hdis₂ : ∀ y ∈ l₁, y ∉ l₂ := fun y hy hy' => hdis hy (List.mem_cons_of_mem x hy')
  refine linked_append.mpr ⟨?_, by rw [hzprev, hxprev], by rw [hznext, hxnext], ?_⟩
  · refine h₁.moveRight hnd₁ (fun y hy => ?_) (fun y hy => ?_)
    · rw [hprev y (by simp [hy]), if_neg]
      exact fun heq => hdis₂ y hy (List.mem_of_head? heq)
    · rw [hnext y (by simp [hy])]
      rfl
  · refine h₂.moveLeft (List.nodup_cons.mp hnd₂).2 (fun y hy => hprev y (by simp [hy]))
      (fun y hy => ?_)
    rw [hnext y (by simp [hy]), if_neg]
    exact fun heq => hdis₂ y (List.mem_of_getLast? heq) hy

end PoopWorms.LinkedList
