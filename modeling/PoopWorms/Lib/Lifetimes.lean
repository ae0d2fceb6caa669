import Mathlib.Data.List.Induction
import Mathlib.Data.List.Perm.Basic

/-!
# Lifetimes of memory blocks

A program allocates blocks, uses them and frees them. In a trace of what it does, a block lives
from its allocation until it is freed, and everything else that is done to it is an error.
`Holding` is the invariant of a program that knows which blocks it has still to free, and `Flawed`
says that it can not be kept any more.
-/

namespace PoopWorms.Lifetimes

/-- What a program does to a block. -/
inductive MemEvent (β : Type*)
  | alloc (block : β)
  | use (block : β)
  | free (block : β)
deriving DecidableEq

def MemEvent.block {β : Type*} : MemEvent β → β
  | alloc block => block
  | use block => block
  | free block => block

inductive Life
  | unborn
  | live
  | freed
deriving DecidableEq

variable {β : Type*} [DecidableEq β] {b c : β} {e : MemEvent β} {trace es : List (MemEvent β)}
  {held held' : List β} {l : Life}

/-- What becomes of a block; nothing if this must not be done to it now. -/
def Life.next : Life → MemEvent β → Option Life
  | .unborn, .alloc _ => some .live
  | .live, .use _ => some .live
  | .live, .free _ => some .freed
  | _, _ => none

/-- What has become of a block, if nothing was done to it outside its life. -/
def life (b : β) (trace : List (MemEvent β)) : Option Life :=
  (trace.filter fun e => e.block = b).foldlM Life.next .unborn

/-- Every block that was allocated has been freed, once, and was used only in between. -/
def ReleasedOnce (trace : List (MemEvent β)) : Prop :=
  ∀ b, (trace.filter fun e => e.block = b) = [] ∨
    ∃ n, (trace.filter fun e => e.block = b) =
      .alloc b :: (List.replicate n (.use b) ++ [.free b])

/-! ## One event more -/

@[simp] theorem life_nil : life b [] = some .unborn := rfl

theorem life_append (b : β) (trace es : List (MemEvent β)) :
    life b (trace ++ es) =
      (life b trace).bind fun l => (es.filter fun e => e.block = b).foldlM Life.next l := by
  rw [life, List.filter_append, List.foldlM_append]
  rfl

theorem life_concat_self (he : e.block = b) :
    life b (trace ++ [e]) = (life b trace).bind fun l => l.next e := by
  rw [life_append]
  simp [he]

/-- What is done to other blocks does not matter. -/
theorem life_append_of_ne (h : ∀ e ∈ es, e.block ≠ b) : life b (trace ++ es) = life b trace := by
  have hfilter : (es.filter fun e => e.block = b) = [] := by
    rw [List.filter_eq_nil_iff]
    intro e he
    simpa using h e he
  rw [life_append, hfilter]
  simp

theorem life_concat_of_ne (he : e.block ≠ b) : life b (trace ++ [e]) = life b trace := by
  apply life_append_of_ne
  simpa using he

/-- An error is never made good. -/
theorem life_append_of_none (h : life b trace = none) (es : List (MemEvent β)) :
    life b (trace ++ es) = none := by
  rw [life_append, h]
  rfl

/-- What was allocated once is not unborn again. -/
theorem life_append_ne_unborn (h : life b trace ≠ some .unborn) (es : List (MemEvent β)) :
    life b (trace ++ es) ≠ some .unborn := by
  induction es using List.reverseRecOn with
  | nil => simpa using h
  | append_singleton es e ih =>
    rw [← List.append_assoc]
    by_cases he : e.block = b
    · rw [life_concat_self he]
      rcases life b (trace ++ es) with _ | l
      · simp
      · cases l <;> cases e <;> simp [Life.next]
    · rwa [life_concat_of_ne he]

/-! ## The shape of a life -/

/-- What was done to a block with a given life. -/
theorem shape_of_life (h : life b trace = some l) :
    ∃ n, (trace.filter fun e => e.block = b) =
      match l with
      | .unborn => []
      | .live => .alloc b :: List.replicate n (.use b)
      | .freed => .alloc b :: (List.replicate n (.use b) ++ [.free b]) := by
  induction trace using List.reverseRecOn generalizing l with
  | nil =>
    cases h
    exact ⟨0, rfl⟩
  | append_singleton trace e ih =>
    by_cases he : e.block = b
    · rw [life_concat_self he, Option.bind_eq_some_iff] at h
      obtain ⟨l₀, h₀, hnext⟩ := h
      obtain ⟨n, hn⟩ := ih h₀
      have hlast : ([e].filter fun e => e.block = b) = [e] := by simp [he]
      rw [List.filter_append, hlast, hn]
      subst he
      cases e <;> cases l₀ <;> cases hnext
      · exact ⟨0, rfl⟩
      · exact ⟨n + 1, by simp [List.replicate_succ', MemEvent.block]⟩
      · exact ⟨n, rfl⟩
    · rw [life_concat_of_ne he] at h
      obtain ⟨n, hn⟩ := ih h
      have hlast : ([e].filter fun e => e.block = b) = [] := by simp [he]
      rw [List.filter_append, hlast, List.append_nil]
      exact ⟨n, hn⟩

omit [DecidableEq β] in
theorem foldlM_uses (n : ℕ) :
    (List.replicate n (MemEvent.use b)).foldlM Life.next Life.live = some .live := by
  induction n with
  | zero => rfl
  | succ n ih =>
    rw [List.replicate_succ, List.foldlM_cons]
    exact ih

theorem releasedOnce_iff :
    ReleasedOnce trace ↔ ∀ b, life b trace = some .unborn ∨ life b trace = some .freed := by
  apply forall_congr'
  intro b
  constructor
  · rintro (hnone | ⟨n, hn⟩)
    · left
      rw [life, hnone]
      rfl
    · right
      rw [life, hn, List.foldlM_cons]
      show (List.replicate n (MemEvent.use b) ++ [MemEvent.free b]).foldlM Life.next Life.live = _
      rw [List.foldlM_append, foldlM_uses]
      rfl
  · rintro (hunborn | hfreed)
    · obtain ⟨n, hn⟩ := shape_of_life hunborn
      exact Or.inl hn
    · obtain ⟨n, hn⟩ := shape_of_life hfreed
      exact Or.inr ⟨n, hn⟩

/-! ## The blocks that are left to free -/

/-- The blocks of `held` are alive, and all others are freed or were never allocated. -/
structure Holding (trace : List (MemEvent β)) (held : List β) : Prop where
  nodup : held.Nodup
  live : ∀ b ∈ held, life b trace = some .live
  rest : ∀ b ∉ held, life b trace = some .unborn ∨ life b trace = some .freed

theorem holding_nil : Holding ([] : List (MemEvent β)) [] :=
  ⟨List.nodup_nil, fun _ hb => absurd hb List.not_mem_nil, fun _ _ => Or.inl rfl⟩

theorem holding_nil_iff : Holding trace [] ↔ ReleasedOnce trace := by
  rw [releasedOnce_iff]
  constructor
  · intro h b
    exact h.rest b List.not_mem_nil
  · intro h
    exact ⟨List.nodup_nil, fun _ hb => absurd hb List.not_mem_nil, fun b _ => h b⟩

namespace Holding

theorem life_ne_none (h : Holding trace held) (b : β) : life b trace ≠ none := by
  by_cases hb : b ∈ held
  · rw [h.live b hb]
    simp
  · rcases h.rest b hb with hlife | hlife <;> simp [hlife]

theorem perm (h : Holding trace held) (hperm : held.Perm held') : Holding trace held' := by
  refine ⟨hperm.nodup_iff.mp h.nodup, ?_, ?_⟩
  · intro b hb
    exact h.live b (hperm.mem_iff.mpr hb)
  · intro b hb
    exact h.rest b fun hb' => hb (hperm.mem_iff.mp hb')

theorem alloc (h : Holding trace held) (hb : life b trace = some .unborn) :
    Holding (trace ++ [.alloc b]) (b :: held) := by
  have hnot : b ∉ held := by
    intro hmem
    have hlive := h.live b hmem
    rw [hb] at hlive
    cases hlive
  refine ⟨List.nodup_cons.mpr ⟨hnot, h.nodup⟩, ?_, ?_⟩
  · intro c hc
    rcases List.mem_cons.mp hc with hcb | hc
    · subst hcb
      rw [life_concat_self (b := c) (e := .alloc c) rfl, hb]
      rfl
    · have hne : b ≠ c := by
        rintro rfl
        exact hnot hc
      rw [life_concat_of_ne (e := .alloc b) hne]
      exact h.live c hc
  · intro c hc
    rw [List.mem_cons, not_or] at hc
    rw [life_concat_of_ne (e := .alloc b) (Ne.symm hc.1)]
    exact h.rest c hc.2

theorem use (h : Holding trace held) (hb : b ∈ held) : Holding (trace ++ [.use b]) held := by
  refine ⟨h.nodup, ?_, ?_⟩
  · intro c hc
    by_cases hbc : b = c
    · subst hbc
      rw [life_concat_self (b := b) (e := .use b) rfl, h.live b hb]
      rfl
    · rw [life_concat_of_ne (e := .use b) hbc]
      exact h.live c hc
  · intro c hc
    have hne : b ≠ c := by
      rintro rfl
      exact hc hb
    rw [life_concat_of_ne (e := .use b) hne]
    exact h.rest c hc

theorem uses {blocks : List β} (h : Holding trace held) (hblocks : blocks ⊆ held) :
    Holding (trace ++ blocks.map .use) held := by
  induction blocks generalizing trace with
  | nil => simpa using h
  | cons b blocks ih =>
    rw [List.cons_subset] at hblocks
    rw [List.map_cons, List.append_cons]
    exact ih (h.use hblocks.1) hblocks.2

/-- Blocks are allocated one after another, and each is used at once. -/
theorem allocs {blocks : List β} (h : Holding trace held) (hnodup : blocks.Nodup)
    (hunborn : ∀ b ∈ blocks, life b trace = some .unborn) :
    Holding (trace ++ blocks.flatMap fun b => [.alloc b, .use b]) (blocks ++ held) := by
  induction blocks generalizing trace held with
  | nil => simpa using h
  | cons b blocks ih =>
    obtain ⟨hb, hnodup⟩ := List.nodup_cons.mp hnodup
    have hfirst : Holding (trace ++ [.alloc b, .use b]) (b :: held) := by
      rw [List.append_cons]
      exact (h.alloc (hunborn b List.mem_cons_self)).use List.mem_cons_self
    have hrest : ∀ c ∈ blocks, life c (trace ++ [.alloc b, .use b]) = some .unborn := by
      intro c hc
      have hne : b ≠ c := by
        rintro rfl
        exact hb hc
      rw [life_append_of_ne]
      · exact hunborn c (List.mem_cons_of_mem b hc)
      · simpa [MemEvent.block] using hne
    rw [List.flatMap_cons, ← List.append_assoc]
    exact (ih hfirst hnodup hrest).perm List.perm_middle

theorem free (h : Holding trace (b :: held)) : Holding (trace ++ [.free b]) held := by
  obtain ⟨hb, hnodup⟩ := List.nodup_cons.mp h.nodup
  refine ⟨hnodup, ?_, ?_⟩
  · intro c hc
    have hne : b ≠ c := by
      rintro rfl
      exact hb hc
    rw [life_concat_of_ne (e := .free b) hne]
    exact h.live c (List.mem_cons_of_mem b hc)
  · intro c hc
    by_cases hbc : b = c
    · subst hbc
      right
      rw [life_concat_self (b := b) (e := .free b) rfl, h.live b List.mem_cons_self]
      rfl
    · rw [life_concat_of_ne (e := .free b) hbc]
      apply h.rest
      rw [List.mem_cons, not_or]
      exact ⟨Ne.symm hbc, hc⟩

theorem frees {blocks : List β} (h : Holding trace (blocks ++ held)) :
    Holding (trace ++ blocks.map .free) held := by
  induction blocks generalizing trace with
  | nil => simpa using h
  | cons b blocks ih =>
    rw [List.map_cons, List.append_cons]
    exact ih h.free

end Holding

/-! ## What can not be made good -/

/-- An error has been made, or a block that nothing will free is alive. -/
def Flawed (trace : List (MemEvent β)) (held : List β) : Prop :=
  ∃ b, life b trace = none ∨ life b trace = some .live ∧ b ∉ held

theorem flawed_nil_iff : Flawed trace [] ↔ ¬ ReleasedOnce trace := by
  rw [releasedOnce_iff, not_forall]
  apply exists_congr
  intro b
  rcases hlife : life b trace with _ | l
  · simp
  · cases l <;> simp

theorem Flawed.append (h : Flawed trace held) (hes : ∀ e ∈ es, e.block ∈ held)
    (hheld : held' ⊆ held) : Flawed (trace ++ es) held' := by
  obtain ⟨b, hnone | ⟨hlive, hb⟩⟩ := h
  · exact ⟨b, Or.inl (life_append_of_none hnone es)⟩
  · refine ⟨b, Or.inr ⟨?_, fun hb' => hb (hheld hb')⟩⟩
    rw [life_append_of_ne]
    · exact hlive
    · rintro e he rfl
      exact hb (hes e he)

/-- A block gets lost. -/
theorem Holding.flawed (h : Holding trace held) (hb : b ∈ held) (hb' : b ∉ held') :
    Flawed trace held' := ⟨b, Or.inr ⟨h.live b hb, hb'⟩⟩

/-- A block is freed twice. -/
theorem flawed_of_twice (hb : life b trace ≠ some .unborn) (held : List β)
    (es : List (MemEvent β)) : Flawed (trace ++ [.free b, .free b] ++ es) held := by
  refine ⟨b, Or.inl ?_⟩
  apply life_append_of_none
  rw [life_append]
  rcases hlife : life b trace with _ | l
  · rfl
  · cases l
    · exact absurd hlife hb
    · simp [MemEvent.block, Life.next]
    · simp [MemEvent.block, Life.next]

end PoopWorms.Lifetimes
