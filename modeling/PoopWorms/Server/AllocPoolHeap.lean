import PoopWorms.Lib.Tiling
import PoopWorms.Server.AllocPoolSearch
import Mathlib.Data.List.Chain

/-!
# The chunks of the pool

A `Heap` gives the chunks that tile each area, with the request that a live one was made
for. `Laid s h` says that the words of the pool describe these chunks, at both ends of each,
and `Rep s h` that the bins hold exactly those that are free, no two of which are adjacent.
An operation replaces some neighbouring chunks by others of the same total size.
-/

namespace PoopWorms.Server

/-- The end of the memory that was asked for an area. -/
def AllocArea.stop (a : AllocArea) : ℕ :=
  a.mUnalignedPointerToThis + a.mSize + AllocPool.kAreaOverhead

namespace AllocPool

open Tiling

/-- A chunk, with the number of bytes that were requested if it is in use. -/
structure Block where
  size : ℕ
  live : Option ℕ

/-- The word at both ends of a chunk. -/
def Block.tag (b : Block) : ℕ := if b.live.isSome then b.size + 1 else b.size

/-- A chunk has room for its header and for what was requested. -/
structure Block.Ok (b : Block) : Prop where
  min : 32 ≤ b.size
  even : b.size % 2 = 0
  room : ∀ r, b.live = some r → r + 32 ≤ b.size

/-- The chunks of each area, by the address of its first chunk. -/
abbrev Heap := ℕ → List Block

def chunks (areas : List AllocArea) (h : Heap) : Set (ℕ × Block) :=
  {u | ∃ a ∈ areas, u ∈ starts Block.size a.chunk (h a.chunk)}

/-- The free ones of some chunks. -/
def freeOf (C : Set (ℕ × Block)) : Set (ℕ × ℕ) :=
  {f | ∃ b, (f.1, b) ∈ C ∧ b.live = none ∧ b.size = f.2}

/-- The headers of some chunks. -/
def headersOf (C : Set (ℕ × Block)) : Set (ℕ × ℕ) := {f | ∃ b, (f.1, b) ∈ C ∧ b.size = f.2}

structure Laid (s : AllocPool) (h : Heap) : Prop where
  addr : ∀ a ∈ s.mAreas, a.addr = (a.mUnalignedPointerToThis + 15) / 16 * 16
  apart : s.mAreas.Pairwise fun a b =>
    a.stop ≤ b.mUnalignedPointerToThis ∨ b.stop ≤ a.mUnalignedPointerToThis
  pool : ∀ a ∈ s.mAreas,
    a.stop ≤ s.self ∨ s.self + 4096 ≤ a.mUnalignedPointerToThis
  nonempty : ∀ a ∈ s.mAreas, h a.chunk ≠ []
  filled : ∀ a ∈ s.mAreas, total Block.size (h a.chunk) = a.mSize
  first : ∀ a ∈ s.mAreas, s.mem (a.chunk + 16) = 1
  last : ∀ a ∈ s.mAreas, s.mem (a.chunk + a.mSize + 24) = 1
  block : ∀ u ∈ chunks s.mAreas h, u.2.Ok
  tag : ∀ u ∈ chunks s.mAreas h, s.mem (u.1 + 24) = u.2.tag ∧ s.mem (u.1 + u.2.size + 16) = u.2.tag

/-- No two free chunks are adjacent. -/
def Coalesced (areas : List AllocArea) (h : Heap) : Prop :=
  ∀ a ∈ areas, (h a.chunk).IsChain fun b c => b.live.isSome ∨ c.live.isSome

structure Rep (s : AllocPool) (h : Heap) : Prop where
  laid : s.Laid h
  coalesced : Coalesced s.mAreas h
  binned : s.Binned (freeOf (chunks s.mAreas h))

variable {s s' : AllocPool} {h : Heap} {a : AllocArea} {u v : ℕ × Block}

/-! ## Areas -/

theorem Laid.geometry (hl : s.Laid h) (ha : a ∈ s.mAreas) :
    a.chunk % 16 = 0 ∧ a.mUnalignedPointerToThis + 32 ≤ a.chunk ∧
      a.chunk + a.mSize + 48 < a.stop := by
  have := hl.addr a ha
  unfold AllocArea.chunk AllocArea.stop kAreaOverhead sizeofAllocAreaHdr sizeofAllocChunk
  omega

theorem Laid.areas_apart (hl : s.Laid h) {b : AllocArea} (ha : a ∈ s.mAreas) (hb : b ∈ s.mAreas) :
    a = b ∨ a.stop ≤ b.mUnalignedPointerToThis ∨
      b.stop ≤ a.mUnalignedPointerToThis := by
  have hsymm : Std.Symm fun a b : AllocArea => a.stop ≤ b.mUnalignedPointerToThis ∨
      b.stop ≤ a.mUnalignedPointerToThis := ⟨fun _ _ h => h.symm⟩
  by_cases heq : a = b
  · exact .inl heq
  · exact .inr (hl.apart.forall ha hb heq)

/-- A chunk lies in its area. -/
theorem Laid.range (hl : s.Laid h) (ha : a ∈ s.mAreas)
    (hu : u ∈ starts Block.size a.chunk (h a.chunk)) :
    a.chunk ≤ u.1 ∧ u.1 + u.2.size ≤ a.chunk + a.mSize := by
  have := range_of_mem_starts hu
  rw [hl.filled a ha] at this
  exact this

/-- The area of an address. -/
theorem Laid.area_unique (hl : s.Laid h) {b : AllocArea} (ha : a ∈ s.mAreas) (hb : b ∈ s.mAreas)
    {y : ℕ} (hya : a.chunk ≤ y ∧ y < a.chunk + a.mSize) (hyb : b.chunk ≤ y ∧ y < b.chunk + b.mSize) :
    a = b := by
  have hgeometry := hl.geometry ha
  have hgeometry' := hl.geometry hb
  rcases hl.areas_apart ha hb with heq | hapart
  · exact heq
  · omega

/-! ## Chunks apart -/

/-- The chunk behind another one begins where that one ends, or leaves room for a header. -/
theorem starts_gap {c : ℕ} {bs : List Block} (hmin : ∀ b ∈ bs, 32 ≤ b.size)
    (hu : u ∈ starts Block.size c bs) (hv : v ∈ starts Block.size c bs) :
    u = v ∨ v.1 + v.2.size ≤ u.1 ∨ v.1 = u.1 + u.2.size ∨ u.1 + u.2.size + 32 ≤ v.1 := by
  obtain ⟨pre, post, rfl, hstart⟩ := exists_split hu
  rw [starts_append, starts_cons, List.mem_append, List.mem_cons, ← hstart] at hv
  rcases hv with hpre | heq | hpost
  · have := range_of_mem_starts hpre
    exact .inr (.inl (by omega))
  · exact .inl heq.symm
  · cases post with
    | nil => exact absurd hpost List.not_mem_nil
    | cons b post =>
      have := hmin b (by simp)
      rcases List.mem_cons.mp hpost with rfl | htail
      · exact .inr (.inr (.inl rfl))
      · have := range_of_mem_starts htail
        exact .inr (.inr (.inr (by omega)))

theorem Laid.ok_of_area (hl : s.Laid h) (ha : a ∈ s.mAreas) : ∀ b ∈ h a.chunk, b.Ok := by
  intro b hb
  obtain ⟨pre, post, heq⟩ := List.append_of_mem hb
  exact hl.block (a.chunk + total Block.size pre, b) ⟨a, ha, by rw [heq]; simp⟩

theorem Laid.gap (hl : s.Laid h) (hu : u ∈ chunks s.mAreas h) (hv : v ∈ chunks s.mAreas h) :
    u = v ∨ v.1 + v.2.size ≤ u.1 ∨ v.1 = u.1 + u.2.size ∨ u.1 + u.2.size + 32 ≤ v.1 := by
  obtain ⟨a, ha, hu⟩ := hu
  obtain ⟨b, hb, hv⟩ := hv
  rcases hl.areas_apart ha hb with rfl | hapart
  · exact starts_gap (fun b hb => (hl.ok_of_area ha b hb).min) hu hv
  · have hrange := hl.range ha hu
    have hrange' := hl.range hb hv
    have hgeometry := hl.geometry ha
    have hgeometry' := hl.geometry hb
    rcases hapart with hafter | hbefore
    · exact .inr (.inr (.inr (by omega)))
    · exact .inr (.inl (by omega))

/-- The chunk at an address. -/
theorem Laid.unique (hl : s.Laid h) {c : ℕ} {b b' : Block} (hb : (c, b) ∈ chunks s.mAreas h)
    (hb' : (c, b') ∈ chunks s.mAreas h) : b = b' := by
  have hmin := (hl.block _ hb).min
  have hmin' := (hl.block _ hb').min
  rcases hl.gap hb hb' with heq | hgap | hgap | hgap
  · exact (Prod.mk.inj heq).2
  · simp only at hgap hmin'
    omega
  · simp only at hgap hmin
    omega
  · simp only at hgap
    omega

theorem Laid.ofPool (hl : s.Laid h) (hu : u ∈ chunks s.mAreas h) :
    u.1 + u.2.size + 32 ≤ s.self ∨ s.self + 4096 ≤ u.1 := by
  obtain ⟨a, ha, hu⟩ := hu
  have hrange := hl.range ha hu
  have hgeometry := hl.geometry ha
  rcases hl.pool a ha with hbefore | hafter
  · exact .inl (by omega)
  · exact .inr (by omega)

/-- From its sizes to the sizes in the next header, a chunk has no words of links but those of
the next header. -/
theorem Laid.not_linkWord (hl : s.Laid h) (hu : u ∈ chunks s.mAreas h) {w : ℕ}
    (hle : u.1 + 16 ≤ w) (hlt : w < u.1 + u.2.size ∨ u.1 + u.2.size + 16 ≤ w)
    (hend : w < u.1 + u.2.size + 32) :
    ¬ LinkWord s.self (headersOf (chunks s.mAreas h)) w := by
  intro hlink
  rcases hlink with ⟨f, ⟨b, hb, -⟩, hw⟩ | hpool
  · have hmin := (hl.block _ hb).min
    rcases hl.gap hu hb with rfl | hgap | hgap | hgap
    · simp only at hle hlt hend
      omega
    · simp only at hgap hmin
      omega
    · simp only at hgap
      omega
    · simp only at hgap
      omega
  · have := hl.ofPool hu
    omega

theorem freeOf_subset_headersOf (C : Set (ℕ × Block)) : freeOf C ⊆ headersOf C := by
  intro f hf
  obtain ⟨b, hb, -, hsize⟩ := hf
  exact ⟨b, hb, hsize⟩

/-- The words of the payload of a chunk, and of its size, are not those of links. -/
theorem Laid.not_linkWord_free (hl : s.Laid h) (hu : u ∈ chunks s.mAreas h) {w : ℕ}
    (hle : u.1 + 16 ≤ w) (hlt : w < u.1 + u.2.size ∨ u.1 + u.2.size + 16 ≤ w)
    (hend : w < u.1 + u.2.size + 32) :
    ¬ LinkWord s.self (freeOf (chunks s.mAreas h)) w :=
  fun hlink => hl.not_linkWord hu hle hlt hend (hlink.mono (freeOf_subset_headersOf _))

/-! ## Replacing some chunks of an area -/

/-- The chunks but for `n` bytes behind `pre` in one area. -/
def outside (areas : List AllocArea) (h : Heap) (a : AllocArea) (pre : List Block) (n : ℕ)
    (post : List Block) : Set (ℕ × Block) :=
  {u | u ∈ starts Block.size a.chunk pre ∨
    u ∈ starts Block.size (a.chunk + total Block.size pre + n) post ∨
    ∃ b ∈ areas, b ≠ a ∧ u ∈ starts Block.size b.chunk (h b.chunk)}

section Hole

variable {pre mid post mid' : List Block}

theorem Laid.chunk_ne (hl : s.Laid h) (ha : a ∈ s.mAreas) {b : AllocArea} (hb : b ∈ s.mAreas)
    (hne : b ≠ a) : b.chunk ≠ a.chunk := by
  have hgeometry := hl.geometry ha
  have hgeometry' := hl.geometry hb
  rcases hl.areas_apart hb ha with heq | hapart
  · exact absurd heq hne
  · omega

theorem mem_chunks_iff (ha : a ∈ s.mAreas) (hcut : h a.chunk = pre ++ mid ++ post) :
    u ∈ chunks s.mAreas h ↔ u ∈ outside s.mAreas h a pre (total Block.size mid) post ∨
      u ∈ starts Block.size (a.chunk + total Block.size pre) mid := by
  have harea : u ∈ starts Block.size a.chunk (h a.chunk) ↔ u ∈ starts Block.size a.chunk pre ∨
      u ∈ starts Block.size (a.chunk + total Block.size pre) mid ∨
      u ∈ starts Block.size (a.chunk + total Block.size pre + total Block.size mid) post := by
    rw [hcut, starts_append, starts_append, List.mem_append, List.mem_append, total_append, or_assoc,
      Nat.add_assoc]
  constructor
  · intro hu
    obtain ⟨b, hb, hu⟩ := hu
    by_cases hba : b = a
    · subst hba
      rcases harea.mp hu with hpre | hmid | hpost
      · exact .inl (.inl hpre)
      · exact .inr hmid
      · exact .inl (.inr (.inl hpost))
    · exact .inl (.inr (.inr ⟨b, hb, hba, hu⟩))
  · intro hu
    rcases hu with (hpre | hpost | ⟨b, hb, -, hu⟩) | hmid
    · exact ⟨a, ha, harea.mpr (.inl hpre)⟩
    · exact ⟨a, ha, harea.mpr (.inr (.inr hpost))⟩
    · exact ⟨b, hb, hu⟩
    · exact ⟨a, ha, harea.mpr (.inr (.inl hmid))⟩

/-- The other areas stay as they are. -/
theorem Laid.outside_update (hl : s.Laid h) (ha : a ∈ s.mAreas) (bs : List Block) (n : ℕ) :
    outside s.mAreas (Function.update h a.chunk bs) a pre n post =
      outside s.mAreas h a pre n post := by
  ext u
  have hother : ∀ b ∈ s.mAreas, b ≠ a → Function.update h a.chunk bs b.chunk = h b.chunk :=
    fun b hb hne => Function.update_of_ne (hl.chunk_ne ha hb hne) _ _
  constructor
  · intro hu
    rcases hu with hpre | hpost | ⟨b, hb, hne, hu⟩
    · exact .inl hpre
    · exact .inr (.inl hpost)
    · exact .inr (.inr ⟨b, hb, hne, hother b hb hne ▸ hu⟩)
  · intro hu
    rcases hu with hpre | hpost | ⟨b, hb, hne, hu⟩
    · exact .inl hpre
    · exact .inr (.inl hpost)
    · exact .inr (.inr ⟨b, hb, hne, (hother b hb hne).symm ▸ hu⟩)

theorem Laid.mem_chunks_update (hl : s.Laid h) (ha : a ∈ s.mAreas)
    (htotal : total Block.size mid' = total Block.size mid) :
    u ∈ chunks s.mAreas (Function.update h a.chunk (pre ++ mid' ++ post)) ↔
      u ∈ outside s.mAreas h a pre (total Block.size mid) post ∨
        u ∈ starts Block.size (a.chunk + total Block.size pre) mid' := by
  rw [mem_chunks_iff ha (Function.update_self ..), hl.outside_update ha, htotal]

/-- The chunks outside of the hole lie in front of it or behind it. -/
theorem Laid.outside_range (hl : s.Laid h) (ha : a ∈ s.mAreas)
    (hcut : h a.chunk = pre ++ mid ++ post)
    (hu : u ∈ outside s.mAreas h a pre (total Block.size mid) post) :
    u.1 + u.2.size ≤ a.chunk + total Block.size pre ∨
      a.chunk + total Block.size pre + total Block.size mid ≤ u.1 := by
  have hsum := hl.filled a ha
  rw [hcut, total_append, total_append] at hsum
  have hgeometry := hl.geometry ha
  rcases hu with hpre | hpost | ⟨b, hb, hne, hu⟩
  · have := range_of_mem_starts hpre
    exact .inl this.2
  · have := range_of_mem_starts hpost
    exact .inr this.1
  · have hrange := hl.range hb hu
    have hgeometry' := hl.geometry hb
    rcases hl.areas_apart hb ha with heq | hbefore | hafter
    · exact absurd heq hne
    · exact .inl (by omega)
    · exact .inr (by omega)

/-- Neighbouring chunks are replaced by others of the same total size: all that is written are
links, and the words between the first of these chunks and the next header. -/
theorem Laid.retile (hl : s.Laid h) (ha : a ∈ s.mAreas) (hcut : h a.chunk = pre ++ mid ++ post)
    (hne : mid' ≠ []) (htotal : total Block.size mid' = total Block.size mid)
    (hok : ∀ b ∈ mid', b.Ok) (hareas : s'.mAreas = s.mAreas) (hself : s'.self = s.self)
    (hmem : ∀ w, ¬ LinkWord s.self (headersOf (chunks s.mAreas h)) w →
      w < a.chunk + total Block.size pre + 24 ∨
        a.chunk + total Block.size pre + total Block.size mid + 16 < w →
      s'.mem w = s.mem w)
    (htag : ∀ u ∈ starts Block.size (a.chunk + total Block.size pre) mid',
      s'.mem (u.1 + 24) = u.2.tag ∧ s'.mem (u.1 + u.2.size + 16) = u.2.tag) :
    s'.Laid (Function.update h a.chunk (pre ++ mid' ++ post)) := by
  have hsum := hl.filled a ha
  rw [hcut, total_append, total_append] at hsum
  have hchunks : ∀ {u}, u ∈ chunks s'.mAreas (Function.update h a.chunk (pre ++ mid' ++ post)) ↔
      u ∈ outside s.mAreas h a pre (total Block.size mid) post ∨
        u ∈ starts Block.size (a.chunk + total Block.size pre) mid' := by
    intro u
    rw [hareas]
    exact hl.mem_chunks_update ha htotal
  have hold : ∀ {u}, u ∈ outside s.mAreas h a pre (total Block.size mid) post →
      u ∈ chunks s.mAreas h := fun hu => (mem_chunks_iff ha hcut).mpr (.inl hu)
  -- the ends of an area are in front of the hole or behind it
  have hends : ∀ b ∈ s.mAreas, (b.chunk + 16 < a.chunk + total Block.size pre + 24 ∨
        a.chunk + total Block.size pre + total Block.size mid + 16 < b.chunk + 16) ∧
      (b.chunk + b.mSize + 24 < a.chunk + total Block.size pre + 24 ∨
        a.chunk + total Block.size pre + total Block.size mid + 16 <
          b.chunk + b.mSize + 24) := by
    intro b hb
    have hgeometry := hl.geometry ha
    have hgeometry' := hl.geometry hb
    rcases hl.areas_apart hb ha with rfl | hapart
    · omega
    · omega
  constructor
  · rw [hareas]
    exact hl.addr
  · rw [hareas]
    exact hl.apart
  · rw [hareas, hself]
    exact hl.pool
  · intro b hb
    rw [hareas] at hb
    by_cases hba : b = a
    · subst hba
      rw [Function.update_self]
      simp [hne]
    · rw [Function.update_of_ne (hl.chunk_ne ha hb hba)]
      exact hl.nonempty b hb
  · intro b hb
    rw [hareas] at hb
    by_cases hba : b = a
    · subst hba
      rw [Function.update_self, total_append, total_append, htotal]
      exact hsum
    · rw [Function.update_of_ne (hl.chunk_ne ha hb hba)]
      exact hl.filled b hb
  · intro b hb
    rw [hareas] at hb
    obtain ⟨c, bs, hbs⟩ := List.exists_cons_of_ne_nil (hl.nonempty b hb)
    have hfirst : (b.chunk, c) ∈ chunks s.mAreas h := ⟨b, hb, by rw [hbs]; simp⟩
    have hmin := (hl.block _ hfirst).min
    rw [hmem _ (hl.not_linkWord hfirst (le_refl _) (.inl (by simp only at hmin ⊢; omega))
      (by simp only at hmin ⊢; omega)) (hends b hb).1]
    exact hl.first b hb
  · intro b hb
    rw [hareas] at hb
    obtain ⟨y, c, hlast, hend⟩ := exists_last Block.size b.chunk (hl.nonempty b hb)
    have hlast : (y, c) ∈ chunks s.mAreas h := ⟨b, hb, hlast⟩
    have hmin := (hl.block _ hlast).min
    rw [hl.filled b hb] at hend
    rw [hmem _ (hl.not_linkWord hlast (by simp only at hmin ⊢; omega)
      (.inr (by simp only at hmin ⊢; omega)) (by simp only at hmin ⊢; omega)) (hends b hb).2]
    exact hl.last b hb
  · intro u hu
    rcases hchunks.mp hu with hout | hin
    · exact hl.block u (hold hout)
    · exact hok _ (mem_of_mem_starts hin)
  · intro u hu
    rcases hchunks.mp hu with hout | hin
    · have hmin := (hl.block u (hold hout)).min
      have hrange := hl.outside_range ha hcut hout
      rw [hmem _ (hl.not_linkWord (hold hout) (by omega) (.inl (by omega)) (by omega)) (by omega),
        hmem _ (hl.not_linkWord (hold hout) (by omega) (.inr (by omega)) (by omega)) (by omega)]
      exact hl.tag u (hold hout)
    · exact htag u hin

end Hole

end AllocPool

end PoopWorms.Server
