import PoopWorms.Server.AllocPoolOpened

/-!
# `Free` on the chunks

`Free` replaces a chunk in use and its free neighbours by one free chunk, or gives the area
back if that chunk fills it.
-/

namespace PoopWorms.Server.AllocPool

open Tiling

variable {s s₀ s₁ : AllocPool} {h : Heap} {a : AllocArea}
  {pre mid post front back post₁ : List Block} {b : Block} {W : Set ℕ} {G : Set (ℕ × ℕ)} {c n : ℕ}

/-! ## Consolidation -/

/-- The chunk in front is free, or stays. -/
theorem Rep.consolidateBackward (hr : s.Rep h) (ha : a ∈ s.mAreas)
    (hcut : h a.chunk = pre ++ b :: post) (hlive : b.live.isSome = true)
    (hc : c = a.chunk + total Block.size pre) :
    ∃ pre₁ front s₁, pre = pre₁ ++ front ∧ (∀ x ∈ pre₁.getLast?, x.live.isSome = true) ∧
      (∀ x ∈ front, x.live = none) ∧
      s.consolidateBackward c =
        (s₁, a.chunk + total Block.size pre₁, b.size + total Block.size front) ∧
      ∀ back post₁, post = back ++ post₁ →
        Opened s h a pre₁ (front ++ b :: back) post₁ ∅ (freesAt (c + b.size) back) s₁ := by
  have hmem : (c, b) ∈ chunks s.mAreas h := ⟨a, ha, by rw [hcut, hc]; simp⟩
  have hsize : s.size c = b.size := by
    unfold AllocPool.size mSize
    rw [(hr.laid.tag _ hmem).1]
    exact (hr.laid.block _ hmem).tag_size
  have hdef : s.consolidateBackward c = if s.prevInUse c then (s, c, s.size c)
      else (s.unlinkFree (c - s.prevSize c), c - s.prevSize c, s.size c + s.prevSize c) := rfl
  rw [hdef, hsize]
  -- the chunk in front is in use, or there is none
  have hstay : (∀ x ∈ pre.getLast?, x.live.isSome = true) → s.prevInUse c →
      ∃ pre₁ front s₁, pre = pre₁ ++ front ∧ (∀ x ∈ pre₁.getLast?, x.live.isSome = true) ∧
        (∀ x ∈ front, x.live = none) ∧
        (if s.prevInUse c then (s, c, b.size)
          else (s.unlinkFree (c - s.prevSize c), c - s.prevSize c, b.size + s.prevSize c)) =
          (s₁, a.chunk + total Block.size pre₁, b.size + total Block.size front) ∧
        ∀ back post₁, post = back ++ post₁ →
          Opened s h a pre₁ (front ++ b :: back) post₁ ∅ (freesAt (c + b.size) back) s₁ := by
    intro hlast huse
    refine ⟨pre, [], s, (List.append_nil pre).symm, hlast, by simp, ?_, ?_⟩
    · rw [if_pos huse, hc]
      rfl
    · intro back post₁ hpost
      have hcut' : h a.chunk = pre ++ (b :: back) ++ post₁ := by
        rw [hcut, hpost]
        simp
      have hopened := hr.opened ha hcut' (by simp)
      rw [freesAt_live _ hlive, ← hc] at hopened
      exact hopened
  rcases hr.laid.prev_cases ha hcut with ⟨hnil, htag⟩ | ⟨pre₀, p, hpre, hp, htag⟩
  · apply hstay
    · simp [hnil]
    · unfold prevInUse
      rw [hc, htag]
  · have hok := hr.laid.block _ hp
    rw [← hc] at htag
    by_cases hplive : p.live.isSome = true
    · apply hstay
      · intro x hx
        rw [hpre, List.getLast?_concat] at hx
        cases hx
        exact hplive
      · unfold prevInUse
        rw [htag]
        exact hok.tag_live.mpr hplive
    · -- the free chunk in front is unlinked
      have hfree : p.live = none := by simpa using hplive
      have huse : ¬ s.prevInUse c := by
        unfold prevInUse
        rw [htag]
        exact fun hodd => hplive (hok.tag_live.mp hodd)
      have hprev : s.prevSize c = p.size := by
        unfold prevSize
        rw [htag]
        exact hok.tag_size
      have hstart : c = a.chunk + total Block.size pre₀ + p.size := by
        rw [hc, hpre]
        simp [Nat.add_assoc]
      have hsub : c - p.size = a.chunk + total Block.size pre₀ := by omega
      rw [if_neg huse, hprev, hsub]
      refine ⟨pre₀, [p], s.unlinkFree (a.chunk + total Block.size pre₀), hpre, ?_,
        by simpa using hfree, ?_, ?_⟩
      · have hchain := hr.coalesced a ha
        rw [hcut, hpre, List.append_assoc, List.isChain_append] at hchain
        intro x hx
        have := hchain.2.2 x hx p (by simp)
        simpa [hfree] using this
      · simp
      · intro back post₁ hpost
        have hcut' : h a.chunk = pre₀ ++ (p :: b :: back) ++ post₁ := by
          rw [hcut, hpre, hpost]
          simp
        have hopened := hr.opened ha hcut' (by simp)
        rw [freesAt_free _ hfree, freesAt_live _ hlive, ← hstart] at hopened
        have hfrees : insert (a.chunk + total Block.size pre₀, p.size) (freesAt (c + b.size) back) ⊆
            freesAt (a.chunk + total Block.size pre₀) (p :: b :: back) := by
          rw [freesAt_free _ hfree, freesAt_live _ hlive, ← hstart]
        have hunlinked := hopened.unlink hfrees (Set.mem_insert _ _)
        rw [Set.insert_sdiff_self_of_notMem] at hunlinked
        · exact hunlinked
        · intro hin
          have hmin := (hr.laid.block _ hmem).min
          have hle := (le_of_mem_freesAt hin).1
          simp only at hmin hle
          omega

/-- The chunk behind is free, or stays. -/
theorem Rep.consolidateForward (hr : s.Rep h) (ha : a ∈ s.mAreas)
    {pre₁ : List Block} (hcut : h a.chunk = pre₁ ++ front ++ b :: post)
    (hc : c = a.chunk + total Block.size pre₁ + total Block.size front)
    (ho : ∀ back post₁, post = back ++ post₁ →
      Opened s h a pre₁ (front ++ b :: back) post₁ ∅ (freesAt (c + b.size) back) s₁) :
    ∃ back post₁ s₂, post = back ++ post₁ ∧ (∀ x ∈ post₁.head?, x.live.isSome = true) ∧
      (∀ x ∈ back, x.live = none) ∧
      s₁.consolidateForward (a.chunk + total Block.size pre₁) (b.size + total Block.size front) =
        (s₂, total Block.size (front ++ b :: back)) ∧
      Opened s h a pre₁ (front ++ b :: back) post₁ ∅ ∅ s₂ := by
  have hmem : (c, b) ∈ chunks s.mAreas h := ⟨a, ha, by
    rw [hcut, hc, starts_append, starts_append, total_append]
    simp [Nat.add_assoc]⟩
  have hnext : a.chunk + total Block.size pre₁ + (b.size + total Block.size front) =
      c + b.size := by omega
  have hpre : c + b.size = a.chunk + total Block.size (pre₁ ++ front ++ [b]) := by
    rw [hc]
    simp [Nat.add_assoc]
  have hcut' : h a.chunk = (pre₁ ++ front ++ [b]) ++ post := by
    rw [hcut]
    simp
  -- the word of the next size is not one of links
  have hword : s₁.mSize (c + b.size) = s.mSize (c + b.size) := by
    have hmin := (hr.laid.block _ hmem).min
    simp only at hmin
    apply (ho [] post rfl).mem
    · exact hr.laid.not_linkWord hmem (by simp only; omega) (.inr (by simp only; omega))
        (by simp only; omega)
    · exact Set.notMem_empty _
  have hdef : s₁.consolidateForward (a.chunk + total Block.size pre₁)
        (b.size + total Block.size front) =
      if s₁.inUse (c + b.size) then (s₁, b.size + total Block.size front)
      else (s₁.unlinkFree (c + b.size),
        b.size + total Block.size front + s₁.size (c + b.size)) := by
    unfold AllocPool.consolidateForward
    rw [hnext]
  rw [hdef]
  have hstay : (∀ x ∈ post.head?, x.live.isSome = true) → s₁.inUse (c + b.size) →
      ∃ back post₁ s₂, post = back ++ post₁ ∧ (∀ x ∈ post₁.head?, x.live.isSome = true) ∧
        (∀ x ∈ back, x.live = none) ∧
        (if s₁.inUse (c + b.size) then (s₁, b.size + total Block.size front)
          else (s₁.unlinkFree (c + b.size),
            b.size + total Block.size front + s₁.size (c + b.size))) =
          (s₂, total Block.size (front ++ b :: back)) ∧
        Opened s h a pre₁ (front ++ b :: back) post₁ ∅ ∅ s₂ := by
    intro hhead huse
    refine ⟨[], post, s₁, rfl, hhead, by simp, ?_, ?_⟩
    · rw [if_pos huse, total_append, total_cons, total_nil, Nat.add_comm b.size]
      rfl
    · have hopened := ho [] post rfl
      rw [freesAt_nil] at hopened
      exact hopened
  rcases hr.laid.next_cases ha hcut' with ⟨hnil, htag⟩ | ⟨q, post₂, hpost, hq, htag⟩
  · apply hstay
    · simp [hnil]
    · unfold inUse
      rw [hword, hpre, htag]
  · have hok := hr.laid.block _ hq
    rw [← hpre] at htag
    by_cases hqlive : q.live.isSome = true
    · apply hstay
      · intro x hx
        rw [hpost] at hx
        cases hx
        exact hqlive
      · unfold inUse
        rw [hword, htag]
        exact hok.tag_live.mpr hqlive
    · -- the free chunk behind is unlinked
      have hfree : q.live = none := by simpa using hqlive
      have huse : ¬ s₁.inUse (c + b.size) := by
        unfold inUse
        rw [hword, htag]
        exact fun hodd => hqlive (hok.tag_live.mp hodd)
      have hsize : s₁.size (c + b.size) = q.size := by
        unfold AllocPool.size
        rw [hword, htag]
        exact hok.tag_size
      rw [if_neg huse, hsize]
      refine ⟨[q], post₂, s₁.unlinkFree (c + b.size), hpost, ?_, by simpa using hfree, ?_, ?_⟩
      · have hchain := hr.coalesced a ha
        rw [hcut', hpost, List.isChain_append] at hchain
        intro x hx
        have hlink := hchain.2.1.rel_head? hx
        simpa [hfree] using hlink
      · rw [total_append, total_cons, total_cons, total_nil]
        congr 1
        omega
      · have hopened := ho [q] post₂ hpost
        have hfrees : freesAt (c + b.size) [q] ⊆
            freesAt (a.chunk + total Block.size pre₁) (front ++ b :: [q]) := by
          intro f hf
          obtain ⟨d, hd, hdfree⟩ := hf
          refine ⟨d, ?_, hdfree⟩
          show (f.1, d) ∈ starts Block.size _ (front ++ b :: [q])
          rw [starts_append, starts_cons, ← hc]
          exact List.mem_append_right _ (List.mem_cons_of_mem _ hd)
        have hin : (c + b.size, q.size) ∈ freesAt (c + b.size) [q] := by
          rw [freesAt_free _ hfree]
          exact Set.mem_insert _ _
        have hunlinked := hopened.unlink hfrees hin
        rw [freesAt_free _ hfree, freesAt_nil, Set.insert_sdiff_self_of_notMem
          (Set.notMem_empty _)] at hunlinked
        exact hunlinked

/-! ## Giving an area back -/

theorem areas_cut {l : List AllocArea} (hinj : ∀ b ∈ l, b.chunk = a.chunk → b = a) (ha : a ∈ l) :
    l = (l.takeWhile fun b => b.chunk ≠ a.chunk) ++
      a :: (l.dropWhile fun b => b.chunk ≠ a.chunk).tail := by
  induction l with
  | nil => exact absurd ha List.not_mem_nil
  | cons b l ih =>
    by_cases hb : b.chunk = a.chunk
    · have hba := hinj b List.mem_cons_self hb
      simp [hba]
    · have hmem : a ∈ l := by
        rcases List.mem_cons.mp ha with heq | hmem
        · exact absurd (by rw [heq]) hb
        · exact hmem
      have hcut := ih (fun b' hb' => hinj b' (List.mem_cons_of_mem _ hb')) hmem
      simp only [List.takeWhile_cons, List.dropWhile_cons, decide_eq_true hb, if_true,
        List.cons_append]
      exact congrArg (b :: ·) hcut

/-- The other areas. -/
theorem Laid.mem_freeArea (hl : s.Laid h) (ha : a ∈ s.mAreas) {b : AllocArea} :
    b ∈ (s.freeArea a.chunk).mAreas ↔ b ∈ s.mAreas ∧ b ≠ a := by
  have hcut := areas_cut (fun b hb heq => by
    by_contra hne
    exact hl.chunk_ne ha hb hne heq) ha
  have hapart := hl.apart
  have hself : ¬ (a.stop ≤ a.mUnalignedPointerToThis ∨ a.stop ≤ a.mUnalignedPointerToThis) := by
    unfold AllocArea.stop kAreaOverhead sizeofAllocAreaHdr sizeofAllocChunk
    omega
  rw [hcut, List.pairwise_append] at hapart
  show b ∈ (s.mAreas.dropWhile fun b => b.chunk ≠ a.chunk).tail ++
    (s.mAreas.takeWhile fun b => b.chunk ≠ a.chunk) ↔ _
  generalize (s.mAreas.takeWhile fun b => b.chunk ≠ a.chunk) = front at hcut hapart ⊢
  generalize (s.mAreas.dropWhile fun b => b.chunk ≠ a.chunk).tail = back at hcut hapart ⊢
  rw [hcut]
  constructor
  · intro hb
    rcases List.mem_append.mp hb with hback | hfront
    · refine ⟨List.mem_append_right _ (List.mem_cons_of_mem _ hback), fun heq => hself ?_⟩
      have := (List.pairwise_cons.mp hapart.2.1).1 b hback
      rw [heq] at this
      exact this
    · refine ⟨List.mem_append_left _ hfront, fun heq => hself ?_⟩
      have := hapart.2.2 b hfront a List.mem_cons_self
      rw [heq] at this
      exact this
  · intro hb
    rcases List.mem_append.mp hb.1 with hfront | hback
    · exact List.mem_append_right _ hfront
    · rcases List.mem_cons.mp hback with heq | hback
      · exact absurd heq hb.2
      · exact List.mem_append_left _ hback

/-- Without one area, which has no chunk in the bins. -/
theorem Laid.freeArea (hl : s.Laid h) (hcoalesced : Coalesced s.mAreas h) (ha : a ∈ s.mAreas)
    (hbinned : s.Binned (freeOf (outside s.mAreas h a [] n []))) :
    (s.freeArea a.chunk).Rep h ∧
      chunks (s.freeArea a.chunk).mAreas h = outside s.mAreas h a [] n [] := by
  have hareas : ∀ b, b ∈ (s.freeArea a.chunk).mAreas ↔ b ∈ s.mAreas ∧ b ≠ a :=
    fun b => hl.mem_freeArea ha
  have hsub : ∀ b ∈ (s.freeArea a.chunk).mAreas, b ∈ s.mAreas := fun b hb => ((hareas b).mp hb).1
  have hchunks : chunks (s.freeArea a.chunk).mAreas h = outside s.mAreas h a [] n [] := by
    ext u
    constructor
    · intro hu
      obtain ⟨b, hb, hu⟩ := hu
      exact .inr (.inr ⟨b, ((hareas b).mp hb).1, ((hareas b).mp hb).2, hu⟩)
    · intro hu
      rcases hu with hpre | hpost | ⟨b, hb, hne, hu⟩
      · exact absurd hpre List.not_mem_nil
      · exact absurd hpost List.not_mem_nil
      · exact ⟨b, (hareas b).mpr ⟨hb, hne⟩, hu⟩
  have hmem : ∀ u ∈ chunks (s.freeArea a.chunk).mAreas h, u ∈ chunks s.mAreas h := by
    intro u hu
    obtain ⟨b, hb, hu⟩ := hu
    exact ⟨b, hsub b hb, hu⟩
  refine ⟨⟨?_, fun b hb => hcoalesced b (hsub b hb), ?_⟩, hchunks⟩
  · refine ⟨fun b hb => hl.addr b (hsub b hb), ?_, fun b hb => hl.pool b (hsub b hb),
      fun b hb => hl.nonempty b (hsub b hb), fun b hb => hl.filled b (hsub b hb),
      fun b hb => hl.first b (hsub b hb), fun b hb => hl.last b (hsub b hb),
      fun u hu => hl.block u (hmem u hu), fun u hu => hl.tag u (hmem u hu)⟩
    -- the areas behind the freed one come in front of those before it
    have hapart := hl.apart
    rw [← List.takeWhile_append_dropWhile (p := fun b : AllocArea => decide (b.chunk ≠ a.chunk))
      (l := s.mAreas), List.pairwise_append] at hapart
    show ((s.mAreas.dropWhile fun b => b.chunk ≠ a.chunk).tail ++
      (s.mAreas.takeWhile fun b => b.chunk ≠ a.chunk)).Pairwise _
    rw [List.pairwise_append]
    refine ⟨hapart.2.1.tail, hapart.1, fun x hx y hy => ?_⟩
    exact (hapart.2.2 y hy x (List.mem_of_mem_tail hx)).symm
  · rw [hchunks]
    exact ⟨hbinned.bin, hbinned.nodup, hbinned.bits, hbinned.size, hbinned.spaced⟩

/-! ## `Free` -/

/-- A chain stays one when new chunks come between neighbours that are in use. -/
theorem isChain_replace (mid' : List Block) (hc : Coalesced s.mAreas h) (ha : a ∈ s.mAreas)
    (hcut : h a.chunk = pre ++ mid ++ post)
    (hmid : mid'.IsChain fun b c => b.live.isSome ∨ c.live.isSome)
    (hpre : ∀ x ∈ pre.getLast?, ∀ y ∈ mid'.head?, x.live.isSome ∨ y.live.isSome)
    (hpost : ∀ x ∈ (pre ++ mid').getLast?, ∀ y ∈ post.head?, x.live.isSome ∨ y.live.isSome) :
    (pre ++ mid' ++ post).IsChain fun b c => b.live.isSome ∨ c.live.isSome := by
  have hchain := hc a ha
  rw [hcut, List.isChain_append, List.isChain_append] at hchain
  rw [List.isChain_append, List.isChain_append]
  exact ⟨⟨hchain.1.1, hmid, hpre⟩, hchain.2.1, hpost⟩

/-- A chunk that fills an area is between its ends. -/
theorem Laid.isArea_iff (hl : s.Laid h) (ha : a ∈ s.mAreas) (hcut : h a.chunk = pre ++ b :: post) :
    s.isArea (a.chunk + total Block.size pre) ↔ pre = [] ∧ post = [] := by
  have hmem : (a.chunk + total Block.size pre, b) ∈ chunks s.mAreas h :=
    ⟨a, ha, by rw [hcut]; simp⟩
  have hsize : s.size (a.chunk + total Block.size pre) = b.size := by
    unfold AllocPool.size mSize
    rw [(hl.tag _ hmem).1]
    exact (hl.block _ hmem).tag_size
  have hcut' : h a.chunk = (pre ++ [b]) ++ post := by
    rw [hcut]
    simp
  have hnext : a.chunk + total Block.size pre + b.size =
      a.chunk + total Block.size (pre ++ [b]) := by
    simp [Nat.add_assoc]
  unfold isArea kChunkInUse
  rw [hsize, hnext]
  constructor
  · intro harea
    constructor
    · rcases hl.prev_cases ha hcut with ⟨hnil, -⟩ | ⟨pre₁, p, -, hp, htag⟩
      · exact hnil
      · exact absurd (htag.symm.trans harea.1) (hl.block _ hp).tag_ne
    · rcases hl.next_cases ha hcut' with ⟨hnil, -⟩ | ⟨q, post₁, -, hq, htag⟩
      · exact hnil
      · exact absurd (htag.symm.trans harea.2) (hl.block _ hq).tag_ne
  · intro hnil
    constructor
    · rcases hl.prev_cases ha hcut with ⟨-, htag⟩ | ⟨pre₁, p, heq, -⟩
      · exact htag
      · rw [hnil.1] at heq
        exact absurd heq (by simp)
    · rcases hl.next_cases ha hcut' with ⟨-, htag⟩ | ⟨q, post₁, heq, -⟩
      · exact htag
      · rw [hnil.2] at heq
        exact absurd heq (by simp)

/-- One free chunk instead of several chunks. -/
def merged (bs : List Block) : Block := ⟨total Block.size bs, none⟩

@[simp] theorem merged_size (bs : List Block) : (merged bs).size = total Block.size bs := rfl

@[simp] theorem merged_tag (bs : List Block) : (merged bs).tag = total Block.size bs := rfl

@[simp] theorem merged_live (bs : List Block) : (merged bs).live = none := rfl

theorem Opened.merged_ok (ho : Opened s₀ h a pre mid post W G s) : ∀ b ∈ [merged mid], b.Ok := by
  intro b hb
  rw [List.mem_singleton.mp hb]
  exact ⟨ho.place.2, even_total ho.ok, fun r hr => nomatch hr⟩

/-- The chunks outside of the hole stay in use, and those in it do not. -/
theorem Opened.changed_merged (ho : Opened s₀ h a pre mid post W G s)
    (hW : W ⊆ holeWords (a.chunk + total Block.size pre) (total Block.size mid)) :
    Changed s₀ s h (Function.update h a.chunk (pre ++ [merged mid] ++ post))
      {u | u ∈ starts Block.size (a.chunk + total Block.size pre) mid} ∅ := by
  refine (ho.changed [merged mid] (by simp) hW).congr (fun u _ => Iff.rfl) ?_
  intro u hlive
  refine iff_of_false (fun hu => ?_) (Set.notMem_empty u)
  rw [List.mem_singleton.mp hu] at hlive
  cases hlive

/-- What `Free` does when the neighbours are unlinked. -/
def freeMerged (s : AllocPool) (chunk size : ℕ) : AllocPool :=
  let s := s.setSizeFree chunk size
  if s.mAreaMoreSize ≠ 0 ∧ s.isArea chunk then s.freeArea chunk else s.linkFree chunk

/-- The words of the header of the merged chunk. -/
def mergedWords (start len : ℕ) : Set ℕ := insert (start + 24) (insert (start + len + 16) ∅)

theorem mergedWords_subset (start : ℕ) {len : ℕ} (hlen : 32 ≤ len) :
    insert start (insert (start + 8) (mergedWords start len)) ⊆ holeWords start len := by
  intro w hw
  rcases hw with hw | hw | hw | hw | hw
  · exact .inl hw
  · exact .inr (.inl hw)
  · exact .inr (.inr (.inl (by omega)))
  · exact .inr (.inr (.inr hw))
  · exact absurd hw (Set.notMem_empty w)

theorem Opened.setSizeFree (ho : Opened s₀ h a pre mid post ∅ ∅ s) :
    Opened s₀ h a pre mid post (mergedWords (a.chunk + total Block.size pre) (total Block.size mid))
      ∅ (s.setSizeFree (a.chunk + total Block.size pre) (total Block.size mid)) := by
  have hmin := ho.place.2
  exact ho.setSize (le_refl _) (by omega) (le_refl _) (fun f hf => absurd hf (Set.notMem_empty f)) _

/-- The merged chunk has its size at both ends, also when it is linked. -/
theorem merged_header {s' : AllocPool} {start : ℕ} (hmid : 32 ≤ total Block.size mid)
    (hkeep : ∀ w, w ≠ start → w ≠ start + 8 → start ≤ w →
      w < start + total Block.size mid ∨ w = start + total Block.size mid + 16 →
      s'.mem w = (s.setSizeFree start (total Block.size mid)).mem w) :
    ∀ u ∈ starts Block.size start [merged mid],
      s'.mem (u.1 + 24) = u.2.tag ∧ s'.mem (u.1 + u.2.size + 16) = u.2.tag := by
  intro u hu
  rw [List.mem_singleton.mp hu]
  simp only [merged_tag, merged_size]
  unfold AllocPool.setSizeFree at hkeep
  rw [hkeep _ (by omega) (by omega) (by omega) (.inl (by omega)), setSize_mem, if_pos (.inl rfl),
    hkeep _ (by omega) (by omega) (by omega) (.inr rfl), setSize_mem, if_pos (.inr rfl)]
  exact ⟨rfl, rfl⟩

/-- The area is given back. -/
theorem Opened.freeArea (ho : Opened s₀ h a [] mid [] W ∅ s)
    (hlaid : s.Laid (Function.update h a.chunk [merged mid]))
    (hW : W ⊆ holeWords (a.chunk + total Block.size []) (total Block.size mid)) :
    let h' := Function.update h a.chunk [merged mid]
    (s.freeArea a.chunk).Rep h' ∧ Changed s₀ (s.freeArea a.chunk) h h'
        {u | u ∈ starts Block.size (a.chunk + total Block.size []) mid} ∅ ∧
      ∀ b, b ∈ (s.freeArea a.chunk).mAreas ↔ b ∈ s₀.mAreas ∧ b ≠ a := by
  intro h'
  have ha : a ∈ s.mAreas := ho.alike.mAreas ▸ ho.area
  have hbinned := ho.binned
  rw [Set.union_empty, ← ho.laid.outside_update ho.area [merged mid], ← ho.alike.mAreas] at hbinned
  have hcoalesced : Coalesced s.mAreas h' := by
    rw [ho.alike.mAreas]
    exact ho.coalesced_update (by simp)
  obtain ⟨hrep, hchunks⟩ := hlaid.freeArea hcoalesced ha hbinned
  have hchanged := ho.changed_merged hW
  refine ⟨hrep, { hchanged with live := fun u hu => ?_ }, fun b => ?_⟩
  · rw [← hchanged.live u hu, hchunks]
    -- the chunk of the area itself is free
    show _ ↔ u ∈ chunks s.mAreas (Function.update h a.chunk ([] ++ [merged mid] ++ []))
    rw [ho.mem_chunks (by simp), ho.alike.mAreas, ho.laid.outside_update ho.area]
    refine (or_iff_left fun hin => ?_).symm
    rw [List.mem_singleton.mp hin] at hu
    cases hu
  · rw [hlaid.mem_freeArea ha, ho.alike.mAreas]

theorem Opened.freeMerged (ho : Opened s₀ h a pre mid post ∅ ∅ s)
    (hpre : ∀ x ∈ pre.getLast?, x.live.isSome = true)
    (hpost : ∀ x ∈ post.head?, x.live.isSome = true) :
    let s' := s.freeMerged (a.chunk + total Block.size pre) (total Block.size mid)
    ∃ h', s'.Rep h' ∧
      Changed s₀ s' h h' {u | u ∈ starts Block.size (a.chunk + total Block.size pre) mid} ∅ ∧
      (∀ w, ¬ LinkWord s₀.self (headersOf (chunks s₀.mAreas h)) w →
        w ∉ insert (a.chunk + total Block.size pre) (insert (a.chunk + total Block.size pre + 8)
          (mergedWords (a.chunk + total Block.size pre) (total Block.size mid))) →
        s'.mem w = s₀.mem w) ∧
      ∀ a', a' ∈ s'.mAreas ↔ a' ∈ s₀.mAreas ∧
        (s₀.mAreaMoreSize = 0 ∨ a' ≠ a ∨ ∃ x ∈ h' a.chunk, x.live.isSome = true) := by
  have hmin := ho.place.2
  have hopen := ho.setSizeFree
  have hsub := mergedWords_subset (a.chunk + total Block.size pre) hmin
  have hW : mergedWords (a.chunk + total Block.size pre) (total Block.size mid) ⊆ holeWords _ _ :=
    fun w hw => hsub (.inr (.inr hw))
  have hlaid := hopen.relaid [merged mid] (by simp) (by simp) ho.merged_ok hW
    (merged_header hmin fun _ _ _ _ _ => rfl)
  have hcut' : Function.update h a.chunk (pre ++ [merged mid] ++ post) a.chunk =
      pre ++ merged mid :: post := by
    rw [Function.update_self]
    simp
  have hiff : (s.setSizeFree (a.chunk + total Block.size pre)
        (total Block.size mid)).mAreaMoreSize ≠ 0 ∧
      (s.setSizeFree (a.chunk + total Block.size pre) (total Block.size mid)).isArea
        (a.chunk + total Block.size pre) ↔ s₀.mAreaMoreSize ≠ 0 ∧ pre = [] ∧ post = [] := by
    rw [hopen.alike.mAreaMoreSize, hlaid.isArea_iff (hopen.alike.mAreas ▸ ho.area) hcut']
  have hdef : s.freeMerged (a.chunk + total Block.size pre) (total Block.size mid) =
      if (s.setSizeFree (a.chunk + total Block.size pre) (total Block.size mid)).mAreaMoreSize ≠ 0 ∧
        (s.setSizeFree (a.chunk + total Block.size pre) (total Block.size mid)).isArea
          (a.chunk + total Block.size pre)
      then (s.setSizeFree (a.chunk + total Block.size pre) (total Block.size mid)).freeArea
        (a.chunk + total Block.size pre)
      else (s.setSizeFree (a.chunk + total Block.size pre) (total Block.size mid)).linkFree
        (a.chunk + total Block.size pre) := rfl
  intro s'
  rw [show s' = _ from hdef]
  by_cases hwhole : s₀.mAreaMoreSize ≠ 0 ∧ pre = [] ∧ post = []
  · rw [if_pos (hiff.mpr hwhole)]
    obtain ⟨hgrow, rfl, rfl⟩ := hwhole
    obtain ⟨hrep, hchanged, hareas⟩ := hopen.freeArea hlaid hW
    refine ⟨_, hrep, hchanged, fun w hlink hw => hopen.mem w hlink fun h => hw (.inr (.inr h)),
      fun a' => (hareas a').trans (and_congr_right fun _ => ?_)⟩
    simp [hgrow]
  · rw [if_neg (mt hiff.mp hwhole)]
    have hsize : (s.setSizeFree (a.chunk + total Block.size pre) (total Block.size mid)).size
        (a.chunk + total Block.size pre) = total Block.size mid := by
      unfold AllocPool.size mSize AllocPool.setSizeFree
      rw [setSize_mem, if_pos (.inl rfl)]
      have := even_total ho.ok
      omega
    obtain ⟨hlinked, hkeep⟩ := hopen.link hsize (le_refl _) (by omega)
    have hG : freesAt (a.chunk + total Block.size pre) [merged mid] =
        {(a.chunk + total Block.size pre, total Block.size mid)} := by
      rw [freesAt_free _ (merged_live mid), freesAt_nil, merged_size, insert_empty_eq]
    rw [← hG] at hlinked
    refine ⟨_, hlinked.close (by simp) (by simp) ho.merged_ok hsub (merged_header hmin hkeep) ?_,
      hlinked.changed_merged hsub, hlinked.mem, fun a' => ?_⟩
    · exact isChain_replace [merged mid] ho.coalesced ho.area ho.cut (by simp)
        (fun x hx _ _ => .inl (hpre x hx)) (fun _ _ y hy => .inr (hpost y hy))
    · rw [hlinked.alike.mAreas, Function.update_self]
      refine (and_iff_left_of_imp fun _ => ?_).symm
      -- an area that is not given back has a chunk in use
      by_cases hfixed : s₀.mAreaMoreSize = 0
      · exact .inl hfixed
      · right
        right
        by_cases hnil : pre = []
        · have hcons : post ≠ [] := fun heq => hwhole ⟨hfixed, hnil, heq⟩
          obtain ⟨y, ys, rfl⟩ := List.exists_cons_of_ne_nil hcons
          exact ⟨y, by simp, hpost y rfl⟩
        · exact ⟨pre.getLast hnil, by simp, hpre _ (List.getLast?_eq_some_getLast hnil)⟩

/-- The only chunk in use among some. -/
theorem mem_only_live {start : ℕ} {u : ℕ × Block} (hfront : ∀ x ∈ front, x.live = none)
    (hback : ∀ x ∈ back, x.live = none) (hc : c = start + total Block.size front)
    (hu : u.2.live.isSome = true) :
    u ∈ starts Block.size start (front ++ b :: back) → u = (c, b) := by
  intro hmem
  rw [starts_append, starts_cons, ← hc, List.mem_append, List.mem_cons] at hmem
  rcases hmem with hmem | heq | hmem
  · rw [hfront _ (mem_of_mem_starts hmem)] at hu
    cases hu
  · exact heq
  · rw [hback _ (mem_of_mem_starts hmem)] at hu
    cases hu

theorem Changed.of_only {s' : AllocPool} {h' : Heap} {new : Set (ℕ × Block)} {start : ℕ}
    (hchanged : Changed s s' h h' {u | u ∈ starts Block.size start (front ++ b :: back)} new)
    (hfront : ∀ x ∈ front, x.live = none) (hback : ∀ x ∈ back, x.live = none)
    (hc : c = start + total Block.size front) : Changed s s' h h' {(c, b)} new := by
  refine hchanged.congr (fun u hu => ⟨mem_only_live hfront hback hc hu, fun heq => ?_⟩)
    (fun u _ => Iff.rfl)
  show u ∈ starts Block.size start (front ++ b :: back)
  rw [Set.mem_singleton_iff.mp heq, starts_append, starts_cons, ← hc]
  exact List.mem_append_right _ List.mem_cons_self

/-- `Free` of a chunk in use. -/
theorem Rep.free (hr : s.Rep h) (ha : a ∈ s.mAreas) (hcut : h a.chunk = pre ++ b :: post)
    (hlive : b.live.isSome = true) (hc : c = a.chunk + total Block.size pre) :
    ∃ h', (s.free (c + sizeofAllocChunk)).Rep h' ∧
      Changed s (s.free (c + sizeofAllocChunk)) h h' {(c, b)} ∅ ∧
      (∀ w, c + 32 ≤ w → w < c + b.size →
        (s.free (c + sizeofAllocChunk)).mem w = s.mem w) ∧
      ∀ a', a' ∈ (s.free (c + sizeofAllocChunk)).mAreas ↔ a' ∈ s.mAreas ∧
        (s.mAreaMoreSize = 0 ∨ a' ≠ a ∨ ∃ x ∈ h' a.chunk, x.live.isSome = true) := by
  obtain ⟨pre₁, front, s₁, rfl, hpre, hfront, hbackward, hopen⟩ :=
    hr.consolidateBackward ha hcut hlive hc
  rw [total_append, ← Nat.add_assoc] at hc
  obtain ⟨back, post₁, s₂, rfl, hpost, hback, hforward, hopen⟩ :=
    hr.consolidateForward ha hcut hc hopen
  have hdef : s.free (c + sizeofAllocChunk) =
      s₂.freeMerged (a.chunk + total Block.size pre₁) (total Block.size (front ++ b :: back)) := by
    unfold AllocPool.free
    rw [if_neg (by unfold sizeofAllocChunk; omega), Nat.add_sub_cancel]
    simp only [hbackward, hforward]
    rfl
  have hmem : (c, b) ∈ chunks s.mAreas h := by
    refine ⟨a, ha, ?_⟩
    rw [hcut, hc, starts_append, starts_append, total_append, ← Nat.add_assoc]
    simp
  have hlen : total Block.size (front ++ b :: back) =
      total Block.size front + b.size + total Block.size back := by
    rw [total_append, total_cons, Nat.add_assoc]
  obtain ⟨h', hrep, hchanged, hkeep, hareas⟩ := hopen.freeMerged hpre hpost
  rw [hdef]
  -- the neighbours that were merged are free
  refine ⟨h', hrep, hchanged.of_only hfront hback hc, fun w hle hlt => ?_, hareas⟩
  apply hkeep w (hr.laid.not_linkWord hmem (by simp only; omega) (.inl hlt) (by simp only; omega))
  intro hw
  rcases hw with hw | hw | hw | hw | hw
  · omega
  · omega
  · omega
  · omega
  · exact Set.notMem_empty w hw

/-! ## Areas that are returned -/

/-- An area with a chunk in use. -/
def HasLive (s : AllocPool) (h : Heap) (a : AllocArea) : Prop :=
  ∃ u ∈ chunks s.mAreas h, u.2.live.isSome = true ∧ a.chunk ≤ u.1 ∧ u.1 < a.chunk + a.mSize

/-- A growable pool returns the areas whose last chunk in use is freed, and no others. -/
def Returns (s s' : AllocPool) (h h' : Heap) : Prop :=
  ∀ a ∈ s.mAreas, a ∈ s'.mAreas ↔ s.mAreaMoreSize = 0 ∨ HasLive s' h' a ∨ ¬ HasLive s h a

theorem Laid.address_in (hl : s.Laid h) {u : ℕ × Block} (ha : a ∈ s.mAreas)
    (hu : u ∈ starts Block.size a.chunk (h a.chunk)) :
    a.chunk ≤ u.1 ∧ u.1 < a.chunk + a.mSize := by
  have hmin := (hl.block u ⟨a, ha, hu⟩).min
  have hrange := hl.range ha hu
  omega

/-- An area that is kept has a chunk in use if one of its list is. -/
theorem Laid.hasLive_iff (hl : s.Laid h) (ha : a ∈ s.mAreas) :
    HasLive s h a ↔ ∃ x ∈ h a.chunk, x.live.isSome = true := by
  constructor
  · intro hlive
    obtain ⟨u, ⟨b, hb, hu⟩, hlive, hrange⟩ := hlive
    rw [← hl.area_unique ha hb hrange (hl.address_in hb hu)] at hu
    exact ⟨u.2, mem_of_mem_starts hu, hlive⟩
  · intro hlive
    obtain ⟨x, hx, hlive⟩ := hlive
    obtain ⟨pre, post, hcut⟩ := List.append_of_mem hx
    have hmem : (a.chunk + total Block.size pre, x) ∈ starts Block.size a.chunk (h a.chunk) := by
      rw [hcut]
      simp
    exact ⟨_, ⟨a, ha, hmem⟩, hlive, hl.address_in ha hmem⟩

/-- No area is returned where each keeps a chunk in use. -/
theorem Returns.of_subset {s' : AllocPool} {h' : Heap} (hsub : ∀ a ∈ s.mAreas, a ∈ s'.mAreas)
    (hlive : ∀ a ∈ s.mAreas, HasLive s h a → HasLive s' h' a) : Returns s s' h h' := by
  intro a ha
  refine iff_of_true (hsub a ha) (.inr ?_)
  by_cases hold : HasLive s h a
  · exact .inl (hlive a ha hold)
  · exact .inr hold

theorem Rep.free_returns (hr : s.Rep h) (ha : a ∈ s.mAreas) (hcut : h a.chunk = pre ++ b :: post)
    (hlive : b.live.isSome = true) (hc : c = a.chunk + total Block.size pre) {s' : AllocPool}
    {h' : Heap} (hr' : s'.Rep h') (hchanged : Changed s s' h h' {(c, b)} ∅)
    (hareas : ∀ a', a' ∈ s'.mAreas ↔ a' ∈ s.mAreas ∧
      (s.mAreaMoreSize = 0 ∨ a' ≠ a ∨ ∃ x ∈ h' a.chunk, x.live.isSome = true)) :
    Returns s s' h h' := by
  have hmem : (c, b) ∈ starts Block.size a.chunk (h a.chunk) := by
    rw [hcut, hc]
    simp
  have hin := hr.laid.address_in ha hmem
  intro a' ha'
  rw [hareas, and_iff_right ha']
  by_cases hother : a' = a
  · rw [hother]
    have hold : HasLive s h a := ⟨(c, b), ⟨a, ha, hmem⟩, hlive, hin⟩
    simp only [not_true, ne_eq, false_or, hold, or_false]
    apply or_congr_right
    by_cases hkept : a ∈ s'.mAreas
    · exact (hr'.laid.hasLive_iff hkept).symm
    · refine iff_of_false (fun hx => hkept ((hareas a).mpr ⟨ha, .inr (.inr hx)⟩)) fun hlive' => ?_
      -- a chunk in use is in one of the areas that are left
      obtain ⟨u, ⟨d, hd, hu⟩, -, hrange⟩ := hlive'
      have hd' := ((hareas d).mp hd).1
      have heq := hr.laid.area_unique ha hd' hrange (hr'.laid.address_in hd hu)
      exact hkept (heq ▸ hd)
  · refine iff_of_true (.inr (.inl hother)) (.inr ?_)
    by_cases hold : HasLive s h a'
    · left
      obtain ⟨u, hu, hulive, hrange⟩ := hold
      refine ⟨u, (hchanged.live u hulive).mpr (.inl ⟨hu, fun heq => hother ?_⟩), hulive, hrange⟩
      rw [Set.mem_singleton_iff.mp heq] at hrange
      exact hr.laid.area_unique ha' ha hrange hin
    · exact .inr hold

end PoopWorms.Server.AllocPool
