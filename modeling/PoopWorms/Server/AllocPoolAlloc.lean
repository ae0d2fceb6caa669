import PoopWorms.Server.AllocPoolRelease

/-!
# `Alloc` on the chunks

`Alloc` replaces a free chunk by one in use and, if that leaves enough, a free one. It takes
the chunk from the bins or from a new area.
-/

namespace PoopWorms.Server.AllocPool

open Tiling

variable {s s₀ s₁ : AllocPool} {h : Heap} {a : AllocArea} {pre mid post : List Block}
  {W : Set ℕ} {G : Set (ℕ × ℕ)} {c n : ℕ}

/-! ## Chunks that are returned -/

theorem or_one {n : ℕ} (h : n % 2 = 0) : n ||| kChunkInUse = n + 1 := by
  have hshift := Nat.shiftLeft_add_eq_or_of_lt (show kChunkInUse < 2 ^ 1 by decide) (n / 2)
  have hn : (n / 2) <<< 1 = n := by
    rw [Nat.shiftLeft_eq]
    omega
  rw [hn] at hshift
  exact hshift.symm

/-- A free chunk is taken out of its bin. -/
theorem Rep.take (hr : s.Rep h) (hf : (c, n) ∈ freeOf (chunks s.mAreas h)) :
    ∃ a pre m post, c = a.chunk + total Block.size pre ∧ m.size = n ∧ m.live = none ∧
      Opened s h a pre [m] post ∅ ∅ (s.unlinkFree c) := by
  obtain ⟨m, ⟨a, ha, hmem⟩, hfree, hsize⟩ := hf
  obtain ⟨pre, post, hcut, hc⟩ := exists_split hmem
  have hcut' : h a.chunk = pre ++ [m] ++ post := by
    rw [hcut]
    simp
  have hopen := hr.opened ha hcut' (by simp)
  have hG : freesAt (a.chunk + total Block.size pre) [m] = {(c, n)} := by
    rw [freesAt_free _ hfree, freesAt_nil, insert_empty_eq, hsize, ← hc]
  have hunlinked := hopen.unlink (le_refl _) (by rw [hG]; exact Set.mem_singleton _)
  rw [hG, Set.sdiff_self] at hunlinked
  exact ⟨a, pre, m, post, hc, hsize, hfree, hunlinked⟩

/-- All of the hole becomes one chunk in use. -/
theorem Opened.useWhole {r : ℕ} (ho : Opened s₀ h a pre mid post ∅ ∅ s)
    (hroom : r + 32 ≤ total Block.size mid) :
    let s' := s.setSizeInUse (a.chunk + total Block.size pre) (total Block.size mid)
    ∃ h', s'.Rep h' ∧
      Changed s₀ s' h h' {u | u ∈ starts Block.size (a.chunk + total Block.size pre) mid}
        {(a.chunk + total Block.size pre, ⟨total Block.size mid, some r⟩)} ∧
      s'.mAreas = s₀.mAreas := by
  have hmin := ho.place.2
  have heven := even_total ho.ok
  intro s'
  obtain ⟨b, hb⟩ : ∃ b : Block, b = ⟨total Block.size mid, some r⟩ := ⟨_, rfl⟩
  have htotal : total Block.size [b] = total Block.size mid := by simp [hb]
  have hopen := ho.setSize (c := a.chunk + total Block.size pre) (n := total Block.size mid)
    (le_refl _) (by omega) (le_refl _) (fun f hf => absurd hf (Set.notMem_empty f))
    (total Block.size mid ||| kChunkInUse)
  have hG : freesAt (a.chunk + total Block.size pre) [b] = ∅ := by
    rw [freesAt_live _ (by simp [hb]), freesAt_nil]
  have hsub := mergedWords_subset (a.chunk + total Block.size pre) hmin
  have hW : mergedWords (a.chunk + total Block.size pre) (total Block.size mid) ⊆ holeWords _ _ :=
    fun w hw => hsub (.inr (.inr hw))
  have htag : ∀ u ∈ starts Block.size (a.chunk + total Block.size pre) [b],
      s'.mem (u.1 + 24) = u.2.tag ∧ s'.mem (u.1 + u.2.size + 16) = u.2.tag := by
    intro u hu
    rw [List.mem_singleton.mp hu, hb]
    show (s.setSizeInUse _ _).mem _ = total Block.size mid + 1 ∧
      (s.setSizeInUse _ _).mem _ = total Block.size mid + 1
    unfold setSizeInUse
    rw [setSize_mem, if_pos (.inl rfl), setSize_mem, if_pos (.inr rfl), or_one heven]
    exact ⟨rfl, rfl⟩
  have hbok : ∀ d ∈ [b], d.Ok := by
    intro d hd
    rw [List.mem_singleton.mp hd, hb]
    exact ⟨hmin, heven, fun r' hr' => by cases hr'; exact hroom⟩
  have hchain := isChain_replace [b] ho.coalesced ho.area ho.cut (by simp)
    (fun _ _ y hy => by
      rw [List.head?_cons, Option.mem_some_iff] at hy
      exact .inr (by rw [← hy, hb]; rfl))
    (fun x hx _ _ => by
      rw [List.getLast?_concat, Option.mem_some_iff] at hx
      exact .inl (by rw [← hx, hb]; rfl))
  have hchanged := hopen.changed [b] htotal hW
  rw [← hG] at hopen
  refine ⟨_, hopen.close (by simp) htotal hbok hW htag hchain,
    hchanged.congr (fun u _ => Iff.rfl) (fun u _ => ?_), hopen.alike.mAreas⟩
  rw [← hb]
  exact List.mem_singleton

/-- A hole that is a free chunk holds no chunk in use. -/
theorem Changed.of_free {s' : AllocPool} {h' : Heap} {m : Block} {new : Set (ℕ × Block)}
    (hc : Changed s s' h h' {u | u ∈ starts Block.size c [m]} new) (hfree : m.live = none) :
    Changed s s' h h' ∅ new := by
  refine hc.congr (fun u hu => ?_) (fun u _ => Iff.rfl)
  refine iff_of_false (fun hmem => ?_) (Set.notMem_empty u)
  rw [List.mem_singleton.mp hmem, hfree] at hu
  cases hu

theorem sizeT_ofNat {n : ℕ} (h : n < 2 ^ 64) : sizeT n = n := by
  unfold sizeT
  omega

/-- A chunk is split: the front is used, and the rest is free. -/
theorem Opened.foundBiggerFit {m : Block} {r size : ℕ} {remainder_size : ℤ}
    (ho : Opened s₀ h a pre [m] post ∅ ∅ s) (hfree : m.live = none) (hsize : 32 ≤ size)
    (heven : size % 2 = 0) (hlt : size < 2 ^ 64) (hroom : r + 32 ≤ size)
    (hle : size + 32 ≤ m.size) (hrest : m.size < size + 2 ^ 31)
    (hrem : remainder_size = (m.size : ℤ) - size) :
    let s' := (s.foundBiggerFit (a.chunk + total Block.size pre) m.size size remainder_size).1
    ∃ h', s'.Rep h' ∧ Changed s₀ s' h h' ∅
      {(a.chunk + total Block.size pre, ⟨size, some r⟩)} ∧ s'.mAreas = s₀.mAreas := by
  have hok := ho.ok m (by simp)
  have heven' := hok.even
  obtain ⟨k, hk⟩ : ∃ k, m.size = size + k := ⟨m.size - size, by omega⟩
  have hrem_size : sizeT remainder_size = k := by
    rw [hrem, hk, Nat.cast_add, add_sub_cancel_left]
    exact sizeT_ofNat (by omega)
  have hcand_size : sizeT (m.size - remainder_size) = size := by
    rw [hrem, sub_sub_cancel]
    exact sizeT_ofNat hlt
  have hlen : total Block.size [m] = size + k := by simp [hk]
  intro s'
  have hdef : s' = ((((s.setSizeFree (a.chunk + total Block.size pre + size) k).linkFree
      (a.chunk + total Block.size pre + size)).setSizeInUse
      (a.chunk + total Block.size pre) size)) := by
    show (AllocPool.foundBiggerFit _ _ _ _ _).1 = _
    unfold AllocPool.foundBiggerFit AllocPool.returnChunk
    rw [hrem_size, hcand_size]
  -- the rest gets its header and is linked
  have hopen₁ := ho.setSize (c := a.chunk + total Block.size pre + size) (n := k) (by omega)
    (by omega) (by rw [hlen]; omega) (fun f hf => absurd hf (Set.notMem_empty f)) k
  have hrestsize : (s.setSize (a.chunk + total Block.size pre + size) k k).size
      (a.chunk + total Block.size pre + size) = k := by
    unfold AllocPool.size mSize
    rw [setSize_mem, if_pos (.inl rfl)]
    omega
  obtain ⟨hopen₂, hkeep⟩ := hopen₁.link hrestsize (by omega) (by rw [hlen]; omega)
  -- the front gets its header
  have hopen₃ := hopen₂.setSize (c := a.chunk + total Block.size pre) (n := size) (le_refl _)
    (by omega) (by rw [hlen]; omega) (fun f hf => by
      rw [Set.mem_singleton_iff.mp hf]
      simp only
      omega) (size ||| kChunkInUse)
  obtain ⟨b, hb⟩ : ∃ b : Block, b = ⟨size, some r⟩ := ⟨_, rfl⟩
  obtain ⟨d, hd⟩ : ∃ d : Block, d = ⟨k, none⟩ := ⟨_, rfl⟩
  have htotal : total Block.size [b, d] = total Block.size [m] := by simp [hb, hd, hk]
  have hG : freesAt (a.chunk + total Block.size pre) [b, d] =
      {(a.chunk + total Block.size pre + size, k)} := by
    rw [freesAt_live _ (by simp [hb]), freesAt_free _ (by simp [hd]), freesAt_nil,
      insert_empty_eq, hb, hd]
  have hW : insert (a.chunk + total Block.size pre + 24)
      (insert (a.chunk + total Block.size pre + size + 16)
        (insert (a.chunk + total Block.size pre + size)
          (insert (a.chunk + total Block.size pre + size + 8)
            (insert (a.chunk + total Block.size pre + size + 24)
              (insert (a.chunk + total Block.size pre + size + k + 16) (∅ : Set ℕ)))))) ⊆
      holeWords (a.chunk + total Block.size pre) (total Block.size [m]) := by
    intro w hw
    rw [hlen]
    rcases hw with hw | hw | hw | hw | hw | hw | hw
    · exact .inr (.inr (.inl (by omega)))
    · exact .inr (.inr (.inl (by omega)))
    · exact .inr (.inr (.inl (by omega)))
    · exact .inr (.inr (.inl (by omega)))
    · exact .inr (.inr (.inl (by omega)))
    · exact .inr (.inr (.inr (by omega)))
    · exact absurd hw (Set.notMem_empty w)
  have hmem : ∀ w, s'.mem w = if w = a.chunk + total Block.size pre + 24 ∨
      w = a.chunk + total Block.size pre + size + 16 then size + 1
      else ((s.setSizeFree (a.chunk + total Block.size pre + size) k).linkFree
        (a.chunk + total Block.size pre + size)).mem w := by
    intro w
    rw [hdef, setSizeInUse, setSize_mem, or_one heven]
  have htag : ∀ u ∈ starts Block.size (a.chunk + total Block.size pre) [b, d],
      s'.mem (u.1 + 24) = u.2.tag ∧ s'.mem (u.1 + u.2.size + 16) = u.2.tag := by
    intro u hu
    rcases List.mem_cons.mp hu with heq | hu
    · rw [heq, hb]
      show s'.mem _ = size + 1 ∧ s'.mem _ = size + 1
      rw [hmem, if_pos (.inl rfl), hmem, if_pos (.inr rfl)]
      exact ⟨rfl, rfl⟩
    · rw [List.mem_singleton.mp hu, hb, hd]
      show s'.mem _ = k ∧ s'.mem _ = k
      simp only
      rw [hmem, if_neg (by omega), hmem, if_neg (by omega)]
      unfold AllocPool.setSizeFree
      rw [hkeep _ (by omega) (by omega) (by omega) (.inl (by omega)), setSize_mem,
        if_pos (.inl rfl), hkeep _ (by omega) (by omega) (by omega) (.inr (by omega)),
        setSize_mem, if_pos (.inr rfl)]
      exact ⟨rfl, rfl⟩
  have hnewok : ∀ e ∈ [b, d], e.Ok := by
    intro e he
    rcases List.mem_cons.mp he with heq | he
    · rw [heq, hb]
      exact ⟨hsize, heven, fun r' hr' => by cases hr'; exact hroom⟩
    · rw [List.mem_singleton.mp he, hd]
      exact ⟨by simp only; omega, by simp only; omega, fun r' hr' => nomatch hr'⟩
  have hchain := isChain_replace [b, d] ho.coalesced ho.area ho.cut
    (by simp [hb])
    (fun _ _ y hy => by
      rw [List.head?_cons, Option.mem_some_iff] at hy
      exact .inr (by rw [← hy, hb]; rfl))
    (fun _ _ y hy => by
      -- the chunk was free, so that its neighbour is in use
      have hold := ho.coalesced a ho.area
      rw [ho.cut, List.isChain_append] at hold
      have := hold.2.2 m (by simp) y hy
      rw [hfree] at this
      exact this.imp_left fun h => nomatch h)
  have hchanged := hopen₃.changed [b, d] htotal hW
  rw [← hG] at hopen₃
  rw [AllocPool.setSizeFree, setSizeInUse] at hdef
  rw [← hdef] at hopen₃ hchanged
  refine ⟨_, hopen₃.close (by simp) htotal hnewok hW htag hchain,
    (hchanged.of_free hfree).congr (fun u _ => Iff.rfl) (fun u hu => ?_), hopen₃.alike.mAreas⟩
  rw [← hb]
  constructor
  · intro hmem
    rcases List.mem_cons.mp hmem with heq | hmem
    · exact heq
    · rw [List.mem_singleton.mp hmem, hd] at hu
      cases hu
  · intro heq
    exact List.mem_cons.mpr (.inl heq)

/-! ## New areas -/

/-- `n` bytes of memory that is neither in an area nor in the pool. -/
structure Grants (s : AllocPool) (ptr n : ℕ) : Prop where
  areas : ∀ b ∈ s.mAreas, b.stop ≤ ptr ∨ ptr + n ≤ b.mUnalignedPointerToThis
  pool : ptr + n ≤ s.self ∨ s.self + 4096 ≤ ptr

/-- The area that `NewArea` makes of some memory. -/
def areaAt (ptr n : ℕ) : AllocArea := ⟨(ptr + (kAlign - 1)) / kAlign * kAlign, n, ptr⟩

theorem areaAt_geometry (ptr n : ℕ) :
    ptr + 32 ≤ (areaAt ptr n).chunk ∧ (areaAt ptr n).chunk + n + 48 < (areaAt ptr n).stop ∧
      (areaAt ptr n).stop = ptr + (n + kAreaOverhead) := by
  unfold areaAt AllocArea.chunk AllocArea.stop kAreaOverhead sizeofAllocAreaHdr sizeofAllocChunk
    kAlign
  simp only
  omega

/-- The pool with a new area. -/
def withArea (s : AllocPool) (ptr n : ℕ) : AllocPool :=
  let chunk := (areaAt ptr n).chunk
  let s := { s with mAreas := areaAt ptr n :: s.mAreas }
  (((s.store chunk chunk).store (chunk + 8) chunk).setNeighborsInUse chunk n).setSizeFree chunk n

theorem newArea_eq (s : AllocPool) (ptr n : ℕ) :
    s.newArea (some ptr) n = .ok (s.withArea ptr n, (areaAt ptr n).chunk) := rfl

/-- Only words of the new area are written. -/
theorem withArea_mem (s : AllocPool) (ptr n w : ℕ) :
    (s.withArea ptr n).mem w =
      if w = (areaAt ptr n).chunk + 24 ∨ w = (areaAt ptr n).chunk + n + 16 then n
      else if w = (areaAt ptr n).chunk + 16 ∨ w = (areaAt ptr n).chunk + n + 24 then 1
      else if w = (areaAt ptr n).chunk ∨ w = (areaAt ptr n).chunk + 8 then (areaAt ptr n).chunk
      else s.mem w := by
  unfold withArea AllocPool.setSizeFree
  simp only [setSize_mem, setNeighborsInUse, kChunkInUse, AllocPool.store, Function.update_apply]
  by_cases hsizes : w = (areaAt ptr n).chunk + 24 ∨ w = (areaAt ptr n).chunk + n + 16
  · simp only [hsizes, if_true]
  · by_cases hends : w = (areaAt ptr n).chunk + 16 ∨ w = (areaAt ptr n).chunk + n + 24
    · rcases hends with hend | hend <;> simp [hend]
    · by_cases hlinks : w = (areaAt ptr n).chunk ∨ w = (areaAt ptr n).chunk + 8
      · rcases hlinks with hlink | hlink <;> simp [hlink]
      · rw [not_or] at hends hlinks
        simp [hsizes, hends, hlinks]

theorem withArea_outside {ptr n w : ℕ} (hw : w < ptr ∨ ptr + (n + kAreaOverhead) ≤ w) :
    (s.withArea ptr n).mem w = s.mem w := by
  have hgeometry := areaAt_geometry ptr n
  rw [withArea_mem, if_neg (by omega), if_neg (by omega), if_neg (by omega)]

section NewArea

variable {ptr : ℕ}

/-- The words of the other areas stay. -/
theorem Laid.withArea_mem (hl : s.Laid h) (hg : s.Grants ptr (n + kAreaOverhead)) {b : AllocArea}
    (hb : b ∈ s.mAreas) {w : ℕ} (hle : b.chunk ≤ w) (hlt : w ≤ b.chunk + b.mSize + 32) :
    (s.withArea ptr n).mem w = s.mem w := by
  have hgeometry := hl.geometry hb
  have hareas := hg.areas b hb
  exact withArea_outside (by omega)

theorem Laid.withArea_payload (hl : s.Laid h) (hg : s.Grants ptr (n + kAreaOverhead))
    {u : ℕ × Block} (hu : u ∈ chunks s.mAreas h) {w : ℕ} (hle : u.1 ≤ w)
    (hlt : w ≤ u.1 + u.2.size + 32) : (s.withArea ptr n).mem w = s.mem w := by
  obtain ⟨b, hb, hu⟩ := hu
  have hrange := hl.range hb hu
  exact hl.withArea_mem hg hb (by omega) (by omega)

/-- The chunks of the other areas stay. -/
theorem Laid.withArea_other (hl : s.Laid h) (hg : s.Grants ptr (n + kAreaOverhead))
    {b : AllocArea} (hb : b ∈ s.mAreas) (bs : List Block) :
    b.chunk ≠ (areaAt ptr n).chunk ∧
      Function.update h (areaAt ptr n).chunk bs b.chunk = h b.chunk := by
  have hne : b.chunk ≠ (areaAt ptr n).chunk := by
    have hnew := areaAt_geometry ptr n
    have hgeometry := hl.geometry hb
    have := hg.areas b hb
    omega
  exact ⟨hne, Function.update_of_ne hne _ _⟩

/-- The chunks of the other areas are those outside of the new one. -/
theorem Laid.withArea_outside (hl : s.Laid h) (hg : s.Grants ptr (n + kAreaOverhead))
    (bs : List Block) (k : ℕ) :
    outside (s.withArea ptr n).mAreas (Function.update h (areaAt ptr n).chunk bs) (areaAt ptr n)
      [] k [] = chunks s.mAreas h := by
  ext u
  constructor
  · intro hu
    rcases hu with hnil | hnil | ⟨b, hb, hba, hu⟩
    · exact absurd hnil List.not_mem_nil
    · exact absurd hnil List.not_mem_nil
    · rcases List.mem_cons.mp hb with heq | hb
      · exact absurd heq hba
      · rw [(hl.withArea_other hg hb bs).2] at hu
        exact ⟨b, hb, hu⟩
  · intro hu
    obtain ⟨b, hb, hu⟩ := hu
    have hother := hl.withArea_other hg hb bs
    rw [← hother.2] at hu
    exact .inr (.inr ⟨b, List.mem_cons_of_mem _ hb, fun heq => hother.1 (by rw [heq]), hu⟩)

theorem Laid.mem_withArea (hl : s.Laid h) (hg : s.Grants ptr (n + kAreaOverhead)) {b : Block}
    {u : ℕ × Block} :
    u ∈ chunks (s.withArea ptr n).mAreas (Function.update h (areaAt ptr n).chunk [b]) ↔
      u ∈ chunks s.mAreas h ∨ u = ((areaAt ptr n).chunk, b) := by
  have hcut : Function.update h (areaAt ptr n).chunk [b] (areaAt ptr n).chunk =
      [] ++ [b] ++ [] := Function.update_self ..
  rw [mem_chunks_iff (a := areaAt ptr n) List.mem_cons_self hcut, hl.withArea_outside hg]
  exact or_congr_right List.mem_singleton

theorem Laid.withArea (hl : s.Laid h) (hg : s.Grants ptr (n + kAreaOverhead)) (hn : 32 ≤ n)
    (heven : n % 2 = 0) :
    (s.withArea ptr n).Laid (Function.update h (areaAt ptr n).chunk [⟨n, none⟩]) := by
  obtain ⟨hstart, hend, hstop⟩ := areaAt_geometry ptr n
  have hmem := AllocPool.withArea_mem s ptr n
  constructor
  · intro b hb
    rcases List.mem_cons.mp hb with rfl | hb
    · rfl
    · exact hl.addr b hb
  · refine List.pairwise_cons.mpr ⟨fun b hb => ?_, hl.apart⟩
    rw [hstop]
    exact (hg.areas b hb).symm
  · intro b hb
    rcases List.mem_cons.mp hb with rfl | hb
    · rw [hstop]
      exact hg.pool
    · exact hl.pool b hb
  · intro b hb
    rcases List.mem_cons.mp hb with rfl | hb
    · rw [Function.update_self]
      simp
    · rw [(hl.withArea_other hg hb _).2]
      exact hl.nonempty b hb
  · intro b hb
    rcases List.mem_cons.mp hb with rfl | hb
    · rw [Function.update_self]
      rfl
    · rw [(hl.withArea_other hg hb _).2]
      exact hl.filled b hb
  · intro b hb
    rcases List.mem_cons.mp hb with rfl | hb
    · rw [hmem, if_neg (by omega), if_pos (.inl rfl)]
    · rw [hl.withArea_mem hg hb (by omega) (by have := hl.geometry hb; omega)]
      exact hl.first b hb
  · intro b hb
    rcases List.mem_cons.mp hb with rfl | hb
    · show (s.withArea ptr n).mem ((areaAt ptr n).chunk + n + 24) = 1
      rw [hmem, if_neg (by omega), if_pos (.inr rfl)]
    · rw [hl.withArea_mem hg hb (by omega) (by omega)]
      exact hl.last b hb
  · intro u hu
    rcases (hl.mem_withArea hg).mp hu with hu | rfl
    · exact hl.block u hu
    · exact ⟨hn, heven, fun r hr => nomatch hr⟩
  · intro u hu
    rcases (hl.mem_withArea hg).mp hu with hu | rfl
    · rw [hl.withArea_payload hg hu (by omega) (by have := (hl.block u hu).min; omega),
        hl.withArea_payload hg hu (by omega) (by omega)]
      exact hl.tag u hu
    · show (s.withArea ptr n).mem _ = n ∧ (s.withArea ptr n).mem _ = n
      rw [hmem, if_pos (.inl rfl), hmem, if_pos (.inr rfl)]
      exact ⟨rfl, rfl⟩

/-- A new area is one free chunk that is in no bin. -/
theorem Rep.withArea (hr : s.Rep h) (hg : s.Grants ptr (n + kAreaOverhead)) (hn : 32 ≤ n)
    (heven : n % 2 = 0) :
    let s' := s.withArea ptr n
    let h' := Function.update h (areaAt ptr n).chunk [⟨n, none⟩]
    Opened s' h' (areaAt ptr n) [] [⟨n, none⟩] [] ∅ ∅ s' ∧ Changed s s' h h' ∅ ∅ := by
  intro s' h'
  have hbinned : s'.Binned (freeOf (chunks s.mAreas h)) := by
    refine ⟨hr.binned.bin, hr.binned.nodup, hr.binned.bits, fun x k hx => ?_, hr.binned.spaced⟩
    rw [← hr.binned.size x k hx]
    obtain ⟨b, hb, -⟩ := hx
    have hmin := (hr.laid.block _ hb).min
    simp only at hmin
    unfold AllocPool.size mSize
    rw [hr.laid.withArea_payload hg hb (by simp) (by simp only; omega)]
  refine ⟨⟨hr.laid.withArea hg hn heven, ?_, List.mem_cons_self, Function.update_self ..,
    by simp, Alike.refl s', ?_, fun _ _ _ => rfl⟩, ⟨rfl, rfl, rfl, fun u hu => ?_, ?_⟩⟩
  · intro b hb
    rcases List.mem_cons.mp hb with rfl | hb
    · show (Function.update h _ _ _).IsChain _
      rw [Function.update_self]
      simp
    · show (Function.update h _ _ _).IsChain _
      rw [(hr.laid.withArea_other hg hb _).2]
      exact hr.coalesced b hb
  · rw [hr.laid.withArea_outside hg, Set.union_empty]
    exact hbinned
  · rw [hr.laid.mem_withArea hg]
    constructor
    · intro hmem
      rcases hmem with hmem | heq
      · exact .inl ⟨hmem, Set.notMem_empty u⟩
      · rw [heq] at hu
        cases hu
    · intro hmem
      rcases hmem with ⟨hmem, -⟩ | hmem
      · exact .inl hmem
      · exact absurd hmem (Set.notMem_empty u)
  · intro u hu _ _ w hle hlt
    exact hr.laid.withArea_payload hg hu (by omega) (by omega)

end NewArea

/-! ## `Alloc` -/

/-- The size of the area that `Alloc` asks for where no free chunk is found. -/
def areaSize (s : AllocPool) (size : ℕ) : Option ℕ :=
  if s.mAreaMoreSize = 0 then
    if s.mAreas ≠ [] ∨ s.mAreaInitSize < size then none else some s.mAreaInitSize
  else if s.mAreaMoreSize < size then some size else some s.mAreaMoreSize

/-- A new area is for the request alone, or large enough for a free chunk behind it. -/
def Splits (s : AllocPool) (size : ℕ) : Prop :=
  ∀ n ∈ s.areaSize size, n % 2 = 0 ∧ n < size + 2 ^ 31 ∧
    (s.mAreaMoreSize ≠ 0 ∧ s.mAreaMoreSize < size ∨ size + 32 ≤ n)

instance (s : AllocPool) (size : ℕ) : Decidable (s.Splits size) :=
  inferInstanceAs (Decidable (∀ n ∈ s.areaSize size, _))

theorem Changed.trans {s s' s'' : AllocPool} {h h' h'' : Heap} {new : Set (ℕ × Block)}
    (hc : Changed s s' h h' ∅ ∅) (hc' : Changed s' s'' h' h'' ∅ new) :
    Changed s s'' h h'' ∅ new where
  self := hc'.self.trans hc.self
  mAreaInitSize := hc'.mAreaInitSize.trans hc.mAreaInitSize
  mAreaMoreSize := hc'.mAreaMoreSize.trans hc.mAreaMoreSize
  live := fun u hu => by
    rw [hc'.live u hu, hc.live u hu]
    simp
  payload := fun u hu hlive hnot w hle hlt => by
    have hmem : u ∈ chunks s'.mAreas h' := (hc.live u hlive).mpr (.inl ⟨hu, hnot⟩)
    rw [hc'.payload u hmem hlive hnot w hle hlt, hc.payload u hu hlive hnot w hle hlt]

/-- What is known when `Alloc` returns a block for `req` bytes. -/
structure Alloced (s s' : AllocPool) (h h' : Heap) (req q : ℕ) (c : ℕ) (b : Block) : Prop where
  rep : s'.Rep h'
  changed : Changed s s' h h' ∅ {(c, b)}
  live : b.live = some req
  size : requestToSize req ≤ b.size
  addr : q = c + sizeofAllocChunk
  fresh : ∀ e : Block, e.live.isSome = true → (c, e) ∉ chunks s.mAreas h

/-- The address of a free chunk is not that of one in use. -/
theorem Opened.fresh {m : Block} (ho : Opened s₀ h a pre [m] post W G s) (hfree : m.live = none) :
    ∀ e : Block, e.live.isSome = true →
      (a.chunk + total Block.size pre, e) ∉ chunks s₀.mAreas h := by
  intro e hlive hmem
  have hm : (a.chunk + total Block.size pre, m) ∈ chunks s₀.mAreas h :=
    (mem_chunks_iff ho.area ho.cut).mpr (.inr List.mem_cons_self)
  rw [ho.laid.unique hmem hm, hfree] at hlive
  cases hlive

/-- A chunk out of a bin, or a new area, that is used as it is. -/
theorem Opened.allocedWhole {m : Block} {req : ℕ} (ho : Opened s₀ h a pre [m] post ∅ ∅ s)
    (hfree : m.live = none) (hreq : req + 48 ≤ 2 ^ 64) (hle : requestToSize req ≤ m.size)
    (hc : c = a.chunk + total Block.size pre) :
    (∃ h' c' b, Alloced s₀ (s.returnChunk c m.size).1 h h' req (s.returnChunk c m.size).2 c' b) ∧
      (s.returnChunk c m.size).1.mAreas = s₀.mAreas := by
  rw [hc]
  have hroom := (requestToSize_spec hreq).2.2.1
  have hlen : total Block.size [m] = m.size := by simp
  obtain ⟨h', hrep, hchanged, hareas⟩ := ho.useWhole (r := req) (by omega)
  rw [hlen] at hrep hchanged hareas
  exact ⟨⟨h', _, _, hrep, hchanged.of_free hfree, rfl, hle, rfl, ho.fresh hfree⟩, hareas⟩

/-- One that is split. -/
theorem Opened.allocedSplit {m : Block} {req : ℕ} {remainder_size : ℤ}
    (ho : Opened s₀ h a pre [m] post ∅ ∅ s) (hfree : m.live = none) (hreq : req + 48 ≤ 2 ^ 64)
    (hle : requestToSize req + 32 ≤ m.size) (hrest : m.size < requestToSize req + 2 ^ 31)
    (hrem : remainder_size = (m.size : ℤ) - requestToSize req)
    (hc : c = a.chunk + total Block.size pre) :
    let r := s.foundBiggerFit c m.size (requestToSize req) remainder_size
    (∃ h' c' b, Alloced s₀ r.1 h h' req r.2 c' b) ∧ r.1.mAreas = s₀.mAreas := by
  rw [hc]
  obtain ⟨hmin, halign, hroom, hmax⟩ := requestToSize_spec hreq
  obtain ⟨h', hrep, hchanged, hareas⟩ := ho.foundBiggerFit hfree hmin (by omega) (by omega) hroom
    hle hrest hrem
  exact ⟨⟨h', _, _, hrep, hchanged, rfl, le_refl _, rfl, ho.fresh hfree⟩, hareas⟩

/-- `Alloc` with a chunk from the bins. -/
theorem Rep.allocFit (hr : s.Rep h) {req : ℕ} (hreq : req + 48 ≤ 2 ^ 64) {fit : Fit}
    (hof : fit.Of (freeOf (chunks s.mAreas h)) (requestToSize req)) {ptr : Option ℕ}
    (hsearch : s.search (requestToSize req) = some fit) :
    ∃ s' q, s.alloc ptr req = .ok (s', q) ∧ (∃ h' c b, Alloced s s' h h' req q c b) ∧
      s'.mAreas = s.mAreas := by
  cases fit with
  | exactFit c =>
    obtain ⟨n, hf, hle, -⟩ := hof
    obtain ⟨a, pre, m, post, hc, rfl, hfree, hopen⟩ := hr.take hf
    have hdef : s.alloc ptr req = .ok ((s.unlinkFree c).returnChunk c m.size) := by
      unfold AllocPool.alloc
      simp only [hsearch, hr.binned.size c _ hf]
    rw [hdef]
    exact ⟨_, _, rfl, hopen.allocedWhole hfree hreq hle hc⟩
  | biggerFit c remainder_size =>
    obtain ⟨n, hf, hle, hlt, hrem⟩ := hof
    obtain ⟨a, pre, m, post, hc, rfl, hfree, hopen⟩ := hr.take hf
    have hdef : s.alloc ptr req = .ok ((s.unlinkFree c).foundBiggerFit c m.size
        (requestToSize req) remainder_size) := by
      unfold AllocPool.alloc
      simp only [hsearch, hr.binned.size c _ hf]
    rw [hdef]
    exact ⟨_, _, rfl, hopen.allocedSplit hfree hreq hle hlt hrem hc⟩

/-- `Alloc` from the pool with a new area. -/
theorem Alloced.ofArea {s' : AllocPool} {h' : Heap} {req q : ℕ} (hc : Changed s s₁ h h' ∅ ∅)
    (hareas : s₁.mAreas = a :: s.mAreas)
    (ha : (∃ h'' c b, Alloced s₁ s' h' h'' req q c b) ∧ s'.mAreas = s₁.mAreas) :
    (∃ h'' c b, Alloced s s' h h'' req q c b) ∧ ∃ a, s'.mAreas = a :: s.mAreas := by
  obtain ⟨⟨h'', c, b, halloced⟩, hsame⟩ := ha
  refine ⟨⟨h'', c, b, halloced.rep, hc.trans halloced.changed, halloced.live, halloced.size,
    halloced.addr, fun e he hmem => ?_⟩, a, hsame.trans hareas⟩
  exact halloced.fresh e he ((hc.live _ he).mpr (.inl ⟨hmem, Set.notMem_empty _⟩))

/-- `Alloc` where no free chunk is found. -/
theorem alloc_area (s : AllocPool) {req : ℕ} (hsearch : s.search (requestToSize req) = none)
    (ptr : Option ℕ) :
    (s.areaSize (requestToSize req) = none ∧ s.alloc ptr req = .error .allocFailed) ∨
      ∃ n, s.areaSize (requestToSize req) = some n ∧ requestToSize req ≤ n ∧
        ((n = requestToSize req ∧ s.alloc ptr req = s.wholeNewArea ptr n) ∨
          (¬ (s.mAreaMoreSize ≠ 0 ∧ s.mAreaMoreSize < requestToSize req) ∧
            s.alloc ptr req = s.splitNewArea ptr n (requestToSize req))) := by
  unfold AllocPool.alloc areaSize
  simp only [hsearch]
  by_cases hmore : s.mAreaMoreSize = 0
  · rw [if_pos hmore, if_pos hmore]
    by_cases hfixed : s.mAreas ≠ [] ∨ s.mAreaInitSize < requestToSize req
    · rw [if_pos hfixed, if_pos hfixed]
      exact .inl ⟨rfl, rfl⟩
    · rw [if_neg hfixed, if_neg hfixed]
      exact .inr ⟨_, rfl, by omega, .inr ⟨fun h => h.1 hmore, rfl⟩⟩
  · rw [if_neg hmore, if_neg hmore]
    by_cases hlarge : s.mAreaMoreSize < requestToSize req
    · rw [if_pos hlarge, if_pos hlarge]
      exact .inr ⟨_, rfl, le_refl _, .inl ⟨rfl, rfl⟩⟩
    · rw [if_neg hlarge, if_neg hlarge]
      exact .inr ⟨_, rfl, by omega, .inr ⟨fun h => hlarge h.2, rfl⟩⟩

/-- `Alloc` with a new area. -/
theorem Rep.allocArea (hr : s.Rep h) {req : ℕ} (hreq : req + 48 ≤ 2 ^ 64)
    (hsearch : s.search (requestToSize req) = none) (hn : s.areaSize (requestToSize req) = some n)
    (hsplits : s.Splits (requestToSize req)) {ptr : ℕ} (hg : s.Grants ptr (n + kAreaOverhead)) :
    ∃ s' q, s.alloc (some ptr) req = .ok (s', q) ∧ (∃ h' c b, Alloced s s' h h' req q c b) ∧
      ∃ a, s'.mAreas = a :: s.mAreas := by
  obtain ⟨hmin, halign, hroom, hmax⟩ := requestToSize_spec hreq
  obtain ⟨heven, hlt, hsplit⟩ := hsplits n hn
  rcases s.alloc_area hsearch (some ptr) with ⟨hnone, -⟩ | ⟨n', hn', hle, halloc⟩
  · rw [hn] at hnone
    cases hnone
  · cases hn.symm.trans hn'
    obtain ⟨hopen, hchanged⟩ := hr.withArea hg (by omega) heven
    have hnewsize : (s.withArea ptr n).size (areaAt ptr n).chunk = n := by
      unfold AllocPool.size mSize
      rw [withArea_mem, if_pos (.inl rfl)]
      omega
    rcases halloc with ⟨rfl, halloc⟩ | ⟨hsmall, halloc⟩
    · have hdef : s.wholeNewArea (some ptr) (requestToSize req) =
          .ok ((s.withArea ptr (requestToSize req)).returnChunk
            (areaAt ptr (requestToSize req)).chunk (requestToSize req)) := by
        unfold wholeNewArea
        rw [newArea_eq]
        simp only [Except.map, hnewsize]
      rw [halloc, hdef]
      exact ⟨_, _, rfl, Alloced.ofArea hchanged rfl (hopen.allocedWhole rfl hreq (le_refl _) rfl)⟩
    · have hdef : s.splitNewArea (some ptr) n (requestToSize req) =
          .ok ((s.withArea ptr n).foundBiggerFit (areaAt ptr n).chunk n (requestToSize req)
            (remainderSize n (requestToSize req))) := by
        unfold splitNewArea
        rw [newArea_eq]
        simp only [Except.map, hnewsize]
      rw [halloc, hdef]
      exact ⟨_, _, rfl, Alloced.ofArea hchanged rfl (hopen.allocedSplit rfl hreq
        (hsplit.resolve_left hsmall) hlt (remainderSize_eq (by omega) hlt) rfl)⟩

/-- `Alloc` returns a block, or fails and leaves the pool as it is. -/
theorem Rep.alloc (hr : s.Rep h) {req : ℕ} (hreq : req + 48 ≤ 2 ^ 64)
    (hcomp : Comparable (freeOf (chunks s.mAreas h)) (requestToSize req)) {ptr : Option ℕ}
    (hsplits : s.search (requestToSize req) = none → s.Splits (requestToSize req))
    (hg : s.search (requestToSize req) = none → ∀ p n, ptr = some p →
      s.areaSize (requestToSize req) = some n → s.Grants p (n + kAreaOverhead)) :
    (∃ e, s.alloc ptr req = .error e) ∨
      ∃ s' q, s.alloc ptr req = .ok (s', q) ∧ (∃ h' c b, Alloced s s' h h' req q c b) ∧
        (s'.mAreas = s.mAreas ∨
          s.areaSize (requestToSize req) ≠ none ∧ ∃ a, s'.mAreas = a :: s.mAreas) := by
  have halign := (requestToSize_spec hreq).2.1
  cases hsearch : s.search (requestToSize req) with
  | none =>
    rcases s.alloc_area hsearch ptr with ⟨-, hfails⟩ | ⟨n, hn, -, halloc⟩
    · exact .inl ⟨_, hfails⟩
    · cases ptr with
      | none =>
        left
        rcases halloc with ⟨-, halloc⟩ | ⟨-, halloc⟩
        · exact ⟨.noNewArea, halloc⟩
        · exact ⟨.noNewArea, halloc⟩
      | some p =>
        obtain ⟨s', q, heq, halloced, hareas⟩ :=
          hr.allocArea hreq hsearch hn (hsplits hsearch) (hg hsearch p n rfl hn)
        exact .inr ⟨s', q, heq, halloced, .inr ⟨by simp [hn], hareas⟩⟩
  | some fit =>
    have hof := search_some hcomp hr.binned halign hsearch
    obtain ⟨s', q, heq, halloced, hareas⟩ := hr.allocFit hreq hof hsearch
    exact .inr ⟨s', q, heq, halloced, .inl hareas⟩

/-! ## The constructor -/

/-- A pool without areas. -/
theorem rep_empty (hareas : s.mAreas = []) (hbins : ∀ i, s.mBins i = [])
    (hbits : ∀ i, s.mBinBlocks i = 0#32) (h : Heap) : s.Rep h := by
  have hchunks : ∀ u, u ∉ chunks s.mAreas h := by
    intro u hu
    obtain ⟨a, ha, -⟩ := hu
    rw [hareas] at ha
    exact absurd ha List.not_mem_nil
  have hfree : ∀ f, f ∉ freeOf (chunks s.mAreas h) := by
    intro f hf
    obtain ⟨b, hb, -⟩ := hf
    exact hchunks _ hb
  have hnone : ∀ a : AllocArea, a ∉ s.mAreas := by
    intro a
    rw [hareas]
    exact List.not_mem_nil
  refine ⟨⟨fun a ha => absurd ha (hnone a), by rw [hareas]; exact List.Pairwise.nil,
    fun a ha => absurd ha (hnone a), fun a ha => absurd ha (hnone a),
    fun a ha => absurd ha (hnone a), fun a ha => absurd ha (hnone a),
    fun a ha => absurd ha (hnone a), fun u hu => absurd hu (hchunks u),
    fun u hu => absurd hu (hchunks u)⟩, fun a ha => absurd ha (hnone a), ?_⟩
  refine ⟨fun i x => ?_, fun i => ?_, fun i hi => ?_, fun x m hx => absurd hx (hfree _),
    fun u hu => absurd hu (hfree u), fun u hu => absurd hu (hfree u)⟩
  · rw [hbins]
    exact iff_of_false List.not_mem_nil fun ⟨m, hm, _⟩ => hfree _ hm
  · rw [hbins]
    exact List.nodup_nil
  · rw [hbins]
    unfold marked
    rw [hbits]
    simp

/-- The pool as it is made: one free chunk for all of the first area. -/
theorem rep_new {self ptr init more : ℕ} {mem : ℕ → ℕ}
    (hinit : init = 0 ∨ 32 ≤ init ∧ init % 2 = 0)
    (hpool : ptr + (init + kAreaOverhead) ≤ self ∨ self + 4096 ≤ ptr)
    (hnew : AllocPool.new self mem (some ptr) init more = .ok s) :
    ∃ h, s.Rep h ∧ (∀ u ∈ chunks s.mAreas h, u.2.live = none) ∧ s.mAreaInitSize = init ∧
      s.mAreaMoreSize = more ∧ ∀ a, a ∈ s.mAreas ↔ init ≠ 0 ∧ a = areaAt ptr init := by
  obtain ⟨s₀, hs₀⟩ : ∃ s₀ : AllocPool,
      s₀ = ⟨self, mem, fun _ => [], fun _ => 0#32, [], init, more⟩ := ⟨_, rfl⟩
  have hempty : s₀.Rep fun _ => [] := by
    rw [hs₀]
    exact rep_empty rfl (fun _ => rfl) (fun _ => rfl) _
  unfold AllocPool.new at hnew
  rw [← hs₀] at hnew
  simp only at hnew
  by_cases hzero : init = 0
  · rw [if_pos hzero] at hnew
    cases hnew
    refine ⟨_, hempty, fun u hu => ?_, by rw [hs₀], by rw [hs₀], fun a => ?_⟩
    · obtain ⟨a, ha, -⟩ := hu
      rw [hs₀] at ha
      exact absurd ha List.not_mem_nil
    · rw [hs₀]
      exact iff_of_false List.not_mem_nil fun h => h.1 hzero
  · rw [if_neg hzero, newArea_eq] at hnew
    cases hnew
    obtain ⟨hmin, heven⟩ := hinit.resolve_left hzero
    have hg : s₀.Grants ptr (init + kAreaOverhead) := by
      rw [hs₀]
      exact ⟨fun b hb => absurd hb List.not_mem_nil, hpool⟩
    obtain ⟨hopen, hchanged⟩ := hempty.withArea hg hmin heven
    obtain ⟨m, hm⟩ : ∃ m : Block, m = ⟨init, none⟩ := ⟨_, rfl⟩
    rw [← hm] at hopen hchanged
    have hlen : total Block.size [m] = init := by simp [hm]
    have hstart : (areaAt ptr init).chunk = (areaAt ptr init).chunk + total Block.size [] := rfl
    have hmem : ((areaAt ptr init).chunk + total Block.size [], m) ∈
        chunks (s₀.withArea ptr init).mAreas
          (Function.update (fun _ => []) (areaAt ptr init).chunk [m]) :=
      (mem_chunks_iff hopen.area hopen.cut).mpr (.inr List.mem_cons_self)
    have htag := hopen.laid.tag _ hmem
    have hmtag : m.tag = init := by rw [hm]; rfl
    have hmsize : m.size = init := by rw [hm]
    simp only [hmtag, hmsize] at htag
    have hsize : (s₀.withArea ptr init).size (areaAt ptr init).chunk = init := by
      unfold AllocPool.size mSize
      rw [hstart, htag.1]
      omega
    obtain ⟨hlinked, hkeep⟩ := hopen.link hsize (le_refl _) (by rw [← hstart, hlen]; omega)
    have hG : freesAt ((areaAt ptr init).chunk + total Block.size []) [m] =
        {((areaAt ptr init).chunk, init)} := by
      rw [freesAt_free _ (by rw [hm]), freesAt_nil, insert_empty_eq, hmsize]
      rfl
    have hW : insert (areaAt ptr init).chunk (insert ((areaAt ptr init).chunk + 8) (∅ : Set ℕ)) ⊆
        holeWords ((areaAt ptr init).chunk + total Block.size []) (total Block.size [m]) := by
      intro w hw
      rcases hw with hw | hw | hw
      · exact .inl hw
      · exact .inr (.inl hw)
      · exact absurd hw (Set.notMem_empty w)
    have hchanged' := hlinked.changed [m] rfl hW
    rw [← hG] at hlinked
    have hclose := hlinked.close (by simp) rfl hopen.ok hW (fun u hu => by
      rw [List.mem_singleton.mp hu]
      simp only [hmtag, hmsize]
      rw [hkeep _ (by rw [← hstart]; omega) (by rw [← hstart]; omega) (by omega)
        (.inl (by rw [hlen]; omega)), hkeep _ (by rw [← hstart]; omega) (by rw [← hstart]; omega)
        (by omega) (.inr (by rw [hlen]))]
      exact htag) (by simp)
    refine ⟨_, hclose, fun u hu => ?_, ?_, ?_, fun a => ?_⟩
    · by_contra hlive
      have hlive' : u.2.live.isSome = true := Option.isSome_iff_ne_none.mpr hlive
      -- nothing was in use before
      rcases (hchanged'.live u hlive').mp hu with ⟨hold, -⟩ | hnewchunk
      · rcases (hchanged.live u hlive').mp hold with ⟨hold, -⟩ | hnone
        · obtain ⟨a, ha, -⟩ := hold
          rw [hs₀] at ha
          exact absurd ha List.not_mem_nil
        · exact Set.notMem_empty u hnone
      · rw [List.mem_singleton.mp hnewchunk, hm] at hlive'
        cases hlive'
    · rw [hlinked.alike.mAreaInitSize, hchanged.mAreaInitSize, hs₀]
    · rw [hlinked.alike.mAreaMoreSize, hchanged.mAreaMoreSize, hs₀]
    · rw [hlinked.alike.mAreas]
      show a ∈ areaAt ptr init :: s₀.mAreas ↔ _
      rw [hs₀]
      simp [hzero]

end PoopWorms.Server.AllocPool
