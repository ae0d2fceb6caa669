import PoopWorms.Server.AllocPoolHeap

/-!
# The pool within an operation

An operation unlinks some neighbouring chunks, writes headers between them and links what is
free. `Opened` is the state in between: the bins hold the free chunks outside of the hole and
those of `G`, and the words of `W` and of links may be others than before. When the headers
of the new chunks are written, `Opened.close` gives a pool of chunks again.
-/

namespace PoopWorms.Server.AllocPool

open Tiling

/-! ## What most steps keep -/

/-- The areas and the parameters are those of another state. -/
structure Alike (s s' : AllocPool) : Prop where
  self : s'.self = s.self
  mAreas : s'.mAreas = s.mAreas
  mAreaInitSize : s'.mAreaInitSize = s.mAreaInitSize
  mAreaMoreSize : s'.mAreaMoreSize = s.mAreaMoreSize

variable {s s' s'' s₀ : AllocPool} {h : Heap} {a : AllocArea} {u v : ℕ × Block}
  {pre mid post mid' : List Block} {W : Set ℕ} {G : Set (ℕ × ℕ)} {c n w : ℕ}

theorem Alike.refl (s : AllocPool) : Alike s s := ⟨rfl, rfl, rfl, rfl⟩

theorem Alike.trans (h : Alike s s') (h' : Alike s' s'') : Alike s s'' :=
  ⟨h'.self.trans h.self, h'.mAreas.trans h.mAreas, h'.mAreaInitSize.trans h.mAreaInitSize,
    h'.mAreaMoreSize.trans h.mAreaMoreSize⟩

theorem alike_store (s : AllocPool) (w v : ℕ) : Alike s (s.store w v) := ⟨rfl, rfl, rfl, rfl⟩

theorem alike_linkFree (s : AllocPool) (c : ℕ) : Alike s (s.linkFree c) := by
  unfold linkFree
  by_cases hfirst : binIndex (s.size c) < kNumSmallBins ∨ s.mBins (binIndex (s.size c)) = []
  · rw [if_pos hfirst]
    exact ⟨rfl, rfl, rfl, rfl⟩
  · rw [if_neg hfirst]
    exact ⟨rfl, rfl, rfl, rfl⟩

theorem alike_unlinkAt (s : AllocPool) (i : ℕ) (front back : List ℕ) :
    Alike s (s.unlinkAt i front back) := by
  unfold unlinkAt
  by_cases hempty : front ++ back = []
  · rw [if_pos hempty]
    exact ⟨rfl, rfl, rfl, rfl⟩
  · rw [if_neg hempty]
    exact ⟨rfl, rfl, rfl, rfl⟩

theorem alike_unlinkFree (s : AllocPool) (c : ℕ) : Alike s (s.unlinkFree c) :=
  alike_unlinkAt s _ _ _

theorem Binned.store {F : Set (ℕ × ℕ)} (h : s.Binned F) (hw : ∀ u ∈ F, u.1 + 24 ≠ w) (v : ℕ) :
    (s.store w v).Binned F := by
  refine ⟨h.bin, h.nodup, h.bits, fun x m hx => ?_, h.spaced⟩
  rw [← h.size x m hx]
  unfold AllocPool.size mSize AllocPool.store
  simp only [Function.update_of_ne (hw _ hx)]

/-! ## Tags -/

theorem Block.Ok.tag_size {b : Block} (hok : b.Ok) : b.tag / 2 * 2 = b.size := by
  have := hok.even
  unfold Block.tag
  by_cases hlive : b.live.isSome = true
  · rw [if_pos hlive]
    omega
  · rw [if_neg hlive]
    omega

theorem Block.Ok.tag_live {b : Block} (hok : b.Ok) : b.tag % 2 = 1 ↔ b.live.isSome = true := by
  have := hok.even
  unfold Block.tag
  by_cases hlive : b.live.isSome = true
  · rw [if_pos hlive]
    exact iff_of_true (by omega) hlive
  · rw [if_neg hlive]
    exact iff_of_false (by omega) hlive

/-- The word at the ends of an area is not that of a chunk. -/
theorem Block.Ok.tag_ne {b : Block} (hok : b.Ok) : b.tag ≠ 1 := by
  have := hok.min
  unfold Block.tag
  by_cases hlive : b.live.isSome = true
  · rw [if_pos hlive]
    omega
  · rw [if_neg hlive]
    omega

/-- The word in front of a chunk. -/
theorem Laid.prev_cases (hl : s.Laid h) (ha : a ∈ s.mAreas) (hcut : h a.chunk = pre ++ post) :
    (pre = [] ∧ s.mPrevSize (a.chunk + total Block.size pre) = 1) ∨
      ∃ pre₁ p, pre = pre₁ ++ [p] ∧
        (a.chunk + total Block.size pre₁, p) ∈ chunks s.mAreas h ∧
        s.mPrevSize (a.chunk + total Block.size pre) = p.tag := by
  by_cases hempty : pre = []
  · rw [hempty, total_nil]
    exact .inl ⟨rfl, hl.first a ha⟩
  · right
    obtain ⟨pre₁, p, rfl⟩ : ∃ pre₁ p, pre = pre₁ ++ [p] :=
      ⟨_, _, (List.dropLast_append_getLast hempty).symm⟩
    have hp : (a.chunk + total Block.size pre₁, p) ∈ chunks s.mAreas h :=
      ⟨a, ha, by rw [hcut]; simp⟩
    refine ⟨pre₁, p, rfl, hp, ?_⟩
    rw [total_append, total_cons, total_nil, ← Nat.add_assoc]
    exact (hl.tag _ hp).2

/-- The word behind a chunk. -/
theorem Laid.next_cases (hl : s.Laid h) (ha : a ∈ s.mAreas) (hcut : h a.chunk = pre ++ post) :
    (post = [] ∧ s.mSize (a.chunk + total Block.size pre) = 1) ∨
      ∃ q post₁, post = q :: post₁ ∧
        (a.chunk + total Block.size pre, q) ∈ chunks s.mAreas h ∧
        s.mSize (a.chunk + total Block.size pre) = q.tag := by
  cases post with
  | nil =>
    have hsum := hl.filled a ha
    rw [hcut, List.append_nil] at hsum
    rw [hsum]
    exact .inl ⟨rfl, hl.last a ha⟩
  | cons q post₁ =>
    have hq : (a.chunk + total Block.size pre, q) ∈ chunks s.mAreas h :=
      ⟨a, ha, by rw [hcut]; simp⟩
    exact .inr ⟨q, post₁, rfl, hq, (hl.tag _ hq).1⟩

/-! ## Free chunks of a list -/

/-- The free chunks among some that lie from `c` on. -/
def freesAt (c : ℕ) (bs : List Block) : Set (ℕ × ℕ) := freeOf {u | u ∈ starts Block.size c bs}

theorem freesAt_nil (c : ℕ) : freesAt c [] = ∅ := by
  ext f
  simp [freesAt, freeOf]

theorem freesAt_cons (c : ℕ) (b : Block) (bs : List Block) :
    freesAt c (b :: bs) =
      {f | b.live = none ∧ f = (c, b.size)} ∪ freesAt (c + b.size) bs := by
  ext f
  constructor
  · intro hf
    obtain ⟨b', hmem, hlive, hsize⟩ := hf
    rcases List.mem_cons.mp hmem with heq | htail
    · obtain ⟨hc, rfl⟩ := Prod.mk.inj heq
      exact .inl ⟨hlive, Prod.ext hc hsize.symm⟩
    · exact .inr ⟨b', htail, hlive, hsize⟩
  · intro hf
    rcases hf with ⟨hlive, rfl⟩ | ⟨b', hmem, hlive, hsize⟩
    · exact ⟨b, List.mem_cons_self, hlive, rfl⟩
    · exact ⟨b', List.mem_cons_of_mem _ hmem, hlive, hsize⟩

theorem freesAt_live (c : ℕ) {b : Block} (hlive : b.live.isSome = true) (bs : List Block) :
    freesAt c (b :: bs) = freesAt (c + b.size) bs := by
  have hnone : b.live ≠ none := Option.isSome_iff_ne_none.mp hlive
  rw [freesAt_cons]
  ext f
  simp [hnone]

theorem freesAt_free (c : ℕ) {b : Block} (hfree : b.live = none) (bs : List Block) :
    freesAt c (b :: bs) = insert (c, b.size) (freesAt (c + b.size) bs) := by
  rw [freesAt_cons]
  ext f
  simp [hfree]

/-- The free chunks lie from `c` on. -/
theorem le_of_mem_freesAt {bs : List Block} {f : ℕ × ℕ} (hf : f ∈ freesAt c bs) :
    c ≤ f.1 ∧ f.1 + f.2 ≤ c + total Block.size bs := by
  obtain ⟨b, hmem, -, hsize⟩ := hf
  rw [← hsize]
  exact range_of_mem_starts hmem

theorem freeOf_union (C D : Set (ℕ × Block)) : freeOf (C ∪ D) = freeOf C ∪ freeOf D := by
  ext f
  constructor
  · intro hf
    obtain ⟨b, hmem | hmem, hb⟩ := hf
    · exact .inl ⟨b, hmem, hb⟩
    · exact .inr ⟨b, hmem, hb⟩
  · intro hf
    rcases hf with ⟨b, hmem, hb⟩ | ⟨b, hmem, hb⟩
    · exact ⟨b, .inl hmem, hb⟩
    · exact ⟨b, .inr hmem, hb⟩

/-! ## The state in between -/

structure Opened (s₀ : AllocPool) (h : Heap) (a : AllocArea) (pre mid post : List Block)
    (W : Set ℕ) (G : Set (ℕ × ℕ)) (s : AllocPool) : Prop where
  laid : s₀.Laid h
  coalesced : Coalesced s₀.mAreas h
  area : a ∈ s₀.mAreas
  cut : h a.chunk = pre ++ mid ++ post
  nonempty : mid ≠ []
  alike : Alike s₀ s
  binned : s.Binned (freeOf (outside s₀.mAreas h a pre (total Block.size mid) post) ∪ G)
  mem : ∀ w, ¬ LinkWord s₀.self (headersOf (chunks s₀.mAreas h)) w → w ∉ W → s.mem w = s₀.mem w

theorem Rep.opened (hr : s.Rep h) (ha : a ∈ s.mAreas) (hcut : h a.chunk = pre ++ mid ++ post)
    (hne : mid ≠ []) :
    Opened s h a pre mid post ∅ (freesAt (a.chunk + total Block.size pre) mid) s where
  laid := hr.laid
  coalesced := hr.coalesced
  area := ha
  cut := hcut
  nonempty := hne
  alike := Alike.refl s
  binned := by
    have hset : chunks s.mAreas h = outside s.mAreas h a pre (total Block.size mid) post ∪
        {u | u ∈ starts Block.size (a.chunk + total Block.size pre) mid} := by
      ext u
      exact mem_chunks_iff ha hcut
    have := hr.binned
    rw [hset, freeOf_union] at this
    exact this
  mem := fun _ _ _ => rfl

/-- The chunks outside of the hole and the hole itself. -/
theorem Opened.outside_gap (ho : Opened s₀ h a pre mid post W G s)
    (hu : u ∈ outside s₀.mAreas h a pre (total Block.size mid) post) :
    u ∈ chunks s₀.mAreas h ∧
      (u.1 + u.2.size ≤ a.chunk + total Block.size pre ∨
        u.1 = a.chunk + total Block.size pre + total Block.size mid ∨
        a.chunk + total Block.size pre + total Block.size mid + 32 ≤ u.1) := by
  have hmem : u ∈ chunks s₀.mAreas h := (mem_chunks_iff ho.area ho.cut).mpr (.inl hu)
  refine ⟨hmem, ?_⟩
  rcases ho.laid.outside_range ho.area ho.cut hu with hbefore | hafter
  · exact .inl hbefore
  · right
    -- the last chunk of the hole leaves room for a header behind it
    obtain ⟨y, b, hlast, hend⟩ := exists_last Block.size
      (a.chunk + total Block.size pre) ho.nonempty
    have hlast : (y, b) ∈ chunks s₀.mAreas h := (mem_chunks_iff ho.area ho.cut).mpr (.inr hlast)
    have hmin := (ho.laid.block _ hlast).min
    rcases ho.laid.gap hlast hmem with rfl | hgap | hgap | hgap
    · simp only at hafter hmin
      omega
    · simp only at hgap hmin
      omega
    · simp only at hgap
      omega
    · simp only at hgap
      omega

/-- The same for the free ones. -/
theorem Opened.free_gap (ho : Opened s₀ h a pre mid post W G s) {f : ℕ × ℕ}
    (hf : f ∈ freeOf (outside s₀.mAreas h a pre (total Block.size mid) post)) :
    f ∈ headersOf (chunks s₀.mAreas h) ∧
      (f.1 + 32 ≤ a.chunk + total Block.size pre ∨
        f.1 = a.chunk + total Block.size pre + total Block.size mid ∨
        a.chunk + total Block.size pre + total Block.size mid + 32 ≤ f.1) := by
  obtain ⟨b, hmem, -, hsize⟩ := hf
  obtain ⟨hchunk, hgap⟩ := ho.outside_gap hmem
  have hmin := (ho.laid.block _ hchunk).min
  simp only at hgap hmin
  exact ⟨⟨b, hchunk, hsize⟩, by omega⟩

/-- The place of the hole. -/
theorem Opened.place (ho : Opened s₀ h a pre mid post W G s) :
    a.chunk + total Block.size pre + total Block.size mid ≤ a.chunk + a.mSize ∧
      32 ≤ total Block.size mid := by
  have hsum := ho.laid.filled a ho.area
  rw [ho.cut, total_append, total_append] at hsum
  obtain ⟨y, b, hlast, hend⟩ := exists_last Block.size
    (a.chunk + total Block.size pre) ho.nonempty
  have hmin := (ho.laid.block _ ((mem_chunks_iff ho.area ho.cut).mpr (.inr hlast))).min
  have hrange := range_of_mem_starts hlast
  simp only at hmin
  omega

theorem Opened.ok (ho : Opened s₀ h a pre mid post W G s) : ∀ b ∈ mid, b.Ok := by
  intro b hb
  apply ho.laid.ok_of_area ho.area
  rw [ho.cut]
  simp [hb]

theorem even_total {bs : List Block} (hok : ∀ b ∈ bs, b.Ok) : total Block.size bs % 2 = 0 := by
  induction bs with
  | nil => rfl
  | cons b bs ih =>
    have hfirst := (hok b List.mem_cons_self).even
    have hrest := ih fun c hc => hok c (List.mem_cons_of_mem _ hc)
    rw [total_cons]
    omega

/-- A chunk of the hole is unlinked. -/
theorem Opened.unlink (ho : Opened s₀ h a pre mid post W G s)
    (hG : G ⊆ freesAt (a.chunk + total Block.size pre) mid) (hc : (c, n) ∈ G) :
    Opened s₀ h a pre mid post W (G \ {(c, n)}) (s.unlinkFree c) := by
  obtain ⟨hbinned, hmem⟩ := ho.binned.unlinkFree (.inr hc)
  refine { ho with alike := ho.alike.trans (alike_unlinkFree s c), binned := ?_, mem := ?_ }
  · have hout : (c, n) ∉ freeOf (outside s₀.mAreas h a pre (total Block.size mid) post) := by
      intro hf
      obtain ⟨b, hb, -, hsize⟩ := hG hc
      have hmin := (ho.laid.block _ ((mem_chunks_iff ho.area ho.cut).mpr (.inr hb))).min
      have hrange := range_of_mem_starts hb
      have hgap := (ho.free_gap hf).2
      simp only at hgap hmin hrange
      omega
    rw [Set.union_sdiff_distrib, Set.sdiff_singleton_eq_self hout] at hbinned
    exact hbinned
  · intro w hlink hw
    rw [hmem w, ho.mem w hlink hw]
    intro hlink'
    rw [ho.alike.self] at hlink'
    refine hlink (hlink'.mono ?_)
    intro f hf
    rcases hf with hf | hf
    · exact (ho.free_gap hf).1
    · obtain ⟨b, hb, -, hsize⟩ := hG hf
      exact ⟨b, (mem_chunks_iff ho.area ho.cut).mpr (.inr hb), hsize⟩

/-- A word in the hole that is not the size of a linked chunk is written. -/
theorem Opened.store (ho : Opened s₀ h a pre mid post W G s)
    (hle : a.chunk + total Block.size pre ≤ w)
    (hlt : w < a.chunk + total Block.size pre + total Block.size mid + 24)
    (hG : ∀ f ∈ G, f.1 + 24 ≠ w) (v : ℕ) :
    Opened s₀ h a pre mid post (insert w W) G (s.store w v) := by
  refine { ho with alike := ho.alike.trans (alike_store s w v), binned := ?_, mem := ?_ }
  · apply ho.binned.store
    intro f hf
    rcases hf with hf | hf
    · have := (ho.free_gap hf).2
      omega
    · exact hG f hf
  · intro w' hlink hw
    rw [Set.mem_insert_iff, not_or] at hw
    rw [← ho.mem w' hlink hw.2]
    exact Function.update_of_ne hw.1 _ _

/-- Both ends of a chunk in the hole are written. -/
theorem Opened.setSize (ho : Opened s₀ h a pre mid post W G s)
    (hle : a.chunk + total Block.size pre ≤ c) (hn : 0 < n)
    (hlt : c + n ≤ a.chunk + total Block.size pre + total Block.size mid)
    (hG : ∀ f ∈ G, f.1 + 24 ≠ c + n + 16 ∧ f.1 ≠ c) (v : ℕ) :
    Opened s₀ h a pre mid post (insert (c + 24) (insert (c + n + 16) W)) G (s.setSize c n v) := by
  have hback := ho.store (w := c + n + 16) (by omega) (by omega) (fun f hf => (hG f hf).1) v
  exact hback.store (w := c + 24) (by omega) (by omega)
    (fun f hf => by have := (hG f hf).2; omega) v

theorem setSize_mem (s : AllocPool) (c n v w : ℕ) :
    (s.setSize c n v).mem w = if w = c + 24 ∨ w = c + n + 16 then v else s.mem w := by
  unfold AllocPool.setSize AllocPool.store
  simp only [Function.update_apply]
  by_cases hfront : w = c + 24
  · simp [hfront]
  · by_cases hback : w = c + n + 16
    · simp [hback]
    · simp [hfront, hback]

/-- A chunk in the hole is linked. -/
theorem Opened.link (ho : Opened s₀ h a pre mid post W ∅ s) (hsize : s.size c = n)
    (hle : a.chunk + total Block.size pre ≤ c)
    (hlt : c + 32 ≤ a.chunk + total Block.size pre + total Block.size mid) :
    Opened s₀ h a pre mid post (insert c (insert (c + 8) W)) {(c, n)} (s.linkFree c) ∧
      ∀ w, w ≠ c → w ≠ c + 8 → a.chunk + total Block.size pre ≤ w →
        w < a.chunk + total Block.size pre + total Block.size mid ∨
          w = a.chunk + total Block.size pre + total Block.size mid + 16 →
        (s.linkFree c).mem w = s.mem w := by
  have hbinned := ho.binned
  rw [Set.union_empty] at hbinned
  have hplace := ho.place
  have hgeometry := ho.laid.geometry ho.area
  have hclear : Clear s.self
      (freeOf (outside s₀.mAreas h a pre (total Block.size mid) post)) c := by
    constructor
    · intro f hf
      have := (ho.free_gap hf).2
      omega
    · rw [ho.alike.self]
      have := ho.laid.pool a ho.area
      omega
  obtain ⟨hlinked, hmem⟩ := hbinned.linkFree hsize hclear
  refine ⟨{ ho with alike := ho.alike.trans (alike_linkFree s c), binned := ?_, mem := ?_ }, ?_⟩
  · rw [Set.union_singleton]
    exact hlinked
  · intro w hlink hw
    rw [Set.mem_insert_iff, Set.mem_insert_iff, not_or, not_or] at hw
    rw [hmem w, ho.mem w hlink hw.2.2]
    intro hlink'
    rw [ho.alike.self] at hlink'
    rcases hlink' with ⟨f, heq | hf, hwf⟩ | hpool
    · rw [heq] at hwf
      rcases hwf with hwc | hwc
      · exact hw.1 hwc
      · exact hw.2.1 hwc
    · exact hlink (.inl ⟨f, (ho.free_gap hf).1, hwf⟩)
    · exact hlink (.inr hpool)
  · intro w hne hne' hge hin
    apply hmem
    intro hlink
    rw [ho.alike.self] at hlink
    rcases hlink with ⟨f, heq | hf, hwf⟩ | hpool
    · rw [heq] at hwf
      rcases hwf with hwc | hwc
      · exact hne hwc
      · exact hne' hwc
    · have := (ho.free_gap hf).2
      omega
    · have := ho.laid.pool a ho.area
      omega

/-! ## The new chunks -/

/-- The words of a hole that are written: links of its first chunk, and what lies between the
size of that chunk and the header behind the hole. -/
def holeWords (start len : ℕ) : Set ℕ :=
  {w | w = start ∨ w = start + 8 ∨ (start + 24 ≤ w ∧ w < start + len) ∨ w = start + len + 16}

/-- What an operation does to the chunks in use: those of `old` go, those of `new` come, and
the payloads of the others stay. -/
structure Changed (s s' : AllocPool) (h h' : Heap) (old new : Set (ℕ × Block)) : Prop where
  self : s'.self = s.self
  mAreaInitSize : s'.mAreaInitSize = s.mAreaInitSize
  mAreaMoreSize : s'.mAreaMoreSize = s.mAreaMoreSize
  live : ∀ u, u.2.live.isSome = true →
    (u ∈ chunks s'.mAreas h' ↔ u ∈ chunks s.mAreas h ∧ u ∉ old ∨ u ∈ new)
  payload : ∀ u ∈ chunks s.mAreas h, u.2.live.isSome = true → u ∉ old →
    ∀ w, u.1 + 32 ≤ w → w < u.1 + u.2.size → s'.mem w = s.mem w

theorem Opened.first_header (ho : Opened s₀ h a pre mid post W G s) :
    ∃ m, (a.chunk + total Block.size pre, m) ∈ headersOf (chunks s₀.mAreas h) := by
  obtain ⟨b, bs, rfl⟩ := List.exists_cons_of_ne_nil ho.nonempty
  exact ⟨b.size, b, (mem_chunks_iff ho.area ho.cut).mpr (.inr List.mem_cons_self), rfl⟩

/-- Headers between the new chunks describe them. -/
theorem Opened.relaid (ho : Opened s₀ h a pre mid post W G s) (mid' : List Block) (hne : mid' ≠ [])
    (htotal : total Block.size mid' = total Block.size mid) (hok : ∀ b ∈ mid', b.Ok)
    (hW : W ⊆ holeWords (a.chunk + total Block.size pre) (total Block.size mid))
    (htag : ∀ u ∈ starts Block.size (a.chunk + total Block.size pre) mid',
      s.mem (u.1 + 24) = u.2.tag ∧ s.mem (u.1 + u.2.size + 16) = u.2.tag) :
    s.Laid (Function.update h a.chunk (pre ++ mid' ++ post)) := by
  refine ho.laid.retile ho.area ho.cut hne htotal hok ho.alike.mAreas ho.alike.self ?_ htag
  intro w hlink hw
  apply ho.mem w hlink
  intro hmem
  have hplace := ho.place
  obtain ⟨m, hfirst⟩ := ho.first_header
  rcases hW hmem with heq | heq | hin | heq
  · exact hlink (.inl ⟨_, hfirst, .inl heq⟩)
  · exact hlink (.inl ⟨_, hfirst, .inr heq⟩)
  · omega
  · omega

theorem Opened.mem_chunks (ho : Opened s₀ h a pre mid post W G s)
    (htotal : total Block.size mid' = total Block.size mid) :
    u ∈ chunks s.mAreas (Function.update h a.chunk (pre ++ mid' ++ post)) ↔
      u ∈ outside s₀.mAreas h a pre (total Block.size mid) post ∨
        u ∈ starts Block.size (a.chunk + total Block.size pre) mid' := by
  rw [ho.alike.mAreas]
  exact ho.laid.mem_chunks_update ho.area htotal

theorem Opened.coalesced_update (ho : Opened s₀ h a pre mid post W G s) {bs : List Block}
    (hchain : bs.IsChain fun b c => b.live.isSome ∨ c.live.isSome) :
    Coalesced s₀.mAreas (Function.update h a.chunk bs) := by
  intro b hb
  by_cases hba : b = a
  · rw [hba, Function.update_self]
    exact hchain
  · rw [Function.update_of_ne (ho.laid.chunk_ne ho.area hb hba)]
    exact ho.coalesced b hb

/-- With the free ones linked they are the chunks of the pool. -/
theorem Opened.close (ho : Opened s₀ h a pre mid post W
      (freesAt (a.chunk + total Block.size pre) mid') s) (hne : mid' ≠ [])
    (htotal : total Block.size mid' = total Block.size mid) (hok : ∀ b ∈ mid', b.Ok)
    (hW : W ⊆ holeWords (a.chunk + total Block.size pre) (total Block.size mid))
    (htag : ∀ u ∈ starts Block.size (a.chunk + total Block.size pre) mid',
      s.mem (u.1 + 24) = u.2.tag ∧ s.mem (u.1 + u.2.size + 16) = u.2.tag)
    (hchain : (pre ++ mid' ++ post).IsChain fun b c => b.live.isSome ∨ c.live.isSome) :
    s.Rep (Function.update h a.chunk (pre ++ mid' ++ post)) where
  laid := ho.relaid mid' hne htotal hok hW htag
  coalesced := by
    rw [ho.alike.mAreas]
    exact ho.coalesced_update hchain
  binned := by
    have hset : chunks s.mAreas (Function.update h a.chunk (pre ++ mid' ++ post)) =
        outside s₀.mAreas h a pre (total Block.size mid) post ∪
          {u | u ∈ starts Block.size (a.chunk + total Block.size pre) mid'} := by
      ext u
      exact ho.mem_chunks htotal
    rw [hset, freeOf_union]
    exact ho.binned

/-- The payload of a chunk outside of the hole. -/
theorem Opened.payload (ho : Opened s₀ h a pre mid post W G s)
    (hW : W ⊆ holeWords (a.chunk + total Block.size pre) (total Block.size mid))
    (hu : u ∈ outside s₀.mAreas h a pre (total Block.size mid) post)
    (hle : u.1 + 32 ≤ w) (hlt : w < u.1 + u.2.size) : s.mem w = s₀.mem w := by
  obtain ⟨hchunk, hgap⟩ := ho.outside_gap hu
  apply ho.mem
  · exact ho.laid.not_linkWord hchunk (by omega) (.inl hlt) (by omega)
  · intro hmem
    have hplace := ho.place
    rcases hW hmem with heq | heq | hin | heq
    all_goals omega

theorem Opened.changed (ho : Opened s₀ h a pre mid post W G s) (mid' : List Block)
    (htotal : total Block.size mid' = total Block.size mid)
    (hW : W ⊆ holeWords (a.chunk + total Block.size pre) (total Block.size mid)) :
    Changed s₀ s h (Function.update h a.chunk (pre ++ mid' ++ post))
      {u | u ∈ starts Block.size (a.chunk + total Block.size pre) mid}
      {u | u ∈ starts Block.size (a.chunk + total Block.size pre) mid'} where
  self := ho.alike.self
  mAreaInitSize := ho.alike.mAreaInitSize
  mAreaMoreSize := ho.alike.mAreaMoreSize
  live := by
    intro u _
    rw [ho.mem_chunks htotal, mem_chunks_iff ho.area ho.cut]
    constructor
    · intro hu
      rcases hu with hout | hin
      · refine .inl ⟨.inl hout, fun hmid => ?_⟩
        obtain ⟨hchunk, hgap⟩ := ho.outside_gap hout
        have hmin := (ho.laid.block _ hchunk).min
        have hrange := range_of_mem_starts hmid
        omega
      · exact .inr hin
    · intro hu
      rcases hu with ⟨hout | hmid, hnot⟩ | hin
      · exact .inl hout
      · exact absurd hmid hnot
      · exact .inr hin
  payload := by
    intro u hu _ hnot w hle hlt
    rcases (mem_chunks_iff ho.area ho.cut).mp hu with hout | hmid
    · exact ho.payload hW hout hle hlt
    · exact absurd hmid hnot

/-- Only the chunks in use count. -/
theorem Changed.congr {h' : Heap} {old new old' new' : Set (ℕ × Block)}
    (hc : Changed s s' h h' old new) (hold : ∀ u, u.2.live.isSome = true → (u ∈ old ↔ u ∈ old'))
    (hnew : ∀ u, u.2.live.isSome = true → (u ∈ new ↔ u ∈ new')) :
    Changed s s' h h' old' new' :=
  { hc with
    live := fun u hu => by rw [hc.live u hu, hold u hu, hnew u hu]
    payload := fun u hu hlive hnot => hc.payload u hu hlive fun h => hnot ((hold u hlive).mp h) }

end PoopWorms.Server.AllocPool
