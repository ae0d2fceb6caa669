import PoopWorms.Server.AllocPoolAlloc

/-!
# `Realloc` on the chunks

`Realloc` makes one chunk of a chunk in use and free neighbours, gives back what it does not
need, and moves the payload if the chunk begins further in front. Otherwise it takes another
chunk and copies the payload.
-/

namespace PoopWorms.Server.AllocPool

open Tiling

variable {s s' s₀ s₁ : AllocPool} {h h' : Heap} {a : AllocArea} {pre mid post : List Block}
  {b : Block} {W : Set ℕ} {G : Set (ℕ × ℕ)} {c n r size : ℕ} {u : ℕ × Block}

/-! ## Writing to payloads -/

/-- The words that describe the chunks are not those of a payload. -/
theorem Rep.congr_mem (hr : s.Rep h) {mem : ℕ → ℕ}
    (hfirst : ∀ a ∈ s.mAreas, mem (a.chunk + 16) = s.mem (a.chunk + 16))
    (hlast : ∀ a ∈ s.mAreas, mem (a.chunk + a.mSize + 24) = s.mem (a.chunk + a.mSize + 24))
    (htag : ∀ u ∈ chunks s.mAreas h, mem (u.1 + 24) = s.mem (u.1 + 24) ∧
      mem (u.1 + u.2.size + 16) = s.mem (u.1 + u.2.size + 16)) :
    Rep { s with mem := mem } h where
  laid :=
    { hr.laid with
      first := fun a ha => (hfirst a ha).trans (hr.laid.first a ha)
      last := fun a ha => (hlast a ha).trans (hr.laid.last a ha)
      tag := fun u hu => ⟨(htag u hu).1.trans (hr.laid.tag u hu).1,
        (htag u hu).2.trans (hr.laid.tag u hu).2⟩ }
  coalesced := hr.coalesced
  binned := by
    refine ⟨hr.binned.bin, hr.binned.nodup, hr.binned.bits, fun x k hx => ?_, hr.binned.spaced⟩
    rw [← hr.binned.size x k hx]
    obtain ⟨b, hb, -⟩ := hx
    have hword : mem (x + 24) = s.mem (x + 24) := (htag _ hb).1
    show mem (x + 24) / 2 * 2 = s.mem (x + 24) / 2 * 2
    rw [hword]

/-- Words of the payload of one chunk are written. -/
theorem Rep.writePayload (hr : s.Rep h) (hu : u ∈ chunks s.mAreas h) {mem : ℕ → ℕ}
    (hmem : ∀ w, w < u.1 + 32 ∨ u.1 + u.2.size ≤ w → mem w = s.mem w) :
    Rep { s with mem := mem } h := by
  have hmin := (hr.laid.block u hu).min
  apply hr.congr_mem
  · intro b hb
    obtain ⟨a, ha, hu⟩ := hu
    have hrange := hr.laid.range ha hu
    have hgeometry := hr.laid.geometry ha
    have hgeometry' := hr.laid.geometry hb
    apply hmem
    rcases hr.laid.areas_apart ha hb with rfl | hapart <;> omega
  · intro b hb
    obtain ⟨a, ha, hu⟩ := hu
    have hrange := hr.laid.range ha hu
    have hgeometry := hr.laid.geometry ha
    have hgeometry' := hr.laid.geometry hb
    apply hmem
    rcases hr.laid.areas_apart ha hb with rfl | hapart <;> omega
  · intro v hv
    have hmin' := (hr.laid.block v hv).min
    rcases hr.laid.gap hv hu with rfl | hgap | hgap | hgap
    · exact ⟨hmem _ (by omega), hmem _ (by omega)⟩
    · exact ⟨hmem _ (by omega), hmem _ (by omega)⟩
    · exact ⟨hmem _ (by omega), hmem _ (by omega)⟩
    · exact ⟨hmem _ (by omega), hmem _ (by omega)⟩

/-- The payloads of two chunks in use are apart. -/
theorem Laid.payload_apart (hl : s.Laid h) (hu : u ∈ chunks s.mAreas h) {v : ℕ × Block}
    (hv : v ∈ chunks s.mAreas h) (hne : u ≠ v) :
    u.1 + u.2.size ≤ v.1 ∨ v.1 + v.2.size ≤ u.1 := by
  rcases hl.gap hu hv with heq | hgap
  · exact absurd heq hne
  · omega

/-! ## `split` -/

/-- The hole becomes two chunks in use, of which the second one is to be freed. -/
theorem Opened.useSplit {k : ℕ} (ho : Opened s₀ h a pre mid post ∅ ∅ s)
    (hsum : total Block.size mid = size + k) (hsize : 32 ≤ size) (hk : 32 ≤ k)
    (heven : size % 2 = 0) (hroom : r + 32 ≤ size) :
    let s' := (s.setSizeInUse (a.chunk + total Block.size pre + size) k).setSizeInUse
      (a.chunk + total Block.size pre) size
    let h' := Function.update h a.chunk (pre ++ [⟨size, some r⟩, ⟨k, some 0⟩] ++ post)
    s'.Rep h' ∧
      Changed s₀ s' h h' {u | u ∈ starts Block.size (a.chunk + total Block.size pre) mid}
        {(a.chunk + total Block.size pre, ⟨size, some r⟩),
          (a.chunk + total Block.size pre + size, ⟨k, some 0⟩)} ∧
      s'.mAreas = s₀.mAreas := by
  have hsumeven := even_total ho.ok
  intro s' h'
  obtain ⟨b, hb⟩ : ∃ b : Block, b = ⟨size, some r⟩ := ⟨_, rfl⟩
  obtain ⟨d, hd⟩ : ∃ d : Block, d = ⟨k, some 0⟩ := ⟨_, rfl⟩
  have htotal : total Block.size [b, d] = total Block.size mid := by simp [hb, hd, hsum]
  have hopen₁ := ho.setSize (c := a.chunk + total Block.size pre + size) (n := k) (by omega)
    (by omega) (by omega) (fun f hf => absurd hf (Set.notMem_empty f)) (k ||| kChunkInUse)
  have hopen₂ := hopen₁.setSize (c := a.chunk + total Block.size pre) (n := size) (le_refl _)
    (by omega) (by omega) (fun f hf => absurd hf (Set.notMem_empty f)) (size ||| kChunkInUse)
  have hG : freesAt (a.chunk + total Block.size pre) [b, d] = ∅ := by
    rw [freesAt_live _ (by simp [hb]), freesAt_live _ (by simp [hd]), freesAt_nil]
  have hW : insert (a.chunk + total Block.size pre + 24)
      (insert (a.chunk + total Block.size pre + size + 16)
        (insert (a.chunk + total Block.size pre + size + 24)
          (insert (a.chunk + total Block.size pre + size + k + 16) (∅ : Set ℕ)))) ⊆
      holeWords (a.chunk + total Block.size pre) (total Block.size mid) := by
    intro w hw
    rcases hw with hw | hw | hw | hw | hw
    · exact .inr (.inr (.inl (by omega)))
    · exact .inr (.inr (.inl (by omega)))
    · exact .inr (.inr (.inl (by omega)))
    · exact .inr (.inr (.inr (by omega)))
    · exact absurd hw (Set.notMem_empty w)
  have hmem : ∀ w, s'.mem w = if w = a.chunk + total Block.size pre + 24 ∨
      w = a.chunk + total Block.size pre + size + 16 then size + 1
      else if w = a.chunk + total Block.size pre + size + 24 ∨
        w = a.chunk + total Block.size pre + size + k + 16 then k + 1 else s.mem w := by
    intro w
    show ((s.setSizeInUse _ _).setSizeInUse _ _).mem w = _
    unfold setSizeInUse
    rw [setSize_mem, setSize_mem, or_one heven, or_one (by omega)]
  have htag : ∀ u ∈ starts Block.size (a.chunk + total Block.size pre) [b, d],
      s'.mem (u.1 + 24) = u.2.tag ∧ s'.mem (u.1 + u.2.size + 16) = u.2.tag := by
    intro u hu
    rcases List.mem_cons.mp hu with heq | hu
    · rw [heq, hb]
      show s'.mem _ = size + 1 ∧ s'.mem _ = size + 1
      rw [hmem, if_pos (.inl rfl), hmem, if_pos (.inr rfl)]
      exact ⟨rfl, rfl⟩
    · rw [List.mem_singleton.mp hu, hb, hd]
      show s'.mem _ = k + 1 ∧ s'.mem _ = k + 1
      simp only
      rw [hmem, if_neg (by omega), if_pos (.inl rfl), hmem, if_neg (by omega), if_pos (.inr rfl)]
      exact ⟨rfl, rfl⟩
  have hnewok : ∀ e ∈ [b, d], e.Ok := by
    intro e he
    rcases List.mem_cons.mp he with heq | he
    · rw [heq, hb]
      exact ⟨hsize, heven, fun r' hr' => by cases hr'; exact hroom⟩
    · rw [List.mem_singleton.mp he, hd]
      exact ⟨hk, by simp only; omega, fun r' hr' => by cases hr'; simpa using hk⟩
  have hchain := isChain_replace [b, d] ho.coalesced ho.area ho.cut
    (by simp [hb])
    (fun _ _ y hy => by
      rw [List.head?_cons, Option.mem_some_iff] at hy
      exact .inr (by rw [← hy, hb]; rfl))
    (fun x hx _ _ => by
      rw [List.append_cons, List.getLast?_concat, Option.mem_some_iff] at hx
      exact .inl (by rw [← hx, hd]; rfl))
  have hchanged := hopen₂.changed [b, d] htotal hW
  rw [← hG] at hopen₂
  have hclose := hopen₂.close (by simp) htotal hnewok hW htag hchain
  rw [hb, hd] at hclose hchanged
  refine ⟨hclose, hchanged.congr (fun u _ => Iff.rfl) (fun u _ => ?_), hopen₂.alike.mAreas⟩
  show u ∈ [_, _] ↔ _
  rw [List.mem_cons, List.mem_singleton]
  rfl

/-- The second of two new chunks is freed again. -/
theorem Changed.drop {s'' : AllocPool} {h'' : Heap} {old : Set (ℕ × Block)} {x y : ℕ × Block}
    (hc : Changed s s' h h' old {x, y}) (hc' : Changed s' s'' h' h'' {y} ∅) (hne : x ≠ y)
    (hy : y ∈ chunks s.mAreas h → y ∈ old) : Changed s s'' h h'' old {x} where
  self := hc'.self.trans hc.self
  mAreaInitSize := hc'.mAreaInitSize.trans hc.mAreaInitSize
  mAreaMoreSize := hc'.mAreaMoreSize.trans hc.mAreaMoreSize
  live := fun u hu => by
    rw [hc'.live u hu, hc.live u hu, Set.mem_insert_iff, Set.mem_singleton_iff,
      Set.mem_singleton_iff]
    constructor
    · intro hmem
      rcases hmem with ⟨hin | rfl | rfl, huy⟩ | hmem
      · exact .inl hin
      · exact .inr rfl
      · exact absurd rfl huy
      · exact absurd hmem (Set.notMem_empty u)
    · intro hmem
      rcases hmem with hin | rfl
      · exact .inl ⟨.inl hin, fun heq => hin.2 (heq ▸ hy (heq ▸ hin.1))⟩
      · exact .inl ⟨.inr (.inl rfl), hne⟩
  payload := fun u hu hlive hnot w hle hlt => by
    have hmem : u ∈ chunks s'.mAreas h' := (hc.live u hlive).mpr (.inl ⟨hu, hnot⟩)
    have huy : u ∉ ({y} : Set (ℕ × Block)) := fun heq => hnot (heq ▸ hy (heq ▸ hu))
    rw [hc'.payload u hmem hlive huy w hle hlt, hc.payload u hu hlive hnot w hle hlt]

/-- The hole becomes one chunk in use, and what is not needed of it is given back. The words of
the hole behind the first header stay, but for those of a second one. -/
theorem Opened.splitChunk (ho : Opened s₀ h a pre mid post ∅ ∅ s)
    (hle : size ≤ total Block.size mid) (hsize : 32 ≤ size) (heven : size % 2 = 0)
    (hroom : r + 32 ≤ size) :
    let s' := s.splitChunk (a.chunk + total Block.size pre) (total Block.size mid) size
    ∃ h' n, size ≤ n ∧ s'.Rep h' ∧
      Changed s₀ s' h h' {u | u ∈ starts Block.size (a.chunk + total Block.size pre) mid}
        {(a.chunk + total Block.size pre, ⟨n, some r⟩)} ∧
      (∀ a', a' ∈ s'.mAreas ↔ a' ∈ s₀.mAreas) ∧
      ∀ w, a.chunk + total Block.size pre + 32 ≤ w →
        w < a.chunk + total Block.size pre + total Block.size mid →
        total Block.size mid < size + 32 ∨ w < a.chunk + total Block.size pre + size ∨
          a.chunk + total Block.size pre + size + 32 ≤ w →
        s'.mem w = s.mem w := by
  intro s'
  by_cases hsplit : kMinAllocSize ≤ total Block.size mid - size
  · obtain ⟨k, hk⟩ : ∃ k, total Block.size mid = size + k := ⟨total Block.size mid - size, by omega⟩
    have hsub : total Block.size mid - size = k := by omega
    have hmin : 32 ≤ k := by
      unfold kMinAllocSize kAlign at hsplit
      omega
    obtain ⟨s₂, hs₂⟩ : ∃ s₂, s₂ = (s.setSizeInUse (a.chunk + total Block.size pre + size)
      k).setSizeInUse (a.chunk + total Block.size pre) size := ⟨_, rfl⟩
    have hdef : s' = s₂.free (a.chunk + total Block.size pre + size + sizeofAllocChunk) := by
      show s.splitChunk _ _ _ = _
      unfold AllocPool.splitChunk
      rw [if_pos hsplit, hsub, hs₂]
    obtain ⟨hrep, hchanged, hareas⟩ := ho.useSplit hk hsize hmin heven hroom
    rw [← hs₂] at hrep hchanged hareas
    have hcut : Function.update h a.chunk (pre ++ [⟨size, some r⟩, ⟨k, some 0⟩] ++ post) a.chunk =
        (pre ++ [⟨size, some r⟩]) ++ ⟨k, some 0⟩ :: post := by
      rw [Function.update_self]
      simp
    have ha : a ∈ s₂.mAreas := hareas ▸ ho.area
    obtain ⟨h', hrep', hchanged', hkeep, hfreed⟩ := hrep.free ha hcut rfl
      (c := a.chunk + total Block.size pre + size) (by simp [Nat.add_assoc])
    rw [← hdef] at hrep' hchanged' hkeep hfreed
    have hne : ((a.chunk + total Block.size pre, ⟨size, some r⟩) : ℕ × Block) ≠
        (a.chunk + total Block.size pre + size, ⟨k, some 0⟩) := by
      intro heq
      have := (Prod.mk.inj heq).1
      omega
    have hfront : (a.chunk + total Block.size pre, (⟨size, some r⟩ : Block)) ∈
        chunks s₂.mAreas (Function.update h a.chunk
          (pre ++ [⟨size, some r⟩, ⟨k, some 0⟩] ++ post)) :=
      (hchanged.live _ rfl).mpr (.inr (.inl rfl))
    refine ⟨h', size, le_refl _, hrep', hchanged.drop hchanged' hne fun hy => ?_, fun a' => ?_,
      fun w hlow hhigh hcase => ?_⟩
    · -- a chunk that begins in the hole is one of the hole
      rcases (mem_chunks_iff ho.area ho.cut).mp hy with hout | hin
      · have hgap := (ho.outside_gap hout).2
        simp only at hgap
        omega
      · exact hin
    · rw [hfreed, hareas]
      refine and_iff_left_of_imp fun ha' => ?_
      -- the first chunk keeps the area
      by_cases hne' : a' = a
      · obtain ⟨a'', ha'', hmem⟩ := (hchanged'.live _ rfl).mpr (.inl ⟨hfront, hne⟩)
        have hsame : a'' = a := by
          have hrange := hrep'.laid.range ha'' hmem
          have hplace := ho.place
          have hold := ((hfreed a'').mp ha'').1
          have hgeometry := hrep.laid.geometry ha
          have hgeometry' := hrep.laid.geometry hold
          simp only at hrange
          rcases hrep.laid.areas_apart hold ha with heq | hapart
          · exact heq
          · omega
        rw [hsame] at hmem
        exact .inr (.inr ⟨_, mem_of_mem_starts hmem, rfl⟩)
      · exact .inr (.inl hne')
    · have hword : s₂.mem w = s.mem w := by
        rw [hs₂]
        unfold setSizeInUse
        rw [setSize_mem, if_neg (by omega), setSize_mem, if_neg (by omega)]
      rw [← hword]
      by_cases hlt : w < a.chunk + total Block.size pre + size
      · exact hchanged'.payload _ hfront rfl hne w hlow hlt
      · exact hkeep w (by omega) (by simp only; omega)
  · have hdef : s' = s.setSizeInUse (a.chunk + total Block.size pre) (total Block.size mid) := by
      show s.splitChunk _ _ _ = _
      unfold AllocPool.splitChunk
      rw [if_neg hsplit]
    obtain ⟨h', hrep, hchanged, hareas⟩ := ho.useWhole (r := r) (by omega)
    rw [hdef]
    refine ⟨h', _, hle, hrep, hchanged, fun a' => by rw [hareas], fun w hlow hhigh _ => ?_⟩
    unfold setSizeInUse
    rw [setSize_mem, if_neg (by omega)]

/-! ## The neighbours -/

/-- The chunk behind is in use, or free. -/
theorem Rep.next_spec (hr : s.Rep h) (ha : a ∈ s.mAreas) (hcut : h a.chunk = pre ++ b :: post)
    (hc : c = a.chunk + total Block.size pre) :
    s.inUse (c + b.size) ∨ ∃ q post₁, post = q :: post₁ ∧ q.live = none ∧
      ¬ s.inUse (c + b.size) ∧ s.size (c + b.size) = q.size := by
  have hcut' : h a.chunk = (pre ++ [b]) ++ post := by
    rw [hcut]
    simp
  have hnext : c + b.size = a.chunk + total Block.size (pre ++ [b]) := by
    rw [hc]
    simp [Nat.add_assoc]
  rcases hr.laid.next_cases ha hcut' with ⟨-, htag⟩ | ⟨q, post₁, hpost, hq, htag⟩
  · left
    unfold inUse
    rw [hnext, htag]
  · have hok := hr.laid.block _ hq
    rw [← hnext] at htag
    by_cases hlive : q.live.isSome = true
    · left
      unfold inUse
      rw [htag]
      exact hok.tag_live.mpr hlive
    · right
      refine ⟨q, post₁, hpost, by simpa using hlive, ?_, ?_⟩
      · unfold inUse
        rw [htag]
        exact fun hodd => hlive (hok.tag_live.mp hodd)
      · unfold AllocPool.size
        rw [htag]
        exact hok.tag_size

/-- The chunk in front is in use, or free. At the begin of an area it is the chunk itself. -/
theorem Rep.prev_spec (hr : s.Rep h) (ha : a ∈ s.mAreas) (hcut : h a.chunk = pre ++ b :: post)
    (hlive : b.live.isSome = true) (hc : c = a.chunk + total Block.size pre) :
    s.inUse (c - s.prevSize c) ∨ ∃ pre₁ p, pre = pre₁ ++ [p] ∧ p.live = none ∧
      c - s.prevSize c = a.chunk + total Block.size pre₁ ∧ ¬ s.inUse (c - s.prevSize c) ∧
      s.size (c - s.prevSize c) = p.size := by
  have hmem : (c, b) ∈ chunks s.mAreas h := ⟨a, ha, by rw [hcut, hc]; simp⟩
  rcases hr.laid.prev_cases ha hcut with ⟨-, htag⟩ | ⟨pre₁, p, hpre, hp, htag⟩
  · left
    rw [← hc] at htag
    unfold prevSize inUse mSize
    rw [htag, Nat.div_eq_of_lt (by omega), Nat.zero_mul, Nat.sub_zero, (hr.laid.tag _ hmem).1]
    exact (hr.laid.block _ hmem).tag_live.mpr hlive
  · have hok := hr.laid.block _ hp
    have hprev : c - s.prevSize c = a.chunk + total Block.size pre₁ := by
      unfold prevSize
      rw [hc, htag, hok.tag_size, hpre]
      simp only [total_append, total_cons, total_nil]
      omega
    have hword : s.mSize (c - s.prevSize c) = p.tag := by
      rw [hprev]
      exact (hr.laid.tag _ hp).1
    by_cases hplive : p.live.isSome = true
    · left
      unfold inUse
      rw [hword]
      exact hok.tag_live.mpr hplive
    · right
      refine ⟨pre₁, p, hpre, by simpa using hplive, hprev, ?_, ?_⟩
      · unfold inUse
        rw [hword]
        exact fun hodd => hplive (hok.tag_live.mp hodd)
      · unfold AllocPool.size
        rw [hword]
        exact hok.tag_size

/-! ## A chunk that stays where it is -/

/-- What is known when `Realloc` returns a block instead of the one at `c`. -/
structure Realloced (s s' : AllocPool) (h h' : Heap) (req q c : ℕ) (b : Block) (c' : ℕ)
    (b' : Block) : Prop where
  rep : s'.Rep h'
  changed : Changed s s' h h' {(c, b)} {(c', b')}
  live : b'.live = some req
  addr : q = c' + sizeofAllocChunk

/-- The first bytes of the payload at `p` are now at `q`. -/
def SameBytes (s s' : AllocPool) (p q n : ℕ) : Prop := ∀ w < n, s'.mem (q + w) = s.mem (p + w)

section Resize

variable {front back post₁ : List Block} {req : ℕ}

/-- The hole around a chunk in use becomes one for `req` bytes. -/
theorem Opened.resize (ho : Opened s₀ h a pre (front ++ b :: back) post ∅ ∅ s)
    (hfront : ∀ x ∈ front, x.live = none) (hback : ∀ x ∈ back, x.live = none)
    (hc : c = a.chunk + total Block.size pre + total Block.size front)
    (hreq : req + 48 ≤ 2 ^ 64)
    (hle : requestToSize req ≤ total Block.size (front ++ b :: back)) :
    let s' := s.splitChunk (a.chunk + total Block.size pre)
      (total Block.size (front ++ b :: back)) (requestToSize req)
    ∃ h' n, requestToSize req ≤ n ∧
      Realloced s₀ s' h h' req (a.chunk + total Block.size pre + sizeofAllocChunk) c b
        (a.chunk + total Block.size pre) ⟨n, some req⟩ ∧
      (∀ a', a' ∈ s'.mAreas ↔ a' ∈ s₀.mAreas) ∧
      ∀ w, c + 32 ≤ w → w < c + b.size →
        total Block.size (front ++ b :: back) < requestToSize req + 32 ∨
          w < a.chunk + total Block.size pre + requestToSize req ∨
          a.chunk + total Block.size pre + requestToSize req + 32 ≤ w →
        s'.mem w = s₀.mem w := by
  obtain ⟨hmin, halign, hroom, -⟩ := requestToSize_spec hreq
  obtain ⟨h', n, hn, hrep, hchanged, hareas, hkeep⟩ := ho.splitChunk hle hmin (by omega) hroom
  refine ⟨h', n, hn, ⟨hrep, hchanged.of_only hfront hback hc, rfl, rfl⟩, hareas,
    fun w hlow hhigh hcase => ?_⟩
  have hlen : total Block.size (front ++ b :: back) =
      total Block.size front + b.size + total Block.size back := by
    rw [total_append, total_cons, Nat.add_assoc]
  have hmem : (c, b) ∈ chunks s₀.mAreas h := by
    refine (mem_chunks_iff ho.area ho.cut).mpr (.inr ?_)
    rw [starts_append, starts_cons, ← hc]
    exact List.mem_append_right _ List.mem_cons_self
  rw [hkeep w (by omega) (by omega) hcase]
  exact ho.mem w (ho.laid.not_linkWord hmem (by simp only; omega) (.inl hhigh)
    (by simp only; omega)) (Set.notMem_empty w)

/-- Payload of the new chunk is written. -/
theorem Realloced.writePayload {q c' : ℕ} {b' : Block}
    (hrealloc : Realloced s s' h h' req q c b c' b')
    (hold : (c', b') ∈ chunks s.mAreas h → (c', b') = (c, b)) {mem : ℕ → ℕ}
    (hmem : ∀ w, w < c' + 32 ∨ c' + b'.size ≤ w → mem w = s'.mem w) :
    Realloced s { s' with mem := mem } h h' req q c b c' b' := by
  have hlive : b'.live.isSome = true := by
    rw [hrealloc.live]
    rfl
  have hnew : (c', b') ∈ chunks s'.mAreas h' := (hrealloc.changed.live _ hlive).mpr (.inr rfl)
  refine ⟨hrealloc.rep.writePayload hnew hmem, { hrealloc.changed with payload := ?_ },
    hrealloc.live, hrealloc.addr⟩
  intro u hu hulive hnot w hle hlt
  have hu' : u ∈ chunks s'.mAreas h' := (hrealloc.changed.live u hulive).mpr (.inl ⟨hu, hnot⟩)
  have hne : u ≠ (c', b') := fun heq => hnot (by rw [heq] at hu ⊢; exact hold hu)
  have hapart := hrealloc.rep.laid.payload_apart hu' hnew hne
  simp only at hapart
  show mem w = s.mem w
  rw [hmem w (by omega)]
  exact hrealloc.changed.payload u hu hulive hnot w hle hlt

theorem copy_mem (s : AllocPool) (dst src n w : ℕ) :
    (s.copy dst src n).mem w =
      if dst ≤ w ∧ w < dst + n then s.mem (w - dst + src) else s.mem w := rfl

/-- The payload is moved to the front of the hole. -/
theorem Opened.shift (ho : Opened s₀ h a pre (front ++ b :: back) post ∅ ∅ s)
    (hfront : ∀ x ∈ front, x.live = none) (hback : ∀ x ∈ back, x.live = none)
    (hc : c = a.chunk + total Block.size pre + total Block.size front)
    (hreq : req + 48 ≤ 2 ^ 64) (hlarger : b.size < requestToSize req)
    (hle : requestToSize req ≤ total Block.size (front ++ b :: back)) :
    let s' := (s.splitChunk (a.chunk + total Block.size pre)
      (total Block.size (front ++ b :: back)) (requestToSize req)).copy
        (a.chunk + total Block.size pre + sizeofAllocChunk) (c + sizeofAllocChunk)
        (b.size - sizeofAllocChunk)
    (∃ h' b', Realloced s₀ s' h h' req (a.chunk + total Block.size pre + sizeofAllocChunk) c b
        (a.chunk + total Block.size pre) b') ∧
      (∀ a', a' ∈ s'.mAreas ↔ a' ∈ s₀.mAreas) ∧
      (total Block.size (front ++ b :: back) < requestToSize req + 32 ∨
          requestToSize req ≤ total Block.size front ∨
          total Block.size front + b.size ≤ requestToSize req →
        SameBytes s₀ s' (c + sizeofAllocChunk)
          (a.chunk + total Block.size pre + sizeofAllocChunk) (b.size - sizeofAllocChunk)) := by
  obtain ⟨h', n, hn, hrealloc, hareas, hkeep⟩ := ho.resize hfront hback hc hreq hle
  intro s'
  refine ⟨⟨h', _, hrealloc.writePayload (fun hmem => ?_) fun w hw => ?_⟩, hareas,
    fun hsafe w hw => ?_⟩
  · rcases (mem_chunks_iff ho.area ho.cut).mp hmem with hout | hin
    · have hgap := (ho.outside_gap hout).2
      have hplace := ho.place
      simp only at hgap
      omega
    · exact mem_only_live hfront hback hc rfl hin
  · simp only at hw
    unfold sizeofAllocChunk
    rw [if_neg (by omega)]
  · show (if _ then _ else _) = _
    unfold sizeofAllocChunk at hw ⊢
    rw [if_pos (by omega)]
    have haddr : a.chunk + total Block.size pre + 32 + w -
        (a.chunk + total Block.size pre + 32) + (c + 32) = c + 32 + w := by omega
    rw [haddr]
    exact hkeep _ (by omega) (by omega) (by omega)

/-- The free chunk behind is unlinked. -/
theorem Rep.openNext {q : Block} (hr : s.Rep h) (ha : a ∈ s.mAreas)
    (hcut : h a.chunk = pre ++ b :: q :: post) (hlive : b.live.isSome = true) (hq : q.live = none)
    (hc : c = a.chunk + total Block.size pre) :
    Opened s h a pre [b, q] post ∅ ∅ (s.unlinkFree (c + b.size)) := by
  have hcut' : h a.chunk = pre ++ [b, q] ++ post := by
    rw [hcut]
    simp
  have hG : freesAt (a.chunk + total Block.size pre) [b, q] = {(c + b.size, q.size)} := by
    rw [freesAt_live _ hlive, freesAt_free _ hq, freesAt_nil, insert_empty_eq, hc]
  have hopen := (hr.opened ha hcut' (by simp)).unlink (le_refl _)
    (by rw [hG]; exact Set.mem_singleton _)
  rw [hG, Set.sdiff_self] at hopen
  exact hopen

/-- The free chunk in front is unlinked. -/
theorem Rep.openPrev {p : Block} (hr : s.Rep h) (ha : a ∈ s.mAreas)
    (hcut : h a.chunk = pre ++ p :: b :: post) (hlive : b.live.isSome = true) (hp : p.live = none) :
    Opened s h a pre [p, b] post ∅ ∅ (s.unlinkFree (a.chunk + total Block.size pre)) := by
  have hcut' : h a.chunk = pre ++ [p, b] ++ post := by
    rw [hcut]
    simp
  have hG : freesAt (a.chunk + total Block.size pre) [p, b] =
      {(a.chunk + total Block.size pre, p.size)} := by
    rw [freesAt_free _ hp, freesAt_live _ hlive, freesAt_nil, insert_empty_eq]
  have hopen := (hr.opened ha hcut' (by simp)).unlink (le_refl _)
    (by rw [hG]; exact Set.mem_singleton _)
  rw [hG, Set.sdiff_self] at hopen
  exact hopen

/-- Both neighbours are unlinked. -/
theorem Rep.openBoth {p q : Block} (hr : s.Rep h) (ha : a ∈ s.mAreas)
    (hcut : h a.chunk = pre ++ p :: b :: q :: post) (hlive : b.live.isSome = true)
    (hp : p.live = none) (hq : q.live = none) :
    Opened s h a pre [p, b, q] post ∅ ∅
      ((s.unlinkFree (a.chunk + total Block.size pre + p.size + b.size)).unlinkFree
        (a.chunk + total Block.size pre)) := by
  have hcut' : h a.chunk = pre ++ [p, b, q] ++ post := by
    rw [hcut]
    simp
  have hG : freesAt (a.chunk + total Block.size pre) [p, b, q] =
      {(a.chunk + total Block.size pre, p.size),
        (a.chunk + total Block.size pre + p.size + b.size, q.size)} := by
    rw [freesAt_free _ hp, freesAt_live _ hlive, freesAt_free _ hq, freesAt_nil, insert_empty_eq]
  have hpmem : (a.chunk + total Block.size pre, p) ∈ chunks s.mAreas h :=
    ⟨a, ha, by rw [hcut]; simp⟩
  have hmin := (hr.laid.block _ hpmem).min
  simp only at hmin
  have hopen := (hr.opened ha hcut' (by simp)).unlink (le_refl _)
    (c := a.chunk + total Block.size pre + p.size + b.size) (n := q.size)
    (by rw [hG]; exact .inr rfl)
  have hrest : ({(a.chunk + total Block.size pre, p.size),
      (a.chunk + total Block.size pre + p.size + b.size, q.size)} : Set (ℕ × ℕ)) \
      {(a.chunk + total Block.size pre + p.size + b.size, q.size)} =
      {(a.chunk + total Block.size pre, p.size)} := by
    ext f
    constructor
    · intro hf
      exact hf.1.resolve_right hf.2
    · intro hf
      refine ⟨.inl hf, fun heq => ?_⟩
      have hfst := congrArg Prod.fst ((Set.mem_singleton_iff.mp hf).symm.trans heq)
      simp only at hfst
      omega
  rw [hG, hrest] at hopen
  have hopen' := hopen.unlink (by rw [hG]; exact Set.singleton_subset_iff.mpr (.inl rfl))
    (Set.mem_singleton _)
  rw [Set.sdiff_self] at hopen'
  exact hopen'

end Resize

/-! ## The cases of `Realloc` -/

/-- The size of the chunk of a block. -/
def oldsize (s : AllocPool) (inPtr : ℕ) : ℕ := s.size (inPtr - sizeofAllocChunk)

/-- The size of the free chunk behind it, or 0. -/
def nextsize (s : AllocPool) (inPtr : ℕ) : ℕ :=
  let next := inPtr - sizeofAllocChunk + s.oldsize inPtr
  if s.inUse next then 0 else s.size next

/-- The size of the free chunk in front of it, or 0. -/
def prevsize (s : AllocPool) (inPtr : ℕ) : ℕ :=
  let prev := inPtr - sizeofAllocChunk - s.prevSize (inPtr - sizeofAllocChunk)
  if s.inUse prev then 0 else s.size prev

/-- There is not enough room around the block. -/
def Moves (s : AllocPool) (inPtr inReqSize : ℕ) : Prop :=
  s.nextsize inPtr + s.prevsize inPtr + s.oldsize inPtr < requestToSize inReqSize

/-- The block gets the chunk in front of it, and the header of what is given back lies within
its payload as it was. -/
def Overlaps (s : AllocPool) (inPtr inReqSize : ℕ) : Prop :=
  s.nextsize inPtr + s.oldsize inPtr < requestToSize inReqSize ∧
    requestToSize inReqSize + kMinAllocSize ≤
      s.nextsize inPtr + s.prevsize inPtr + s.oldsize inPtr ∧
    s.prevsize inPtr < requestToSize inReqSize ∧
    requestToSize inReqSize < s.prevsize inPtr + s.oldsize inPtr

instance (s : AllocPool) (inPtr inReqSize : ℕ) : Decidable (s.Moves inPtr inReqSize) :=
  inferInstanceAs (Decidable (_ < _))

instance (s : AllocPool) (inPtr inReqSize : ℕ) : Decidable (s.Overlaps inPtr inReqSize) :=
  inferInstanceAs (Decidable (_ ∧ _))

/-- The branches of `Realloc` by the room around the block. -/
theorem realloc_cases (s : AllocPool) (ptr : Option ℕ) (inPtr req : ℕ) (hne : inPtr ≠ 0)
    (hnext : 0 < s.nextsize inPtr ↔ ¬ s.inUse (inPtr - sizeofAllocChunk + s.oldsize inPtr))
    (hprev : 0 < s.prevsize inPtr ↔ ¬ s.inUse
      (inPtr - sizeofAllocChunk - s.prevSize (inPtr - sizeofAllocChunk))) :
    let size := requestToSize req
    let oldChunk := inPtr - sizeofAllocChunk
    let next := oldChunk + s.oldsize inPtr
    let prev := oldChunk - s.prevSize oldChunk
    (size ≤ s.oldsize inPtr ∧
      s.realloc ptr inPtr req = .ok (s.splitChunk oldChunk (s.oldsize inPtr) size, inPtr)) ∨
    (s.oldsize inPtr < size ∧ 0 < s.nextsize inPtr ∧ size ≤ s.nextsize inPtr + s.oldsize inPtr ∧
      s.realloc ptr inPtr req = .ok ((s.unlinkFree next).splitChunk oldChunk
        (s.oldsize inPtr + s.nextsize inPtr) size, inPtr)) ∨
    (s.nextsize inPtr + s.oldsize inPtr < size ∧ 0 < s.prevsize inPtr ∧ 0 < s.nextsize inPtr ∧
      size ≤ s.nextsize inPtr + s.prevsize inPtr + s.oldsize inPtr ∧
      s.realloc ptr inPtr req = .ok ((s.unlinkFree next).allocPrev prev inPtr (s.oldsize inPtr)
        (s.oldsize inPtr + s.nextsize inPtr + s.prevsize inPtr) size)) ∨
    (s.oldsize inPtr < size ∧ 0 < s.prevsize inPtr ∧ s.nextsize inPtr = 0 ∧
      size ≤ s.prevsize inPtr + s.oldsize inPtr ∧
      s.realloc ptr inPtr req = .ok (s.allocPrev prev inPtr (s.oldsize inPtr)
        (s.oldsize inPtr + s.prevsize inPtr) size)) ∨
    (s.Moves inPtr req ∧
      s.realloc ptr inPtr req = s.move ptr inPtr req (s.oldsize inPtr)) := by
  intro size oldChunk next prev
  have hsame : s.prevsize inPtr = if s.inUse prev then 0 else s.size prev := rfl
  have hdef : s.realloc ptr inPtr req =
      if s.oldsize inPtr < size then
        if ¬ s.inUse next ∧ size ≤ s.nextsize inPtr + s.oldsize inPtr then
          .ok ((s.unlinkFree next).splitChunk oldChunk (s.oldsize inPtr + s.nextsize inPtr) size,
            inPtr)
        else if ¬ s.inUse prev ∧ ¬ s.inUse next ∧
            size ≤ s.nextsize inPtr + s.size prev + s.oldsize inPtr then
          .ok ((s.unlinkFree next).allocPrev prev inPtr (s.oldsize inPtr)
            (s.oldsize inPtr + s.nextsize inPtr + s.size prev) size)
        else if ¬ s.inUse prev ∧ size ≤ s.size prev + s.oldsize inPtr then
          .ok (s.allocPrev prev inPtr (s.oldsize inPtr) (s.oldsize inPtr + s.size prev) size)
        else s.move ptr inPtr req (s.oldsize inPtr)
      else .ok (s.splitChunk oldChunk (s.oldsize inPtr) size, inPtr) := by
    unfold AllocPool.realloc
    rw [if_neg hne]
    rfl
  rw [hdef]
  by_cases hlarger : s.oldsize inPtr < size
  · rw [if_pos hlarger]
    by_cases hforward : ¬ s.inUse next ∧ size ≤ s.nextsize inPtr + s.oldsize inPtr
    · rw [if_pos hforward]
      exact .inr (.inl ⟨hlarger, hnext.mpr hforward.1, hforward.2, rfl⟩)
    · rw [if_neg hforward]
      have hshort : s.nextsize inPtr + s.oldsize inPtr < size := by
        by_contra hge
        have hpos : 0 < s.nextsize inPtr := by omega
        exact hforward ⟨hnext.mp hpos, by omega⟩
      by_cases hfree : s.inUse prev
      · rw [if_neg (fun h => h.1 hfree), if_neg (fun h => h.1 hfree)]
        refine .inr (.inr (.inr (.inr ⟨?_, rfl⟩)))
        rw [if_pos hfree] at hsame
        unfold Moves
        show _ < size
        omega
      · rw [if_neg hfree] at hsame
        rw [← hsame]
        have hpos := hprev.mpr hfree
        by_cases hboth : ¬ s.inUse prev ∧ ¬ s.inUse next ∧
            size ≤ s.nextsize inPtr + s.prevsize inPtr + s.oldsize inPtr
        · rw [if_pos hboth]
          exact .inr (.inr (.inl ⟨hshort, hpos, hnext.mpr hboth.2.1, hboth.2.2, rfl⟩))
        · rw [if_neg hboth]
          by_cases hback : ¬ s.inUse prev ∧ size ≤ s.prevsize inPtr + s.oldsize inPtr
          · rw [if_pos hback]
            refine .inr (.inr (.inr (.inl ⟨hlarger, hpos, ?_, hback.2, rfl⟩)))
            by_contra hne
            exact hboth ⟨hfree, hnext.mp (by omega), by omega⟩
          · rw [if_neg hback]
            refine .inr (.inr (.inr (.inr ⟨?_, rfl⟩)))
            unfold Moves
            show _ < size
            by_contra hge
            by_cases hnone : s.nextsize inPtr = 0
            · exact hback ⟨hfree, by omega⟩
            · exact hboth ⟨hfree, hnext.mp (by omega), by omega⟩
  · rw [if_neg hlarger]
    exact .inl ⟨by omega, rfl⟩

/-- What is known when `Realloc` finds room around the block. -/
structure Resized (s s' : AllocPool) (h : Heap) (req q c : ℕ) (b : Block) (a : AllocArea) :
    Prop where
  realloced : ∃ h' c' b', Realloced s s' h h' req q c b c' b' ∧ a.chunk ≤ c' ∧ c' ≤ c
  areas : ∀ a', a' ∈ s'.mAreas ↔ a' ∈ s.mAreas
  bytes : ¬ s.Overlaps (c + sizeofAllocChunk) req →
    SameBytes s s' (c + sizeofAllocChunk) q (min (b.size - sizeofAllocChunk) req)

section Stays

variable {req : ℕ} {p q : Block} {ptr : Option ℕ}

/-- The hole begins with the block: nothing is copied. -/
theorem Opened.resized_front {back : List Block} (ho : Opened s h a pre (b :: back) post ∅ ∅ s₁)
    (hback : ∀ x ∈ back, x.live = none) (hc : c = a.chunk + total Block.size pre)
    (hreq : req + 48 ≤ 2 ^ 64) (hle : requestToSize req ≤ total Block.size (b :: back)) :
    Resized s (s₁.splitChunk c (total Block.size (b :: back)) (requestToSize req)) h req
      (c + sizeofAllocChunk) c b a := by
  have hstart : c = a.chunk + total Block.size pre + total Block.size [] := hc
  have hopen : Opened s h a pre ([] ++ b :: back) post ∅ ∅ s₁ := ho
  obtain ⟨h', n, -, hrealloc, hareas, hkeep⟩ := hopen.resize (by simp) hback hstart hreq hle
  have hroom := (requestToSize_spec hreq).2.2.1
  rw [← hc] at hrealloc
  simp only [List.nil_append, ← hc] at hrealloc hareas hkeep
  refine ⟨⟨h', c, _, hrealloc, by omega, le_refl c⟩, hareas, fun _ w hw => ?_⟩
  unfold sizeofAllocChunk at hw ⊢
  exact hkeep _ (by omega) (by omega) (.inr (.inl (by omega)))

/-- The hole begins with the chunk in front: the payload is copied there. -/
theorem Opened.resized_back {back : List Block}
    (ho : Opened s h a pre (p :: b :: back) post ∅ ∅ s₁) (hp : p.live = none)
    (hback : ∀ x ∈ back, x.live = none) (hc : c = a.chunk + total Block.size pre + p.size)
    (hreq : req + 48 ≤ 2 ^ 64) (hlarger : b.size < requestToSize req)
    (hle : requestToSize req ≤ total Block.size (p :: b :: back))
    (hsafe : ¬ s.Overlaps (c + sizeofAllocChunk) req →
      total Block.size (p :: b :: back) < requestToSize req + 32 ∨ requestToSize req ≤ p.size ∨
        p.size + b.size ≤ requestToSize req) :
    Resized s ((s₁.splitChunk (a.chunk + total Block.size pre)
        (total Block.size (p :: b :: back)) (requestToSize req)).copy
        (a.chunk + total Block.size pre + sizeofAllocChunk) (c + sizeofAllocChunk)
        (b.size - sizeofAllocChunk)) h req
      (a.chunk + total Block.size pre + sizeofAllocChunk) c b a := by
  have hsize : total Block.size [p] = p.size := by simp
  have hstart : c = a.chunk + total Block.size pre + total Block.size [p] := by
    rw [hsize]
    exact hc
  have hopen : Opened s h a pre ([p] ++ b :: back) post ∅ ∅ s₁ := ho
  obtain ⟨⟨h', b', hrealloc⟩, hareas, hbytes⟩ :=
    hopen.shift (by simpa using hp) hback hstart hreq hlarger hle
  refine ⟨⟨h', _, b', hrealloc, by omega, by omega⟩, hareas, fun hover w hw => ?_⟩
  rw [hsize] at hbytes
  exact hbytes (hsafe hover) w (by omega)

/-- The room around a block. -/
structure Around (s : AllocPool) (a : AllocArea) (pre post : List Block) (c : ℕ) (b : Block) :
    Prop where
  old : s.oldsize (c + sizeofAllocChunk) = b.size
  next : s.inUse (c + b.size) ∧ s.nextsize (c + sizeofAllocChunk) = 0 ∨
    ∃ q post₁, post = q :: post₁ ∧ q.live = none ∧ ¬ s.inUse (c + b.size) ∧
      s.nextsize (c + sizeofAllocChunk) = q.size ∧ 32 ≤ q.size
  prev : s.inUse (c - s.prevSize c) ∧ s.prevsize (c + sizeofAllocChunk) = 0 ∨
    ∃ pre₁ p, pre = pre₁ ++ [p] ∧ p.live = none ∧
      c - s.prevSize c = a.chunk + total Block.size pre₁ ∧ ¬ s.inUse (c - s.prevSize c) ∧
      s.prevsize (c + sizeofAllocChunk) = p.size ∧ 32 ≤ p.size

theorem Rep.around (hr : s.Rep h) (ha : a ∈ s.mAreas) (hcut : h a.chunk = pre ++ b :: post)
    (hlive : b.live.isSome = true) (hc : c = a.chunk + total Block.size pre) :
    Around s a pre post c b := by
  have hmem : (c, b) ∈ chunks s.mAreas h := ⟨a, ha, by rw [hcut, hc]; simp⟩
  have hold : s.oldsize (c + sizeofAllocChunk) = b.size := by
    unfold oldsize AllocPool.size mSize
    rw [Nat.add_sub_cancel, (hr.laid.tag _ hmem).1]
    exact (hr.laid.block _ hmem).tag_size
  have hnextdef : s.nextsize (c + sizeofAllocChunk) =
      if s.inUse (c + b.size) then 0 else s.size (c + b.size) := by
    unfold nextsize
    rw [hold, Nat.add_sub_cancel]
  have hprevdef : s.prevsize (c + sizeofAllocChunk) =
      if s.inUse (c - s.prevSize c) then 0 else s.size (c - s.prevSize c) := by
    unfold prevsize
    rw [Nat.add_sub_cancel]
  have hmin : ∀ x ∈ h a.chunk, 32 ≤ x.size := fun x hx => (hr.laid.ok_of_area ha x hx).min
  refine ⟨hold, ?_, ?_⟩
  · rcases hr.next_spec ha hcut hc with huse | ⟨q, post₁, hpost, hq, huse, hsize⟩
    · exact .inl ⟨huse, by rw [hnextdef, if_pos huse]⟩
    · exact .inr ⟨q, post₁, hpost, hq, huse, by rw [hnextdef, if_neg huse, hsize],
        hmin q (by rw [hcut, hpost]; simp)⟩
  · rcases hr.prev_spec ha hcut hlive hc with huse | ⟨pre₁, p, hpre, hp, hstart, huse, hsize⟩
    · exact .inl ⟨huse, by rw [hprevdef, if_pos huse]⟩
    · exact .inr ⟨pre₁, p, hpre, hp, hstart, huse, by rw [hprevdef, if_neg huse, hsize],
        hmin p (by rw [hcut, hpre]; simp)⟩

/-- The branches of `Realloc` for a block in use. -/
theorem Around.cases (har : Around s a pre post c b) (ptr : Option ℕ) (req : ℕ) :
    (requestToSize req ≤ b.size ∧ s.realloc ptr (c + sizeofAllocChunk) req =
      .ok (s.splitChunk c b.size (requestToSize req), c + sizeofAllocChunk)) ∨
    (b.size < requestToSize req ∧ 0 < s.nextsize (c + sizeofAllocChunk) ∧
      requestToSize req ≤ s.nextsize (c + sizeofAllocChunk) + b.size ∧
      s.realloc ptr (c + sizeofAllocChunk) req = .ok ((s.unlinkFree (c + b.size)).splitChunk c
        (b.size + s.nextsize (c + sizeofAllocChunk)) (requestToSize req),
        c + sizeofAllocChunk)) ∨
    (s.nextsize (c + sizeofAllocChunk) + b.size < requestToSize req ∧
      0 < s.prevsize (c + sizeofAllocChunk) ∧ 0 < s.nextsize (c + sizeofAllocChunk) ∧
      requestToSize req ≤ s.nextsize (c + sizeofAllocChunk) + s.prevsize (c + sizeofAllocChunk) +
        b.size ∧
      s.realloc ptr (c + sizeofAllocChunk) req = .ok ((s.unlinkFree (c + b.size)).allocPrev
        (c - s.prevSize c) (c + sizeofAllocChunk) b.size
        (b.size + s.nextsize (c + sizeofAllocChunk) + s.prevsize (c + sizeofAllocChunk))
        (requestToSize req))) ∨
    (b.size < requestToSize req ∧ 0 < s.prevsize (c + sizeofAllocChunk) ∧
      s.nextsize (c + sizeofAllocChunk) = 0 ∧
      requestToSize req ≤ s.prevsize (c + sizeofAllocChunk) + b.size ∧
      s.realloc ptr (c + sizeofAllocChunk) req = .ok (s.allocPrev (c - s.prevSize c)
        (c + sizeofAllocChunk) b.size (b.size + s.prevsize (c + sizeofAllocChunk))
        (requestToSize req))) ∨
    (s.Moves (c + sizeofAllocChunk) req ∧ s.realloc ptr (c + sizeofAllocChunk) req =
      s.move ptr (c + sizeofAllocChunk) req b.size) := by
  have hcases := s.realloc_cases ptr (c + sizeofAllocChunk) req (by unfold sizeofAllocChunk; omega)
    (by
      rw [har.old, Nat.add_sub_cancel]
      rcases har.next with ⟨huse, hzero⟩ | ⟨q, post₁, -, -, huse, hsize, hmin⟩
      · exact iff_of_false (by omega) (not_not.mpr huse)
      · exact iff_of_true (by omega) huse)
    (by
      rw [Nat.add_sub_cancel]
      rcases har.prev with ⟨huse, hzero⟩ | ⟨pre₁, p, -, -, -, huse, hsize, hmin⟩
      · exact iff_of_false (by omega) (not_not.mpr huse)
      · exact iff_of_true (by omega) huse)
  simp only [har.old, Nat.add_sub_cancel] at hcases
  exact hcases

/-- A block is moved where there is not enough room around it. -/
theorem Rep.realloc_moves (hr : s.Rep h) (hcb : (c, b) ∈ chunks s.mAreas h)
    (hlive : b.live.isSome = true) (hmoves : s.Moves (c + sizeofAllocChunk) req)
    (ptr : Option ℕ) : b.size < requestToSize req ∧ s.realloc ptr (c + sizeofAllocChunk) req =
      s.move ptr (c + sizeofAllocChunk) req b.size := by
  obtain ⟨a, ha, hmem⟩ := hcb
  obtain ⟨pre, post, hcut, hc⟩ := exists_split hmem
  have har := hr.around ha hcut hlive hc
  have hcases := har.cases ptr req
  unfold Moves at hmoves
  rw [har.old] at hmoves
  rcases hcases with ⟨hle, -⟩ | ⟨-, -, hle, -⟩ | ⟨-, -, -, hle, -⟩ | ⟨-, -, -, hle, -⟩ | ⟨-, heq⟩
  · omega
  · omega
  · omega
  · omega
  · exact ⟨by omega, heq⟩

/-- `Realloc` with enough room around the block. -/
theorem Rep.realloc_stays (hr : s.Rep h) (ha : a ∈ s.mAreas)
    (hcut : h a.chunk = pre ++ b :: post) (hlive : b.live.isSome = true)
    (hc : c = a.chunk + total Block.size pre) (hreq : req + 48 ≤ 2 ^ 64)
    (hstay : ¬ s.Moves (c + sizeofAllocChunk) req) (ptr : Option ℕ) :
    ∃ s' q, s.realloc ptr (c + sizeofAllocChunk) req = .ok (s', q) ∧
      Resized s s' h req q c b a := by
  have har := hr.around ha hcut hlive hc
  have hcases := har.cases ptr req
  have hnext := har.next
  have hprev := har.prev
  have hoverdef : s.Overlaps (c + sizeofAllocChunk) req ↔
      s.nextsize (c + sizeofAllocChunk) + b.size < requestToSize req ∧
        requestToSize req + 32 ≤ s.nextsize (c + sizeofAllocChunk) +
          s.prevsize (c + sizeofAllocChunk) + b.size ∧
        s.prevsize (c + sizeofAllocChunk) < requestToSize req ∧
        requestToSize req < s.prevsize (c + sizeofAllocChunk) + b.size := by
    unfold Overlaps
    rw [har.old]
    rfl
  rcases hcases with ⟨hle, heq⟩ | ⟨hlt, hpos, hle, heq⟩ | ⟨hlt, hpos, hpos', hle, heq⟩ |
    ⟨hlt, hpos, hzero, hle, heq⟩ | ⟨hmoves, -⟩
  · -- the block shrinks
    have hcut' : h a.chunk = pre ++ [b] ++ post := by
      rw [hcut]
      simp
    have hopen := hr.opened ha hcut' (by simp)
    rw [freesAt_live _ hlive, freesAt_nil] at hopen
    have hsize : total Block.size [b] = b.size := by simp
    have hresized := hopen.resized_front (by simp) hc hreq (by omega)
    rw [hsize] at hresized
    exact ⟨_, _, heq, hresized⟩
  · -- the chunk behind is enough
    rcases hnext with ⟨-, hzero⟩ | ⟨q, post₁, rfl, hq, -, hsize, -⟩
    · omega
    · have htotal : total Block.size [b, q] = b.size + q.size := by simp
      have hresized := (hr.openNext ha hcut hlive hq hc).resized_front (by simpa using hq) hc hreq
        (by omega)
      rw [htotal] at hresized
      rw [hsize] at heq
      exact ⟨_, _, heq, hresized⟩
  · -- both neighbours are taken
    rcases hnext with ⟨-, hzero⟩ | ⟨q, post₁, rfl, hq, -, hnsize, -⟩
    · omega
    · rcases hprev with ⟨-, hzero⟩ | ⟨pre₁, p, rfl, hp, hstart, -, hpsize, -⟩
      · omega
      · have hcut' : h a.chunk = pre₁ ++ p :: b :: q :: post₁ := by
          rw [hcut]
          simp
        have hc' : c = a.chunk + total Block.size pre₁ + p.size := by
          rw [hc]
          simp [Nat.add_assoc]
        have htotal : total Block.size [p, b, q] = b.size + q.size + p.size := by
          simp
          omega
        have hopen := hr.openBoth ha hcut' hlive hp hq
        rw [← hc'] at hopen
        have hresized := hopen.resized_back hp (by simpa using hq) hc' hreq (by omega) (by omega)
          (fun hover => by rw [hoverdef] at hover; omega)
        rw [htotal] at hresized
        rw [hnsize, hpsize, hstart] at heq
        exact ⟨_, _, heq, hresized⟩
  · -- only the chunk in front is taken
    rcases hprev with ⟨-, hzero⟩ | ⟨pre₁, p, rfl, hp, hstart, -, hpsize, -⟩
    · omega
    · have hcut' : h a.chunk = pre₁ ++ p :: b :: post := by
        rw [hcut]
        simp
      have hc' : c = a.chunk + total Block.size pre₁ + p.size := by
        rw [hc]
        simp [Nat.add_assoc]
      have htotal : total Block.size [p, b] = b.size + p.size := by
        simp
        omega
      have hresized := (hr.openPrev ha hcut' hlive hp).resized_back hp (by simp) hc' hreq
        (by omega) (by omega) (fun hover => by rw [hoverdef] at hover; omega)
      rw [htotal] at hresized
      rw [hpsize, hstart] at heq
      exact ⟨_, _, heq, hresized⟩
  · exact absurd hmoves hstay

end Stays

/-! ## A chunk that is moved -/

/-- One chunk comes, and then another one goes. -/
theorem Changed.replace {s'' : AllocPool} {h'' : Heap} {x y : ℕ × Block}
    (hc : Changed s s' h h' ∅ {y}) (hc' : Changed s' s'' h' h'' {x} ∅) (hne : y ≠ x) :
    Changed s s'' h h'' {x} {y} where
  self := hc'.self.trans hc.self
  mAreaInitSize := hc'.mAreaInitSize.trans hc.mAreaInitSize
  mAreaMoreSize := hc'.mAreaMoreSize.trans hc.mAreaMoreSize
  live := fun u hu => by
    rw [hc'.live u hu, hc.live u hu]
    simp only [Set.mem_empty_iff_false, not_false_eq_true, and_true, or_false,
      Set.mem_singleton_iff]
    constructor
    · intro hmem
      exact hmem.1.imp_left fun hin => ⟨hin, hmem.2⟩
    · intro hmem
      rcases hmem with hin | heq
      · exact ⟨.inl hin.1, hin.2⟩
      · exact ⟨.inr heq, heq ▸ hne⟩
  payload := fun u hu hlive hnot w hle hlt => by
    have hmem : u ∈ chunks s'.mAreas h' :=
      (hc.live u hlive).mpr (.inl ⟨hu, Set.notMem_empty u⟩)
    rw [hc'.payload u hmem hlive hnot w hle hlt,
      hc.payload u hu hlive (Set.notMem_empty u) w hle hlt]

theorem Returns.replace {s'' : AllocPool} {h'' : Heap} {x y : ℕ × Block}
    (hsub : ∀ a ∈ s.mAreas, a ∈ s'.mAreas) (hc : Changed s s' h h' ∅ {y})
    (hc' : Changed s' s'' h' h'' {x} ∅) (hne : y ≠ x) (hy : y.2.live.isSome = true)
    (hreturns : Returns s' s'' h' h'') : Returns s s'' h h'' := by
  intro a ha
  rw [hreturns a (hsub a ha), hc.mAreaMoreSize]
  refine or_congr_right ?_
  by_cases hnew : HasLive s'' h'' a
  · exact iff_of_true (.inl hnew) (.inl hnew)
  · refine or_congr_right (not_congr ?_)
    -- the new chunk is not in this area, or it would still be there
    constructor
    · intro hlive
      obtain ⟨u, hu, hulive, hrange⟩ := hlive
      rcases (hc.live u hulive).mp hu with ⟨hold, -⟩ | heq
      · exact ⟨u, hold, hulive, hrange⟩
      · rw [Set.mem_singleton_iff.mp heq] at hrange hu
        exact absurd ⟨y, (hc'.live y hy).mpr (.inl ⟨hu, hne⟩), hy, hrange⟩ hnew
    · intro hlive
      obtain ⟨u, hu, hulive, hrange⟩ := hlive
      exact ⟨u, (hc.live u hulive).mpr (.inl ⟨hu, Set.notMem_empty u⟩), hulive, hrange⟩

/-- Payload of the new chunk is written. -/
theorem Alloced.writePayload {req q c' : ℕ} {b' : Block}
    (ha : Alloced s s' h h' req q c' b') (mem : ℕ → ℕ)
    (hmem : ∀ w, w < c' + 32 ∨ c' + b'.size ≤ w → mem w = s'.mem w) :
    Alloced s { s' with mem := mem } h h' req q c' b' := by
  have hlive : b'.live.isSome = true := by
    rw [ha.live]
    rfl
  have hnew : (c', b') ∈ chunks s'.mAreas h' := (ha.changed.live _ hlive).mpr (.inr rfl)
  refine ⟨ha.rep.writePayload hnew hmem, { ha.changed with payload := ?_ }, ha.live, ha.size,
    ha.addr, ha.fresh⟩
  intro u hu hulive hnot w hle hlt
  have hu' : u ∈ chunks s'.mAreas h' := (ha.changed.live u hulive).mpr (.inl ⟨hu, hnot⟩)
  have hne : u ≠ (c', b') := fun heq => ha.fresh b' hlive (heq ▸ hu)
  have hapart := ha.rep.laid.payload_apart hu' hnew hne
  simp only at hapart
  show mem w = s.mem w
  rw [hmem w (by omega)]
  exact ha.changed.payload u hu hulive hnot w hle hlt

/-- What `Alloc` needs to keep the chunks in order. -/
structure Allocable (s : AllocPool) (h : Heap) (ptr : Option ℕ) (req : ℕ) : Prop where
  comparable : Comparable (freeOf (chunks s.mAreas h)) (requestToSize req)
  splits : s.search (requestToSize req) = none → s.Splits (requestToSize req)
  grants : s.search (requestToSize req) = none → ∀ p n, ptr = some p →
    s.areaSize (requestToSize req) = some n → s.Grants p (n + kAreaOverhead)

/-- What is known when the block is moved. -/
structure Moved (s s' : AllocPool) (h : Heap) (req q c : ℕ) (b : Block) : Prop where
  realloced : ∃ h' c' b', Realloced s s' h h' req q c b c' b' ∧ Returns s s' h h'
  areas : s.areaSize (requestToSize req) = none → ∀ a ∈ s'.mAreas, a ∈ s.mAreas
  bytes : SameBytes s s' (c + sizeofAllocChunk) q (b.size - sizeofAllocChunk)

theorem Rep.move (hr : s.Rep h) (hcb : (c, b) ∈ chunks s.mAreas h)
    (hlive : b.live.isSome = true) {req : ℕ} (hreq : req + 48 ≤ 2 ^ 64)
    (hlarger : b.size < requestToSize req) {ptr : Option ℕ} (halloc : s.Allocable h ptr req) :
    (∃ e, s.move ptr (c + sizeofAllocChunk) req b.size = .error e) ∨
      ∃ s' q, s.move ptr (c + sizeofAllocChunk) req b.size = .ok (s', q) ∧
        Moved s s' h req q c b := by
  rcases hr.alloc hreq halloc.comparable halloc.splits halloc.grants with
    ⟨e, hfails⟩ | ⟨s₁, q, hok, ⟨h₁, c', b', halloced⟩, hareas⟩
  · left
    refine ⟨e, ?_⟩
    unfold AllocPool.move
    rw [hfails]
    rfl
  · right
    have hlive' : b'.live.isSome = true := by
      rw [halloced.live]
      rfl
    have hsize := halloced.size
    have haddr : q = c' + 32 := halloced.addr
    have hne : ((c', b') : ℕ × Block) ≠ (c, b) := by
      intro heq
      rw [← heq] at hcb
      exact halloced.fresh b' hlive' hcb
    -- the payload is copied
    have hcopied := halloced.writePayload
      (s₁.copy q (c + sizeofAllocChunk) (b.size - sizeofAllocChunk)).mem fun w hw => by
        rw [copy_mem, if_neg (by unfold sizeofAllocChunk; omega)]
    have hcopyeq : ({ s₁ with
        mem := (s₁.copy q (c + sizeofAllocChunk) (b.size - sizeofAllocChunk)).mem } : AllocPool) =
        s₁.copy q (c + sizeofAllocChunk) (b.size - sizeofAllocChunk) := rfl
    rw [hcopyeq] at hcopied
    obtain ⟨s₂, hs₂⟩ : ∃ s₂, s₂ = s₁.copy q (c + sizeofAllocChunk) (b.size - sizeofAllocChunk) :=
      ⟨_, rfl⟩
    rw [← hs₂] at hcopied
    have hareas₂ : s₂.mAreas = s₁.mAreas := by rw [hs₂]; rfl
    -- the old chunk is freed
    have hold : (c, b) ∈ chunks s₂.mAreas h₁ :=
      (hcopied.changed.live _ hlive).mpr (.inl ⟨hcb, Set.notMem_empty _⟩)
    have hnew : (c', b') ∈ chunks s₂.mAreas h₁ := (hcopied.changed.live _ hlive').mpr (.inr rfl)
    obtain ⟨a, ha, hstarts⟩ := hold
    obtain ⟨pre, post, hcut, hc⟩ := exists_split hstarts
    obtain ⟨h', hrep, hchanged, -, hfreed⟩ := hcopied.rep.free ha hcut hlive hc
    have hdef : s.move ptr (c + sizeofAllocChunk) req b.size =
        .ok (s₂.free (c + sizeofAllocChunk), q) := by
      unfold AllocPool.move
      rw [hok, hs₂]
      rfl
    have hreturns := hcopied.rep.free_returns ha hcut hlive hc hrep hchanged hfreed
    have hsub : ∀ a ∈ s.mAreas, a ∈ s₂.mAreas := by
      intro d hd
      rw [hareas₂]
      rcases hareas with heq | ⟨-, d', heq⟩
      · rw [heq]
        exact hd
      · rw [heq]
        exact List.mem_cons_of_mem _ hd
    refine ⟨_, q, hdef, ⟨h', c', b', ⟨hrep, hcopied.changed.replace hchanged hne, halloced.live,
      halloced.addr⟩, hreturns.replace hsub hcopied.changed hchanged hne hlive'⟩,
      fun hnone d hd => ?_, fun w hw => ?_⟩
    · have hd₂ := ((hfreed d).mp hd).1
      rw [hareas₂] at hd₂
      rcases hareas with heq | ⟨hsome, -⟩
      · rw [← heq]
        exact hd₂
      · exact absurd hnone hsome
    · unfold sizeofAllocChunk at hw
      have hmin := (hr.laid.block _ hcb).min
      simp only at hmin
      have hneold : ((c', b') : ℕ × Block) ∉ ({(c, b)} : Set (ℕ × Block)) := hne
      rw [hchanged.payload _ hnew hlive' hneold _ (by simp only; omega) (by simp only; omega), hs₂,
        copy_mem, if_pos (by unfold sizeofAllocChunk; omega)]
      have hsrc : q + w - q + (c + sizeofAllocChunk) = c + sizeofAllocChunk + w := by omega
      rw [hsrc]
      exact halloced.changed.payload _ hcb hlive (Set.notMem_empty _) _
        (by unfold sizeofAllocChunk; simp only; omega)
        (by unfold sizeofAllocChunk; simp only; omega)

end PoopWorms.Server.AllocPool
