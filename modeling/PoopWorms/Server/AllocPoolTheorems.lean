import PoopWorms.Server.AllocPoolRuns

/-!
# The real-time pool over its runs

The pool of a world has one area, and that of the language may grow. From the pool that the
constructor makes, every run of sound calls keeps the chunks of each area in order. `Alloc`
serves what there is room for, `Realloc` keeps the payload, and an area is returned with the
last block in it.
-/

namespace PoopWorms.Server

namespace PoolState

open AllocPool Runs

variable {c c' : PoolState} {h h' : Heap}

/-! ## Blocks -/

/-- The bytes that a block can hold. -/
def payload (s : AllocPool) (inPtr : ℕ) : ℕ := s.oldsize inPtr - sizeofAllocChunk

/-- The chunks are those of the blocks and the free ones, and the blocks are apart and large
enough. -/
structure InOrder (c : PoolState) (h : Heap) : Prop where
  holds : c.Holds h
  apart : ∀ p q, (c.live p).isSome → (c.live q).isSome → p ≠ q →
    p + payload c.pool p ≤ q ∨ q + payload c.pool q ≤ p
  room : ∀ p r, c.live p = some r → r ≤ payload c.pool p

theorem Holds.payload_eq (hc : c.Holds h) {x : ℕ} {b : Block}
    (hb : (x, b) ∈ chunks c.pool.mAreas h) :
    payload c.pool (x + sizeofAllocChunk) = b.size - sizeofAllocChunk := by
  unfold payload oldsize AllocPool.size mSize
  rw [Nat.add_sub_cancel, (hc.rep.laid.tag _ hb).1, (hc.rep.laid.block _ hb).tag_size]

theorem Holds.inOrder (hc : c.Holds h) : c.InOrder h where
  holds := hc
  apart := by
    intro p q hp hq hne
    obtain ⟨x, b, hb, -, rfl⟩ := hc.chunk hp
    obtain ⟨y, d, hd, -, rfl⟩ := hc.chunk hq
    rw [hc.payload_eq hb, hc.payload_eq hd]
    have hmin := (hc.rep.laid.block _ hb).min
    have hmin' := (hc.rep.laid.block _ hd).min
    have hapart := hc.rep.laid.payload_apart hb hd fun heq => hne (by rw [(Prod.mk.inj heq).1])
    unfold sizeofAllocChunk
    simp only at hmin hmin' hapart
    omega
  room := by
    intro p r hp
    obtain ⟨u, hu, hr, rfl⟩ := (hc.live p r).mp hp
    have hroom := (hc.rep.laid.block u hu).room r hr
    rw [hc.payload_eq hu]
    unfold sizeofAllocChunk
    omega

/-- No block is in use in a pool that was just made. -/
theorem holds_new {s : AllocPool} (hr : s.Rep h)
    (hfree : ∀ u ∈ chunks s.mAreas h, u.2.live = none) : Holds ⟨s, fun _ => none⟩ h := by
  refine ⟨hr, fun p r => iff_of_false (by simp) fun hu => ?_⟩
  obtain ⟨u, hmem, hlive, -⟩ := hu
  rw [hfree u hmem] at hlive
  cases hlive

/-! ## Runs of sound calls -/

/-- A pool as it is made: the memory of its first area is large enough for a chunk, and is not
that of the pool itself. -/
structure Made (s : AllocPool) (pool : ℕ) (mem : ℕ → ℕ) (ptr init more : ℕ) : Prop where
  new : AllocPool.new pool mem (some ptr) init more = .ok s
  apart : ptr + (init + kAreaOverhead) ≤ pool ∨ pool + 4096 ≤ ptr
  size : init = 0 ∨ 32 ≤ init ∧ init % 2 = 0

/-- The state that some calls lead to. -/
def after (s : AllocPool) (calls : List PoolCall) : PoolState := run step ⟨s, fun _ => none⟩ calls

/-- The condition on each call of a run. -/
def Keeps (c : PoolState) (call : PoolCall) : Prop := c.Legal call ∧ c.Sound call

variable {pool ptr init more : ℕ} {mem : ℕ → ℕ} {s : AllocPool} {calls : List PoolCall}

/-- Sound calls keep the parameters and the chunks in order; a pool that does not grow keeps
its area. -/
structure Kept (init more : ℕ) (area : AllocArea) (c : PoolState) : Prop where
  holds : ∃ h, c.Holds h
  mAreaInitSize : c.pool.mAreaInitSize = init
  mAreaMoreSize : c.pool.mAreaMoreSize = more
  area : more = 0 → ∀ a, a ∈ c.pool.mAreas ↔ init ≠ 0 ∧ a = area

/-- A pool that does not grow asks for no area. -/
theorem Kept.areaSize {area : AllocArea} (hc : Kept init 0 area c) {size : ℕ} (hsize : 0 < size) :
    c.pool.areaSize size = none := by
  unfold AllocPool.areaSize
  rw [if_pos hc.mAreaMoreSize, if_pos]
  by_cases hzero : init = 0
  · rw [hc.mAreaInitSize, hzero]
    exact .inr hsize
  · have hmem := (hc.area rfl area).mpr ⟨hzero, rfl⟩
    exact .inl (List.ne_nil_of_mem hmem)

theorem Kept.step {area : AllocArea} (hc : Kept init more area c) {call : PoolCall}
    (hcall : c.Keeps call) : Kept init more area (c.step call) := by
  obtain ⟨h, hholds⟩ := hc.holds
  obtain ⟨h', hstep⟩ := hholds.step hcall.1 hcall.2
  refine ⟨⟨h', hstep.holds⟩, hstep.mAreaInitSize.trans hc.mAreaInitSize,
    hstep.mAreaMoreSize.trans hc.mAreaMoreSize, fun hmore a => ?_⟩
  subst hmore
  rw [← hc.area rfl a]
  exact ⟨hstep.areas (fun size hsize => hc.areaSize hsize) a,
    fun ha => (hstep.returns a ha).mpr (.inl hc.mAreaMoreSize)⟩

theorem Made.kept (hm : Made s pool mem ptr init more) :
    Kept init more (areaAt ptr init) ⟨s, fun _ => none⟩ := by
  obtain ⟨h, hr, hfree, hinit, hmore, hareas⟩ := rep_new hm.size hm.apart hm.new
  exact ⟨⟨h, holds_new hr hfree⟩, hinit, hmore, fun _ => hareas⟩

/-- Every run of sound calls keeps the pool in order. -/
theorem Made.run (hm : Made s pool mem ptr init more)
    (hcalls : Guarded step Keeps ⟨s, fun _ => none⟩ calls) :
    Kept init more (areaAt ptr init) (after s calls) :=
  invariant_of_guarded (fun _ _ hc hcall => hc.step hcall) hm.kept hcalls

/-- Pools at address 0: one with an area at 8192, and one that has no area yet. -/
def fixedPool (init : ℕ) : AllocPool :=
  let s : AllocPool := ⟨0, fun _ => 0, fun _ => [], fun _ => 0#32, [], init, 0⟩
  (s.withArea 8192 init).linkFree (areaAt 8192 init).chunk

def growablePool (more : ℕ) : AllocPool :=
  ⟨0, fun _ => 0, fun _ => [], fun _ => 0#32, [], 0, more⟩

theorem fixedPool_new {init : ℕ} (h : init ≠ 0) :
    AllocPool.new 0 (fun _ => 0) (some 8192) init 0 = .ok (fixedPool init) := by
  unfold AllocPool.new
  simp only [if_neg h]
  rfl

theorem made_fixedPool {init : ℕ} (hmin : 32 ≤ init) (heven : init % 2 = 0) :
    Made (fixedPool init) 0 (fun _ => 0) 8192 init 0 :=
  ⟨fixedPool_new (by omega), .inr (by omega), .inr ⟨hmin, heven⟩⟩

theorem made_growablePool (more : ℕ) : Made (growablePool more) 0 (fun _ => 0) 8192 0 more :=
  ⟨rfl, .inr (by decide), .inl rfl⟩

/-! ## The pool of a world -/

/-- The condition on a request to a pool of less than 2 ^ 32 bytes that does not grow: its size
does not overflow, and is not larger by more than 2 ^ 31 than a chunk that it is compared
with. -/
def Fits (s : AllocPool) (inReqSize : ℕ) : Prop :=
  inReqSize + 48 ≤ 2 ^ 64 ∧ ∀ i < 128, binIndex (requestToSize inReqSize) ≤ i →
    ∀ x ∈ s.mBins i, requestToSize inReqSize ≤ s.size x + 2 ^ 31

/-- The condition on a call to it. -/
def SoundFixed (c : PoolState) : PoolCall → Prop
  | .alloc _ inReqSize => Fits c.pool inReqSize
  | .realloc _ inPtr inReqSize =>
    inReqSize + 48 ≤ 2 ^ 64 ∧ (inPtr = 0 ∨ c.pool.Moves inPtr inReqSize → Fits c.pool inReqSize)
  | _ => True

instance (s : AllocPool) (n : ℕ) : Decidable (Fits s n) := inferInstanceAs (Decidable (_ ∧ _))

instance (c : PoolState) (call : PoolCall) : Decidable (c.SoundFixed call) :=
  match call with
  | .alloc _ inReqSize => inferInstanceAs (Decidable (Fits c.pool inReqSize))
  | .free _ => isTrue trivial
  | .realloc _ _ _ => inferInstanceAs (Decidable (_ ∧ _))
  | .write _ _ => isTrue trivial

/-- A chunk of a pool that does not grow is not larger than its area. -/
theorem Kept.serves (hc : Kept init 0 (areaAt ptr init) c) (hinit : init < 2 ^ 32) {n : ℕ}
    (hfits : Fits c.pool n) : Serves c.pool n := by
  have hmin := (requestToSize_spec hfits.1).1
  have hnone := hc.areaSize (by omega : 0 < requestToSize n)
  refine ⟨hfits.1, fun i hi hindex x hx => ⟨hfits.2 i hi hindex x hx, ?_⟩,
    fun _ => ⟨fun k hk => ?_, fun k hk => ?_⟩⟩
  · obtain ⟨h, hholds⟩ := hc.holds
    obtain ⟨k, hmem, -⟩ := (hholds.rep.binned.bin i x).mp hx
    rw [hholds.rep.binned.size x k hmem]
    obtain ⟨b, ⟨a, ha, hu⟩, -, hsize⟩ := hmem
    have hrange := hholds.rep.laid.range ha hu
    have harea : a.mSize = init := by
      rw [((hc.area rfl a).mp ha).2]
      rfl
    simp only at hrange hsize
    omega
  · rw [hnone] at hk
    cases hk
  · rw [hnone] at hk
    cases hk

theorem Kept.sound (hc : Kept init 0 (areaAt ptr init) c) (hinit : init < 2 ^ 32)
    {call : PoolCall} (hcall : c.Legal call ∧ c.SoundFixed call) : c.Keeps call := by
  refine ⟨hcall.1, ?_⟩
  cases call with
  | alloc ptr' n => exact hc.serves hinit hcall.2
  | free p => trivial
  | realloc ptr' p n => exact ⟨hcall.2.1, fun hp => hc.serves hinit (hcall.2.2 hp)⟩
  | write w v => trivial

/-- The pool as `World_New` makes it, with `mRealTimeMemorySize * 1024` bytes of 32 bits: after
every run of calls that meet the condition its chunks tile the area, agree at both ends, are
coalesced and in their bins, and the blocks are apart and large enough. -/
theorem worldPool_inOrder (mRealTimeMemorySize : ℕ)
    (hapart : ptr + (mRealTimeMemorySize * 1024 % 2 ^ 32 + kAreaOverhead) ≤ pool ∨
      pool + 4096 ≤ ptr)
    (hnew : AllocPool.new pool mem (some ptr) (mRealTimeMemorySize * 1024 % 2 ^ 32) 0 = .ok s)
    (hcalls : Guarded step (fun c call => c.Legal call ∧ c.SoundFixed call) ⟨s, fun _ => none⟩
      calls) :
    ∃ h, InOrder (after s calls) h ∧
      ∀ a, a ∈ (after s calls).pool.mAreas ↔ a ∈ s.mAreas := by
  have hlt : mRealTimeMemorySize * 1024 % 2 ^ 32 < 2 ^ 32 := Nat.mod_lt _ (by decide)
  have hm : Made s pool mem ptr (mRealTimeMemorySize * 1024 % 2 ^ 32) 0 :=
    ⟨hnew, hapart, by omega⟩
  have hrun : Kept (mRealTimeMemorySize * 1024 % 2 ^ 32) 0 _ (after s calls) :=
    invariant_of_guarded (fun _ _ hc hcall => hc.step (hc.sound hlt hcall)) hm.kept hcalls
  obtain ⟨h, hholds⟩ := hrun.holds
  exact ⟨h, hholds.inOrder, fun a => (hrun.area rfl a).trans (hm.kept.area rfl a).symm⟩

theorem worldPool_inOrder_small :
    let calls := [.alloc none 100, .alloc none 200, .free 8256, .realloc none 8400 300]
    ∃ h, InOrder (after (fixedPool 65536) calls) h ∧
      ∀ a, a ∈ (after (fixedPool 65536) calls).pool.mAreas ↔ a ∈ (fixedPool 65536).mAreas :=
  worldPool_inOrder 64 (.inr (by decide)) (fixedPool_new (by decide))
    ⟨⟨⟨by decide, fun _ p hp => nomatch hp⟩, by decide +kernel⟩,
      ⟨⟨by decide, fun _ p hp => nomatch hp⟩, by decide +kernel⟩,
      ⟨.inr (by decide +kernel), trivial⟩,
      ⟨⟨by decide, .inr (by decide +kernel), fun _ p hp => nomatch hp⟩, by decide, by decide +kernel⟩,
      trivial⟩

/-- A size that overflows gives a block without any payload. -/
theorem not_worldPool_inOrder_overflow :
    AllocPool.new 0 (fun _ => 0) (some 8192) (64 * 1024 % 2 ^ 32) 0 = .ok (fixedPool 65536) ∧
      Guarded step Legal ⟨fixedPool 65536, fun _ => none⟩ [.alloc none (2 ^ 64 - 32)] ∧
      ¬ ∃ h, InOrder (after (fixedPool 65536) [.alloc none (2 ^ 64 - 32)]) h := by
  refine ⟨fixedPool_new (by decide), ⟨⟨by decide, fun _ p hp => nomatch hp⟩, trivial⟩,
    fun hin => ?_⟩
  obtain ⟨h, hin⟩ := hin
  have hroom := hin.room 8256 (2 ^ 64 - 32) (by decide)
  have hpayload : payload (after (fixedPool 65536) [.alloc none (2 ^ 64 - 32)]).pool 8256 = 0 := by
    decide
  omega

/-! ## What `Alloc` serves -/

/-- `Alloc` of a pool that does not grow fails only if no free chunk is large enough, as long as
none is larger by 2 ^ 31 or more. -/
theorem alloc_fails_full (hm : Made s pool mem ptr init 0)
    (hcalls : Guarded step Keeps ⟨s, fun _ => none⟩ calls) {n : ℕ}
    (hcond : ∀ i < 128, ∀ x ∈ (after s calls).pool.mBins i,
      (after s calls).pool.size x < requestToSize n + 2 ^ 31)
    {ptr' : Option ℕ} {e : AllocError}
    (hfails : (after s calls).pool.alloc ptr' n = .error e) :
    ∃ h, InOrder (after s calls) h ∧
      ∀ u ∈ freeOf (chunks (after s calls).pool.mAreas h),
        u.2 < requestToSize n := by
  obtain ⟨h, hholds⟩ := (hm.run hcalls).holds
  refine ⟨h, hholds.inOrder, fun u hu => ?_⟩
  have hsearch : (after s calls).pool.search (requestToSize n) = none := by
    cases hfound : (after s calls).pool.search (requestToSize n) with
    | none => rfl
    | some fit =>
      unfold AllocPool.alloc at hfails
      simp only [hfound] at hfails
      cases fit <;> cases hfails
  have hmem := (hholds.rep.binned.bin _ u.1).mpr ⟨u.2, hu, rfl⟩
  have hsmall := hcond _ (binIndex_lt _) _ hmem
  rw [hholds.rep.binned.size u.1 u.2 hu] at hsmall
  rcases search_none hholds.rep.binned hsearch u hu with hlt | hlarge
  · exact hlt
  · omega

/-- A pool that has its one area fails where the search does. -/
theorem alloc_allocFailed {n : ℕ} (hsearch : s.search (requestToSize n) = none)
    (hmore : s.mAreaMoreSize = 0) (hareas : s.mAreas ≠ []) (ptr' : Option ℕ) :
    s.alloc ptr' n = .error .allocFailed := by
  unfold AllocPool.alloc
  simp only [hsearch]
  rw [if_pos hmore, if_pos (.inl hareas)]

theorem alloc_fails_full_small :
    (after (fixedPool 1024) [.alloc none 100]).pool.alloc none 2000 = .error .allocFailed ∧
      ∃ h, InOrder (after (fixedPool 1024) [.alloc none 100]) h ∧
        ∀ u ∈ freeOf (chunks (after (fixedPool 1024) [.alloc none 100]).pool.mAreas h),
          u.2 < requestToSize 2000 :=
  have hfails := alloc_allocFailed (s := (after (fixedPool 1024) [.alloc none 100]).pool) (n := 2000)
    (by decide) (by decide) (by decide) none
  have hcalls : Guarded step Keeps ⟨fixedPool 1024, fun _ => none⟩ [.alloc none 100] :=
    ⟨⟨⟨by decide, fun _ p hp => nomatch hp⟩, by decide⟩, trivial⟩
  ⟨hfails, alloc_fails_full (made_fixedPool (by decide) (by decide)) hcalls (by decide)
    hfails⟩

/-- A chunk of more than 2 ^ 31 bytes is not found. -/
theorem not_alloc_fails_full_large :
    AllocPool.new 0 (fun _ => 0) (some 8192) (2097153 * 1024 % 2 ^ 32) 0 =
        .ok (fixedPool 2147484672) ∧
      (fixedPool 2147484672).alloc none 16 = .error .allocFailed ∧
      ∀ h, Holds (after (fixedPool 2147484672) []) h →
        ∃ u ∈ freeOf (chunks (fixedPool 2147484672).mAreas h), requestToSize 16 ≤ u.2 := by
  refine ⟨fixedPool_new (by decide), ?_, fun h hholds => ?_⟩
  · exact alloc_allocFailed (by decide) rfl (by decide) none
  · have hmem : 8224 ∈ (fixedPool 2147484672).mBins 127 := by decide
    obtain ⟨n, hfree, -⟩ := (hholds.rep.binned.bin 127 8224).mp hmem
    refine ⟨_, hfree, ?_⟩
    rw [← hholds.rep.binned.size 8224 n hfree]
    decide

/-! ## What `Realloc` keeps -/

theorem Holds.same_others (hc : c.Holds h) {s' : AllocPool} {x req q x' : ℕ} {b b' : Block}
    (hr : Realloced c.pool s' h h' req q x b x' b') {p : ℕ} (hp : (c.live p).isSome)
    (hne : p ≠ x + sizeofAllocChunk) : SameBytes c.pool s' p p (payload c.pool p) := by
  intro w hw
  obtain ⟨y, d, hd, hlive, rfl⟩ := hc.chunk hp
  rw [hc.payload_eq hd] at hw
  have hmin := (hc.rep.laid.block _ hd).min
  unfold sizeofAllocChunk at hw ⊢
  simp only at hmin
  refine hr.changed.payload (y, d) hd (by rw [hlive]; exact hp) (fun heq => hne ?_) _
    (by simp only; omega) (by simp only; omega)
  rw [(Prod.mk.inj heq).1]

/-- `Realloc` of a block keeps as much of its payload as both sizes have, and all of those of the
other blocks, unless the header of what is given back lies within the payload. -/
theorem realloc_sameBytes (hm : Made s pool mem ptr init more)
    (hcalls : Guarded step Keeps ⟨s, fun _ => none⟩ calls) {p n q : ℕ} {ptr' : Option ℕ}
    {s' : AllocPool} (hp : ((after s calls).live p).isSome)
    (hcall : Keeps (after s calls) (.realloc ptr' p n))
    (hover : ¬ (after s calls).pool.Overlaps p n)
    (hok : (after s calls).pool.realloc ptr' p n = .ok (s', q)) :
    SameBytes (after s calls).pool s' p q
        (min (payload (after s calls).pool p) n) ∧
      ∀ p', ((after s calls).live p').isSome → p' ≠ p →
        SameBytes (after s calls).pool s' p' p'
          (payload (after s calls).pool p') := by
  obtain ⟨h, hc⟩ := (hm.run hcalls).holds
  generalize after s calls = c at *
  obtain ⟨x, b, hmem, hlive, rfl⟩ := hc.chunk hp
  rw [← hlive] at hp
  obtain ⟨⟨-, hblock, hg⟩, hreq, hserves⟩ := hcall
  by_cases hmoves : c.pool.Moves (x + sizeofAllocChunk) n
  · obtain ⟨hlarger, heq⟩ := hc.rep.realloc_moves hmem hp hmoves ptr'
    rcases hc.rep.move hmem hp hreq hlarger ((hserves (.inr hmoves)).allocable hc.rep hg) with
      ⟨e, hfails⟩ | ⟨s₁, q₁, hok₁, hmoved⟩
    · cases hok.symm.trans (heq.trans hfails)
    · cases hok.symm.trans (heq.trans hok₁)
      obtain ⟨h', x', b', hrealloc, -⟩ := hmoved.realloced
      refine ⟨fun w hw => ?_, fun p' hp' hne => hc.same_others hrealloc hp' hne⟩
      rw [hc.payload_eq hmem] at hw
      exact hmoved.bytes w (by omega)
  · obtain ⟨a, ha, hstarts⟩ := id hmem
    obtain ⟨pre, post, hcut, hx⟩ := Tiling.exists_split hstarts
    obtain ⟨s₁, q₁, hok₁, hresized⟩ :=
      hc.rep.realloc_stays ha hcut hp hx hreq hmoves ptr'
    cases hok.symm.trans hok₁
    obtain ⟨h', x', b', hrealloc, -⟩ := hresized.realloced
    refine ⟨?_, fun p' hp' hne => hc.same_others hrealloc hp' hne⟩
    rw [hc.payload_eq hmem]
    exact hresized.bytes hover

/-- A block shrinks. -/
theorem realloc_sameBytes_shrink :
    let c := after (fixedPool 65536) [.alloc none 100]
    ∃ s' q, c.pool.realloc none 8256 20 = .ok (s', q) ∧
      SameBytes c.pool s' 8256 q (min (payload c.pool 8256) 20) ∧
      ∀ p', (c.live p').isSome → p' ≠ 8256 → SameBytes c.pool s' p' p' (payload c.pool p') := by
  intro c
  have hcalls : Guarded step Keeps ⟨fixedPool 65536, fun _ => none⟩ [.alloc none 100] :=
    ⟨⟨⟨by decide, fun _ p hp => nomatch hp⟩, by decide⟩, trivial⟩
  have hcall : Keeps c (.realloc none 8256 20) :=
    ⟨⟨by decide, .inr (by decide), fun _ p hp => nomatch hp⟩, by decide⟩
  have hsome : (c.pool.realloc none 8256 20).toOption.isSome := by decide
  cases hok : c.pool.realloc none 8256 20 with
  | error e => simp [hok, Except.toOption] at hsome
  | ok r =>
    exact ⟨r.1, r.2, rfl, realloc_sameBytes (made_fixedPool (by decide) (by decide)) hcalls
      (by decide) hcall (by decide) hok⟩

/-- The header of what is given back destroys a word of the payload. -/
theorem not_realloc_sameBytes_overlaps :
    let calls := [.alloc none 32, .alloc none 32, .alloc none 32, .free 8256]
    let c := after (fixedPool 65536) calls
    Guarded step Keeps ⟨fixedPool 65536, fun _ => none⟩ calls ∧ (c.live 8320).isSome ∧
      Keeps c (.realloc none 8320 64) ∧
      ∃ s' q, c.pool.realloc none 8320 64 = .ok (s', q) ∧
        ¬ SameBytes c.pool s' 8320 q (min (payload c.pool 8320) 64) := by
  intro calls c
  refine ⟨⟨⟨⟨by decide, fun _ p hp => nomatch hp⟩, by decide +kernel⟩,
    ⟨⟨by decide, fun _ p hp => nomatch hp⟩, by decide +kernel⟩,
    ⟨⟨by decide, fun _ p hp => nomatch hp⟩, by decide +kernel⟩,
    ⟨.inr (by decide +kernel), trivial⟩, trivial⟩, by decide +kernel,
    ⟨⟨by decide, .inr (by decide +kernel), fun _ p hp => nomatch hp⟩, by decide +kernel⟩, ?_⟩
  have hword : ((c.pool.realloc none 8320 64).toOption.map fun r => r.1.mem (r.2 + 24)) =
      some 32 := by decide +kernel
  cases hok : c.pool.realloc none 8320 64 with
  | error e => simp [hok, Except.toOption] at hword
  | ok r =>
    refine ⟨r.1, r.2, rfl, fun hsame => ?_⟩
    rw [hok] at hword
    have hkept := (hsame 24 (by decide +kernel)).symm.trans (Option.some.inj hword)
    exact absurd hkept (by decide +kernel)

/-! ## Areas that come and go -/

/-- The chunk of a block is in an area. -/
def InArea (a : AllocArea) (inPtr : ℕ) : Prop :=
  a.chunk ≤ inPtr - sizeofAllocChunk ∧ inPtr - sizeofAllocChunk < a.chunk + a.mSize

theorem Holds.hasLive_iff (hc : c.Holds h) (a : AllocArea) :
    HasLive c.pool h a ↔ ∃ p, (c.live p).isSome ∧ InArea a p := by
  unfold InArea
  constructor
  · intro hlive
    obtain ⟨u, hu, hulive, hrange⟩ := hlive
    obtain ⟨r, hr⟩ := Option.isSome_iff_exists.mp hulive
    refine ⟨u.1 + sizeofAllocChunk, ?_, by rw [Nat.add_sub_cancel]; exact hrange⟩
    rw [(hc.live _ r).mpr ⟨u, hu, hr, rfl⟩]
    rfl
  · intro hlive
    obtain ⟨p, hp, hrange⟩ := hlive
    obtain ⟨x, b, hb, hblive, rfl⟩ := hc.chunk hp
    rw [Nat.add_sub_cancel] at hrange
    exact ⟨(x, b), hb, by rw [hblive]; exact hp, hrange⟩

/-- A growable pool keeps each of its areas in order, also those that it gets, and a call returns
an area exactly when it frees the last block in it. -/
theorem growable_areas (hm : Made s pool mem ptr init more) (hgrow : more ≠ 0)
    (hcalls : Guarded step Keeps ⟨s, fun _ => none⟩ calls) {call : PoolCall}
    (hcall : Keeps (after s calls) call) :
    ∃ h h', InOrder (after s calls) h ∧ InOrder ((after s calls).step call) h' ∧
      ∀ a ∈ (after s calls).pool.mAreas, a ∉ ((after s calls).step call).pool.mAreas ↔
        (∃ p, ((after s calls).live p).isSome ∧ InArea a p) ∧
          ¬ ∃ p, (((after s calls).step call).live p).isSome ∧ InArea a p := by
  have hrun := hm.run hcalls
  obtain ⟨h, hc⟩ := hrun.holds
  obtain ⟨h', hstep⟩ := hc.step hcall.1 hcall.2
  refine ⟨h, h', hc.inOrder, hstep.holds.inOrder, fun a ha => ?_⟩
  rw [hstep.returns a ha, hrun.mAreaMoreSize, hc.hasLive_iff, hstep.holds.hasLive_iff]
  simp only [hgrow, false_or, not_or, not_not]
  exact and_comm

/-- Memory behind the pool may become its first area. -/
theorem legal_first {n : ℕ} (hn : n < 2 ^ 64) :
    Legal ⟨growablePool more, fun _ => none⟩ (.alloc (some 8192) n) := by
  refine ⟨hn, fun _ p hp k _ => ?_⟩
  obtain rfl := Option.some.inj hp
  refine ⟨fun b hb => absurd hb List.not_mem_nil, .inr ?_⟩
  show 0 + 4096 ≤ 8192
  decide

/-- The last block of an area is freed, and the area with it. -/
theorem growable_areas_free :
    let c := after (growablePool 65536) [.alloc (some 8192) 100]
    ∃ h h', InOrder c h ∧ InOrder (c.step (.free 8256)) h' ∧
      ∀ a ∈ c.pool.mAreas, a ∉ (c.step (.free 8256)).pool.mAreas ↔
        (∃ p, (c.live p).isSome ∧ InArea a p) ∧
          ¬ ∃ p, ((c.step (.free 8256)).live p).isSome ∧ InArea a p :=
  have hcalls : Guarded step Keeps ⟨growablePool 65536, fun _ => none⟩ [.alloc (some 8192) 100] :=
    ⟨⟨legal_first (by decide), by decide⟩, trivial⟩
  growable_areas (made_growablePool 65536) (by decide) hcalls ⟨.inr (by decide), trivial⟩

/-- The remainder of a new area is 0, and the word behind the area is overwritten. -/
theorem not_growable_areas_exact :
    Legal ⟨growablePool 65536, fun _ => none⟩ (.alloc (some 8192) 65504) ∧
      ∀ h, ¬ Holds (after (growablePool 65536) [.alloc (some 8192) 65504]) h := by
  refine ⟨legal_first (by decide), fun h hholds => ?_⟩
  have hlast := hholds.rep.laid.last (areaAt 8192 65536) (by decide)
  exact absurd hlast (by decide)

end PoolState

end PoopWorms.Server
