import PoopWorms.Lib.Runs
import PoopWorms.Server.AllocPoolRealloc

/-!
# Runs of the pool

The callers of the pool allocate, free and reallocate blocks, and write to the blocks that they
hold and to memory that is not that of the pool. The chunks stay in order as long as the sizes
are told apart from others: `Serves` is the condition on a request.
-/

namespace PoopWorms.Server

/-- The pool, with the number of bytes that was requested for each block in use. -/
structure PoolState where
  pool : AllocPool
  live : ℕ → Option ℕ

inductive PoolCall
  | alloc (ptr : Option ℕ) (inReqSize : ℕ)
  | free (inPtr : ℕ)
  | realloc (ptr : Option ℕ) (inPtr inReqSize : ℕ)
  | write (address word : ℕ)

namespace PoolState

open AllocPool

/-- A call that throws leaves everything as it is. -/
def step (c : PoolState) : PoolCall → PoolState
  | .alloc ptr inReqSize =>
    match c.pool.alloc ptr inReqSize with
    | .ok (pool, outPtr) => ⟨pool, Function.update c.live outPtr (some inReqSize)⟩
    | .error _ => c
  | .free inPtr => ⟨c.pool.free inPtr, Function.update c.live inPtr none⟩
  | .realloc ptr inPtr inReqSize =>
    match c.pool.realloc ptr inPtr inReqSize with
    | .ok (pool, outPtr) =>
      ⟨pool, Function.update (Function.update c.live inPtr none) outPtr (some inReqSize)⟩
    | .error _ => c
  | .write address word => ⟨c.pool.store address word, c.live⟩

section Results

variable {c : PoolState} {s' : AllocPool} {ptr : Option ℕ} {p n q : ℕ} {e : AllocError}

theorem step_alloc_ok (h : c.pool.alloc ptr n = .ok (s', q)) :
    c.step (.alloc ptr n) = ⟨s', Function.update c.live q (some n)⟩ := by
  unfold step
  simp only [h]

theorem step_alloc_error (h : c.pool.alloc ptr n = .error e) : c.step (.alloc ptr n) = c := by
  unfold step
  simp only [h]

theorem step_realloc_ok (h : c.pool.realloc ptr p n = .ok (s', q)) :
    c.step (.realloc ptr p n) =
      ⟨s', Function.update (Function.update c.live p none) q (some n)⟩ := by
  unfold step
  simp only [h]

theorem step_realloc_error (h : c.pool.realloc ptr p n = .error e) :
    c.step (.realloc ptr p n) = c := by
  unfold step
  simp only [h]

end Results

/-! ## What the callers may do -/

/-- The memory that the area allocator returns, if it is asked for some. -/
def Granted (s : AllocPool) (ptr : Option ℕ) (inReqSize : ℕ) : Prop :=
  s.search (requestToSize inReqSize) = none → ∀ p ∈ ptr, ∀ n ∈ s.areaSize (requestToSize inReqSize),
    s.Grants p ((n + kAreaOverhead) % 2 ^ 64)

/-- A word of a block in use, or one that is neither in an area nor in the pool. -/
def Writable (c : PoolState) (w : ℕ) : Prop :=
  (∃ p r, c.live p = some r ∧ p ≤ w ∧ w < p + r) ∨
    (∀ a ∈ c.pool.mAreas, w < a.mUnalignedPointerToThis ∨ a.stop ≤ w) ∧
      (w < c.pool.self ∨ c.pool.self + 4096 ≤ w)

/-- Only blocks in use are freed, and a size is a `size_t`. -/
def Legal (c : PoolState) : PoolCall → Prop
  | .alloc ptr inReqSize => inReqSize < 2 ^ 64 ∧ Granted c.pool ptr inReqSize
  | .free inPtr => inPtr = 0 ∨ (c.live inPtr).isSome
  | .realloc ptr inPtr inReqSize =>
    inReqSize < 2 ^ 64 ∧ (inPtr = 0 ∨ (c.live inPtr).isSome) ∧ Granted c.pool ptr inReqSize
  | .write address _ => c.Writable address

/-! ## The condition -/

/-- The `int32` differences to the chunks that the search sees are those of the sizes, or are
negative for a chunk that is too large. -/
def Tells (s : AllocPool) (size : ℕ) : Prop :=
  ∀ i < 128, binIndex size ≤ i → ∀ x ∈ s.mBins i, size ≤ s.size x + 2 ^ 31 ∧ s.size x < size + 2 ^ 32

/-- The condition on a request that `Alloc` serves: its size does not overflow, it can be told
from the sizes of the free chunks, and a new area that is cut has room for a free chunk. -/
def Serves (s : AllocPool) (inReqSize : ℕ) : Prop :=
  inReqSize + 48 ≤ 2 ^ 64 ∧ Tells s (requestToSize inReqSize) ∧
    (s.search (requestToSize inReqSize) = none → s.Splits (requestToSize inReqSize) ∧
      ∀ n ∈ s.areaSize (requestToSize inReqSize), n + kAreaOverhead < 2 ^ 64)

/-- The condition on a call. -/
def Sound (c : PoolState) : PoolCall → Prop
  | .alloc _ inReqSize => Serves c.pool inReqSize
  | .realloc _ inPtr inReqSize =>
    inReqSize + 48 ≤ 2 ^ 64 ∧ (inPtr = 0 ∨ c.pool.Moves inPtr inReqSize → Serves c.pool inReqSize)
  | _ => True

instance (s : AllocPool) (size : ℕ) : Decidable (Tells s size) :=
  inferInstanceAs (Decidable (∀ _ < _, _))

instance (s : AllocPool) (inReqSize : ℕ) : Decidable (Serves s inReqSize) :=
  inferInstanceAs (Decidable (_ ∧ _))

instance (c : PoolState) (call : PoolCall) : Decidable (c.Sound call) :=
  match call with
  | .alloc _ inReqSize => inferInstanceAs (Decidable (Serves c.pool inReqSize))
  | .free _ => isTrue trivial
  | .realloc _ _ _ => inferInstanceAs (Decidable (_ ∧ _))
  | .write _ _ => isTrue trivial

/-! ## The invariant -/

/-- The chunks of the pool, of which those in use are the blocks of the callers. -/
structure Holds (c : PoolState) (h : Heap) : Prop where
  rep : c.pool.Rep h
  live : ∀ p r, c.live p = some r ↔
    ∃ u ∈ chunks c.pool.mAreas h, u.2.live = some r ∧ p = u.1 + sizeofAllocChunk

variable {c c' : PoolState} {h h' : Heap} {s' : AllocPool}

/-- The chunk of a block. -/
theorem Holds.chunk (hc : c.Holds h) {p : ℕ} (hp : (c.live p).isSome = true) :
    ∃ x b, (x, b) ∈ chunks c.pool.mAreas h ∧ b.live = c.live p ∧ p = x + sizeofAllocChunk := by
  obtain ⟨r, hr⟩ := Option.isSome_iff_exists.mp hp
  obtain ⟨u, hu, hlive, haddr⟩ := (hc.live p r).mp hr
  exact ⟨u.1, u.2, hu, hlive.trans hr.symm, haddr⟩

/-- The blocks after chunks have changed. -/
theorem holds_of_changed (hrep : s'.Rep h') {old new : Set (ℕ × Block)}
    (hchanged : Changed c.pool s' h h' old new) {live' : ℕ → Option ℕ}
    (hlive : ∀ p r, live' p = some r ↔ (∃ u ∈ chunks c.pool.mAreas h, u ∉ old ∧ u.2.live = some r ∧
      p = u.1 + sizeofAllocChunk) ∨ ∃ u ∈ new, u.2.live = some r ∧ p = u.1 + sizeofAllocChunk) :
    Holds ⟨s', live'⟩ h' := by
  refine ⟨hrep, fun p r => ?_⟩
  rw [hlive]
  constructor
  · intro hblock
    rcases hblock with ⟨u, hu, hnot, hr, hp⟩ | ⟨u, hu, hr, hp⟩
    · exact ⟨u, (hchanged.live u (by rw [hr]; rfl)).mpr (.inl ⟨hu, hnot⟩), hr, hp⟩
    · exact ⟨u, (hchanged.live u (by rw [hr]; rfl)).mpr (.inr hu), hr, hp⟩
  · intro hblock
    obtain ⟨u, hu, hr, hp⟩ := hblock
    rcases (hchanged.live u (by rw [hr]; rfl)).mp hu with hold | hnew
    · exact .inl ⟨u, hold.1, hold.2, hr, hp⟩
    · exact .inr ⟨u, hnew, hr, hp⟩

/-- A block comes at the address of a chunk that was not in use. -/
theorem Holds.alloced (hc : c.Holds h) {req q x : ℕ} {b : Block}
    (ha : Alloced c.pool s' h h' req q x b) :
    Holds ⟨s', Function.update c.live q (some req)⟩ h' := by
  apply holds_of_changed ha.rep ha.changed
  intro p r
  have hfresh : ∀ u ∈ chunks c.pool.mAreas h, u.2.live = some r → q ≠ u.1 + sizeofAllocChunk := by
    intro u hu hr heq
    have hsame : x = u.1 := Nat.add_right_cancel (ha.addr.symm.trans heq)
    exact ha.fresh u.2 (by rw [hr]; rfl) (hsame ▸ hu)
  by_cases hp : p = q
  · rw [hp, Function.update_self]
    constructor
    · intro heq
      exact .inr ⟨_, rfl, by rw [ha.live]; exact heq, ha.addr⟩
    · intro hblock
      rcases hblock with ⟨u, hu, -, hr, hq⟩ | ⟨u, hu, hr, -⟩
      · exact absurd hq (hfresh u hu hr)
      · rw [Set.mem_singleton_iff.mp hu, ha.live] at hr
        exact hr
  · rw [Function.update_of_ne hp, hc.live]
    constructor
    · intro hblock
      obtain ⟨u, hu, hr, hq⟩ := hblock
      exact .inl ⟨u, hu, Set.notMem_empty u, hr, hq⟩
    · intro hblock
      rcases hblock with ⟨u, hu, -, hr, hq⟩ | ⟨u, hu, hr, hq⟩
      · exact ⟨u, hu, hr, hq⟩
      · rw [Set.mem_singleton_iff.mp hu] at hq
        exact absurd (hq.trans ha.addr.symm) hp

/-- A block goes. -/
theorem Holds.freed (hc : c.Holds h) {x : ℕ} {b : Block}
    (hb : (x, b) ∈ chunks c.pool.mAreas h) (hrep : s'.Rep h')
    (hchanged : Changed c.pool s' h h' {(x, b)} ∅) :
    Holds ⟨s', Function.update c.live (x + sizeofAllocChunk) none⟩ h' := by
  apply holds_of_changed hrep hchanged
  intro p r
  by_cases hp : p = x + sizeofAllocChunk
  · rw [hp, Function.update_self]
    refine iff_of_false (by simp) fun hblock => ?_
    rcases hblock with ⟨u, hu, hnot, -, hq⟩ | ⟨u, hu, -⟩
    · have hsame : x = u.1 := Nat.add_right_cancel hq
      have hu' : (x, u.2) ∈ chunks c.pool.mAreas h := hsame ▸ hu
      exact hnot (Prod.ext hsame.symm (hc.rep.laid.unique hu' hb))
    · exact Set.notMem_empty u hu
  · rw [Function.update_of_ne hp, hc.live]
    constructor
    · intro hblock
      obtain ⟨u, hu, hr, hq⟩ := hblock
      refine .inl ⟨u, hu, fun heq => hp ?_, hr, hq⟩
      rw [hq, Set.mem_singleton_iff.mp heq]
    · intro hblock
      rcases hblock with ⟨u, hu, -, hr, hq⟩ | ⟨u, hu, -⟩
      · exact ⟨u, hu, hr, hq⟩
      · exact absurd hu (Set.notMem_empty u)

/-- A block is replaced by another one. -/
theorem Holds.realloced (hc : c.Holds h) {req q x x' : ℕ} {b b' : Block}
    (hb : (x, b) ∈ chunks c.pool.mAreas h) (hr : Realloced c.pool s' h h' req q x b x' b') :
    Holds ⟨s', Function.update (Function.update c.live (x + sizeofAllocChunk) none) q
      (some req)⟩ h' := by
  apply holds_of_changed hr.rep hr.changed
  intro p r
  have hlive' : b'.live.isSome = true := by
    rw [hr.live]
    rfl
  have hnew : (x', b') ∈ chunks s'.mAreas h' := (hr.changed.live _ hlive').mpr (.inr rfl)
  -- another block that stays is not at the new address
  have hfresh : ∀ u ∈ chunks c.pool.mAreas h, u ∉ ({(x, b)} : Set (ℕ × Block)) →
      u.2.live = some r → q = u.1 + sizeofAllocChunk → req = r := by
    intro u hu hnot hur heq
    have hsame : x' = u.1 := Nat.add_right_cancel (hr.addr.symm.trans heq)
    have hu' : (x', u.2) ∈ chunks s'.mAreas h' := by
      rw [hsame]
      exact (hr.changed.live u (by rw [hur]; rfl)).mpr (.inl ⟨hu, hnot⟩)
    rw [hr.rep.laid.unique hu' hnew, hr.live] at hur
    exact Option.some.inj hur
  by_cases hp : p = q
  · rw [hp, Function.update_self]
    constructor
    · intro heq
      exact .inr ⟨_, rfl, by rw [hr.live]; exact heq, hr.addr⟩
    · intro hblock
      rcases hblock with ⟨u, hu, hnot, hur, hq⟩ | ⟨u, hu, hur, -⟩
      · rw [hfresh u hu hnot hur hq]
      · rw [Set.mem_singleton_iff.mp hu, hr.live] at hur
        exact hur
  · rw [Function.update_of_ne hp]
    by_cases hold : p = x + sizeofAllocChunk
    · rw [hold, Function.update_self]
      refine iff_of_false (by simp) fun hblock => ?_
      rcases hblock with ⟨u, hu, hnot, -, hq⟩ | ⟨u, hu, -, hq⟩
      · have hsame : x = u.1 := Nat.add_right_cancel hq
        have hu' : (x, u.2) ∈ chunks c.pool.mAreas h := hsame ▸ hu
        exact hnot (Prod.ext hsame.symm (hc.rep.laid.unique hu' hb))
      · rw [Set.mem_singleton_iff.mp hu] at hq
        exact hp (hold.trans (hq.trans hr.addr.symm))
    · rw [Function.update_of_ne hold, hc.live]
      constructor
      · intro hblock
        obtain ⟨u, hu, hur, hq⟩ := hblock
        refine .inl ⟨u, hu, fun heq => hold ?_, hur, hq⟩
        rw [hq, Set.mem_singleton_iff.mp heq]
      · intro hblock
        rcases hblock with ⟨u, hu, -, hur, hq⟩ | ⟨u, hu, -, hq⟩
        · exact ⟨u, hu, hur, hq⟩
        · rw [Set.mem_singleton_iff.mp hu] at hq
          exact absurd (hq.trans hr.addr.symm) hp

/-! ## Steps -/

/-- What a call that is sound does to the pool. -/
structure Steps (c c' : PoolState) (h h' : Heap) : Prop where
  holds : c'.Holds h'
  returns : Returns c.pool c'.pool h h'
  mAreaInitSize : c'.pool.mAreaInitSize = c.pool.mAreaInitSize
  mAreaMoreSize : c'.pool.mAreaMoreSize = c.pool.mAreaMoreSize
  areas : (∀ size, 0 < size → c.pool.areaSize size = none) →
    ∀ a ∈ c'.pool.mAreas, a ∈ c.pool.mAreas

theorem Holds.stays (hc : c.Holds h) : Steps c c h h :=
  ⟨hc, Returns.of_subset (fun _ ha => ha) (fun _ _ hlive => hlive), rfl, rfl, fun _ _ ha => ha⟩

/-- The sizes that can be told apart are comparable. -/
theorem Tells.comparable {s : AllocPool} {F : Set (ℕ × ℕ)} {size : ℕ} (ht : Tells s size)
    (hb : s.Binned F) : Comparable F size := by
  intro u hu hindex
  have hmem := (hb.bin _ u.1).mpr ⟨u.2, hu, rfl⟩
  have := ht _ (binIndex_lt _) hindex _ hmem
  rw [hb.size u.1 u.2 hu] at this
  exact this

theorem Serves.allocable {s : AllocPool} {ptr : Option ℕ} {req : ℕ} (hs : Serves s req)
    (hr : s.Rep h) (hg : Granted s ptr req) : s.Allocable h ptr req where
  comparable := hs.2.1.comparable hr.binned
  splits := fun hsearch => (hs.2.2 hsearch).1
  grants := fun hsearch p n hp hn => by
    have hlt := (hs.2.2 hsearch).2 n hn
    have hgrants := hg hsearch p hp n hn
    rw [Nat.mod_eq_of_lt hlt] at hgrants
    exact hgrants

theorem Holds.alloc_steps (hc : c.Holds h) {ptr : Option ℕ} {req : ℕ} (hs : Serves c.pool req)
    (hg : Granted c.pool ptr req) : ∃ h', Steps c (c.step (.alloc ptr req)) h h' := by
  have ha := hs.allocable hc.rep hg
  have hmin := (requestToSize_spec hs.1).1
  rcases hc.rep.alloc hs.1 ha.comparable ha.splits ha.grants with
    ⟨e, hfails⟩ | ⟨s', q, hok, ⟨h', x, b, halloced⟩, hareas⟩
  · rw [step_alloc_error hfails]
    exact ⟨h, hc.stays⟩
  · rw [step_alloc_ok hok]
    refine ⟨h', hc.alloced halloced, Returns.of_subset (fun d hd => ?_) (fun d _ hlive => ?_),
      halloced.changed.mAreaInitSize, halloced.changed.mAreaMoreSize, fun hnone d hd => ?_⟩
    · rcases hareas with heq | ⟨-, d', heq⟩
      · exact heq ▸ hd
      · show d ∈ s'.mAreas
        rw [heq]
        exact List.mem_cons_of_mem _ hd
    · obtain ⟨u, hu, hulive, hrange⟩ := hlive
      exact ⟨u, (halloced.changed.live u hulive).mpr (.inl ⟨hu, Set.notMem_empty u⟩), hulive,
        hrange⟩
    · rcases hareas with heq | ⟨hsome, -⟩
      · exact heq ▸ hd
      · exact absurd (hnone _ (by omega)) hsome

/-- No block is at address 0. -/
theorem Holds.live_zero (hc : c.Holds h) : c.live 0 = none := by
  cases hzero : c.live 0 with
  | none => rfl
  | some r =>
    obtain ⟨u, -, -, haddr⟩ := (hc.live 0 r).mp hzero
    unfold sizeofAllocChunk at haddr
    omega

theorem Holds.update_zero (hc : c.Holds h) : Function.update c.live 0 none = c.live := by
  rw [← hc.live_zero]
  exact Function.update_eq_self 0 c.live

theorem Holds.free_steps (hc : c.Holds h) {p : ℕ} (hp : p = 0 ∨ (c.live p).isSome) :
    ∃ h', Steps c (c.step (.free p)) h h' := by
  rcases hp with rfl | hp
  · have hsame : c.step (.free 0) = c := by
      show (⟨c.pool.free 0, Function.update c.live 0 none⟩ : PoolState) = c
      rw [hc.update_zero]
      rfl
    rw [hsame]
    exact ⟨h, hc.stays⟩
  · obtain ⟨x, b, hmem, hlive, rfl⟩ := hc.chunk hp
    rw [← hlive] at hp
    obtain ⟨a, ha, hstarts⟩ := id hmem
    obtain ⟨pre, post, hcut, hx⟩ := Tiling.exists_split hstarts
    obtain ⟨h', hrep, hchanged, -, hareas⟩ := hc.rep.free ha hcut hp hx
    exact ⟨h', hc.freed hmem hrep hchanged, hc.rep.free_returns ha hcut hp hx hrep hchanged hareas,
      hchanged.mAreaInitSize, hchanged.mAreaMoreSize, fun _ d hd => ((hareas d).mp hd).1⟩

/-- A block that stays in its area keeps the areas. -/
theorem Holds.resized (hc : c.Holds h) {a : AllocArea} {x req q : ℕ} {b : Block}
    (ha : a ∈ c.pool.mAreas) (hb : (x, b) ∈ Tiling.starts Block.size a.chunk (h a.chunk))
    (hr : Resized c.pool s' h req q x b a) :
    ∃ h', Steps c ⟨s', Function.update (Function.update c.live (x + sizeofAllocChunk) none) q
      (some req)⟩ h h' := by
  obtain ⟨h', x', b', hrealloc, hge, hle⟩ := hr.realloced
  have hlive' : b'.live.isSome = true := by
    rw [hrealloc.live]
    rfl
  refine ⟨h', hc.realloced ⟨a, ha, hb⟩ hrealloc,
    Returns.of_subset (fun d hd => (hr.areas d).mpr hd) (fun d hd hlive => ?_),
    hrealloc.changed.mAreaInitSize, hrealloc.changed.mAreaMoreSize,
    fun _ d hd => (hr.areas d).mp hd⟩
  obtain ⟨u, hu, hulive, hrange⟩ := hlive
  by_cases heq : u = (x, b)
  · rw [heq] at hrange
    have hsame := hc.rep.laid.area_unique hd ha hrange (hc.rep.laid.address_in ha hb)
    rw [hsame] at hrange ⊢
    simp only at hrange
    exact ⟨(x', b'), (hrealloc.changed.live _ hlive').mpr (.inr rfl), hlive', hge,
      by simp only; omega⟩
  · exact ⟨u, (hrealloc.changed.live u hulive).mpr (.inl ⟨hu, heq⟩), hulive, hrange⟩

theorem Holds.realloc_steps (hc : c.Holds h) {ptr : Option ℕ} {p req : ℕ}
    (hp : p = 0 ∨ (c.live p).isSome) (hg : Granted c.pool ptr req) (hreq : req + 48 ≤ 2 ^ 64)
    (hs : p = 0 ∨ c.pool.Moves p req → Serves c.pool req) :
    ∃ h', Steps c (c.step (.realloc ptr p req)) h h' := by
  rcases hp with rfl | hp
  · have hsame : c.step (.realloc ptr 0 req) = c.step (.alloc ptr req) := by
      have heq : c.pool.realloc ptr 0 req = c.pool.alloc ptr req := by
        unfold AllocPool.realloc
        rw [if_pos rfl]
      cases halloc : c.pool.alloc ptr req with
      | error e => rw [step_alloc_error halloc, step_realloc_error (heq.trans halloc)]
      | ok r => rw [step_alloc_ok halloc, step_realloc_ok (heq.trans halloc), hc.update_zero]
    rw [hsame]
    exact hc.alloc_steps (hs (.inl rfl)) hg
  · obtain ⟨x, b, hmem, hlive, rfl⟩ := hc.chunk hp
    rw [← hlive] at hp
    have hmin := (requestToSize_spec hreq).1
    by_cases hmoves : c.pool.Moves (x + sizeofAllocChunk) req
    · obtain ⟨hlarger, heq⟩ := hc.rep.realloc_moves hmem hp hmoves ptr
      rcases hc.rep.move hmem hp hreq hlarger ((hs (.inr hmoves)).allocable hc.rep hg) with
        ⟨e, hfails⟩ | ⟨s', q, hok, hmoved⟩
      · rw [step_realloc_error (heq.trans hfails)]
        exact ⟨h, hc.stays⟩
      · rw [step_realloc_ok (heq.trans hok)]
        obtain ⟨h', x', b', hrealloc, hreturns⟩ := hmoved.realloced
        exact ⟨h', hc.realloced hmem hrealloc, hreturns, hrealloc.changed.mAreaInitSize,
          hrealloc.changed.mAreaMoreSize, fun hnone => hmoved.areas (hnone _ (by omega))⟩
    · obtain ⟨a, ha, hstarts⟩ := hmem
      obtain ⟨pre, post, hcut, hx⟩ := Tiling.exists_split hstarts
      obtain ⟨s', q, hok, hresized⟩ := hc.rep.realloc_stays ha hcut hp hx hreq hmoves ptr
      rw [step_realloc_ok hok]
      exact hc.resized ha hstarts hresized

/-- Words that are not those of the pool are written. -/
theorem Holds.write_steps (hc : c.Holds h) {w : ℕ} (hw : c.Writable w) (v : ℕ) :
    Steps c (c.step (.write w v)) h h := by
  have hrep : (c.pool.store w v).Rep h := by
    rcases hw with ⟨p, r, hp, hle, hlt⟩ | ⟨hareas, -⟩
    · obtain ⟨u, hu, hr, rfl⟩ := (hc.live p r).mp hp
      have hroom := (hc.rep.laid.block u hu).room r hr
      unfold sizeofAllocChunk at hle hlt
      exact hc.rep.writePayload hu fun w' hw' => Function.update_of_ne (by omega) _ _
    · have hne : ∀ a ∈ c.pool.mAreas, ∀ w', a.mUnalignedPointerToThis ≤ w' → w' < a.stop →
          (c.pool.store w v).mem w' = c.pool.mem w' := by
        intro a ha w' hle hlt
        have := hareas a ha
        exact Function.update_of_ne (by omega) _ _
      apply hc.rep.congr_mem
      · intro a ha
        have hgeometry := hc.rep.laid.geometry ha
        exact hne a ha _ (by omega) (by omega)
      · intro a ha
        have hgeometry := hc.rep.laid.geometry ha
        exact hne a ha _ (by omega) (by omega)
      · intro u hu
        obtain ⟨a, ha, hu⟩ := hu
        have hrange := hc.rep.laid.range ha hu
        have hgeometry := hc.rep.laid.geometry ha
        exact ⟨hne a ha _ (by omega) (by omega), hne a ha _ (by omega) (by omega)⟩
  exact ⟨⟨hrep, hc.live⟩, Returns.of_subset (fun _ ha => ha) (fun _ _ hlive => hlive), rfl, rfl,
    fun _ _ ha => ha⟩

/-- Every sound call keeps the chunks in order. -/
theorem Holds.step (hc : c.Holds h) {call : PoolCall} (hlegal : c.Legal call)
    (hsound : c.Sound call) : ∃ h', Steps c (c.step call) h h' := by
  cases call with
  | alloc ptr req => exact hc.alloc_steps hsound hlegal.2
  | free p => exact hc.free_steps hlegal
  | realloc ptr p req => exact hc.realloc_steps hlegal.2.1 hlegal.2.2 hsound.1 hsound.2
  | write w v => exact ⟨h, hc.write_steps hlegal v⟩

end PoolState

end PoopWorms.Server
