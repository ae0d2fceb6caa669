import PoopWorms.Lib.Loops
import PoopWorms.Server.GraphDefTheorems

/-!
# The places of the wire buffers

`DoBufferColoring` with the buffers that the world has, and the addresses that `Graph_Ctor` makes
of the offsets. Whatever definition is coloured, its outputs take all the colours below
`mNumWireBufs` and no others; from there on it is a matter of the block length whether the offset
of the last colour fits an `int16`.
-/

namespace PoopWorms.Server

open ColorStack Loops

/-- What `DoBufferColoring` looks at in the world. -/
structure WireWorld where
  mRunning : Bool
  mMaxWireBufs : ℕ
  mBufLength : ℕ
deriving DecidableEq

namespace GraphDef

variable (inGraphDef : GraphDef)

/-- The buffer colouring, before the indices are multiplied. -/
def colored : Option Coloring :=
  (List.range inGraphDef.numUnits).foldlM inGraphDef.colorUnit inGraphDef.uncolored

/-- The loop that multiplies the indices by the buffer length. -/
def multiplied (bufLength : ℕ) (c : Coloring) : Coloring :=
  { c with
    mBufferIndex := fun o =>
      if inGraphDef.outputRate o = .fullRate then int16 (c.mBufferIndex o * bufLength)
      else c.mBufferIndex o }

/-- The interconnect buffers cannot be reallocated while audio is running. -/
def takeWireBufs (inWorld : WireWorld) (mNumWireBufs : ℤ) : Option WireWorld :=
  if inWorld.mRunning then
    if mNumWireBufs > inWorld.mMaxWireBufs then none else some inWorld
  else some { inWorld with mMaxWireBufs := max inWorld.mMaxWireBufs mNumWireBufs.toNat }

/-- `DoBufferColoring`, with the world. -/
def doBufferColoringIn (inWorld : WireWorld) : Option (WireWorld × Coloring) := do
  let c ← inGraphDef.colored
  let inWorld ← takeWireBufs inWorld c.bufColor.nextIndex
  return (inWorld, inGraphDef.multiplied inWorld.mBufLength c)

/-- `Graph_Ctor`: the buffer of an output of a full-rate unit in the buffer space. The outputs of
other units have no place there. -/
def outBuf (bufspace : ℤ) (c : Coloring) (o : Output) : Option ℤ :=
  if (inGraphDef.unit o.1).mCalcRate = .fullRate then some (bufspace + c.mBufferIndex o) else none

/-- With the colours of `colors`, the offsets of `c` lead to blocks of their own in the space of
the world. -/
structure Addressed (inWorld : WireWorld) (colors c : Coloring) : Prop where
  stored : ∀ o ∈ inGraphDef.audioOutputs,
    c.mBufferIndex o = colors.mBufferIndex o * inWorld.mBufLength
  used : ∀ o ∈ inGraphDef.audioOutputs, ∀ bufspace a, inGraphDef.outBuf bufspace c o = some a →
    a = bufspace + colors.mBufferIndex o * inWorld.mBufLength
  /-- The whole block is inside, not only its first place. -/
  bounded : ∀ o ∈ inGraphDef.audioOutputs, 0 ≤ c.mBufferIndex o ∧
    c.mBufferIndex o + inWorld.mBufLength ≤ c.bufColor.nextIndex * inWorld.mBufLength
  disjoint : ∀ o ∈ inGraphDef.audioOutputs, ∀ o' ∈ inGraphDef.audioOutputs,
    colors.mBufferIndex o ≠ colors.mBufferIndex o' →
    ∀ a, InBuffer inWorld.mBufLength (c.mBufferIndex o) a →
      ¬ InBuffer inWorld.mBufLength (c.mBufferIndex o') a
  space : c.bufColor.nextIndex ≤ inWorld.mMaxWireBufs

end GraphDef

/-! ## What the allocator does -/

namespace BufColorAllocator

variable {a a' : BufColorAllocator} {k count : ℤ}

/-- Both branches go on in the same way. -/
theorem ite_bind_eq_some {α : Type} {p : Prop} [Decidable p] {x y : Option ℤ}
    {f : ℤ → Option α} {r : α} (h : (if p then x.bind f else y.bind f) = some r) :
    ∃ v, (if p then x else y) = some v ∧ f v = some r := by
  by_cases hp : p
  · rw [if_pos hp] at h ⊢
    exact Option.bind_eq_some_iff.mp h
  · rw [if_neg hp] at h ⊢
    exact Option.bind_eq_some_iff.mp h

/-- A colour that is released goes to the stack, or stays where it is. -/
theorem release_cases (h : a.release k = some a') :
    a.refs k ≠ 0 ∧ a'.nextIndex = a.nextIndex ∧ a'.refsMaxSize = a.refsMaxSize ∧
      (∀ j ∈ a'.stack, j = k ∨ j ∈ a.stack) ∧ ∀ j ≠ k, a'.refs j = a.refs j := by
  unfold release at h
  by_cases hzero : a.refs k = 0
  · rw [if_pos hzero] at h
    exact absurd h (by simp)
  · rw [if_neg hzero] at h
    refine ⟨hzero, ?_⟩
    dsimp only at h
    by_cases hcount : int16 (a.refs k - 1) = 0
    · rw [if_pos hcount] at h
      obtain ⟨stackMaxSize, -, ha'⟩ := ite_bind_eq_some h
      obtain rfl := Option.some.inj ha'
      exact ⟨rfl, rfl, fun j hj => List.mem_cons.mp hj, fun j hj => Function.update_of_ne hj _ _⟩
    · rw [if_neg hcount] at h
      obtain rfl := Option.some.inj h
      exact ⟨rfl, rfl, fun j hj => .inr hj, fun j hj => Function.update_of_ne hj _ _⟩

/-- A colour is taken from the stack, or is the next one. -/
theorem alloc_cases (h : a.alloc count = some (a', k)) :
    (a.stack = k :: a'.stack ∧ a'.nextIndex = a.nextIndex ∨
      k = a.nextIndex ∧ a'.stack = [] ∧ a'.nextIndex = int16 (a.nextIndex + 1)) ∧
    (if k ≥ a.refsMaxSize then grow a.refsMaxSize else some a.refsMaxSize) = some a'.refsMaxSize ∧
    ∀ j ≠ k, a'.refs j = a.refs j := by
  unfold alloc at h
  cases hstack : a.stack with
  | nil =>
    rw [hstack] at h
    dsimp only at h
    obtain ⟨refsMaxSize, hgrow, ha'⟩ := ite_bind_eq_some h
    obtain ⟨rfl, rfl⟩ := Prod.mk.inj (Option.some.inj ha')
    exact ⟨.inr ⟨rfl, rfl, rfl⟩, hgrow, fun j hj => Function.update_of_ne hj _ _⟩
  | cons top stack =>
    rw [hstack] at h
    dsimp only at h
    obtain ⟨refsMaxSize, hgrow, ha'⟩ := ite_bind_eq_some h
    obtain ⟨rfl, rfl⟩ := Prod.mk.inj (Option.some.inj ha')
    exact ⟨.inl ⟨rfl, rfl⟩, hgrow, fun j hj => Function.update_of_ne hj _ _⟩

end BufColorAllocator

/-! ## The colours of any definition -/

namespace GraphDef

variable {inGraphDef : GraphDef} {c c' colors : Coloring} {a a' : BufColorAllocator}
  {mBufferIndex : Output → ℤ} {done : Output → Prop} {unit i : ℕ} {inWorld inWorld' : WireWorld}

/-- The outputs in `done` have been given colours, and these are all the colours so far. -/
structure Ranged (inGraphDef : GraphDef) (a : BufColorAllocator) (mBufferIndex : Output → ℤ)
    (done : Output → Prop) : Prop where
  nextIndex : 0 ≤ a.nextIndex
  refsMaxSize : (∃ k ≤ 14, a.refsMaxSize = 2 ^ k ∧ a.nextIndex ≤ 2 ^ k) ∨
    a.refsMaxSize = -2 ^ 15 ∧ a.nextIndex ≤ 2 ^ 14 + 1
  stack : ∀ k ∈ a.stack, 0 ≤ k ∧ k < a.nextIndex
  refs : ∀ k, a.refs k ≠ 0 → 0 ≤ k ∧ k < a.nextIndex
  index : ∀ o, done o → inGraphDef.outputRate o = .fullRate →
    0 ≤ mBufferIndex o ∧ mBufferIndex o < a.nextIndex
  attained : ∀ k, 0 ≤ k → k < a.nextIndex →
    ∃ o, done o ∧ inGraphDef.outputRate o = .fullRate ∧ mBufferIndex o = k

theorem Ranged.nextIndex_le (h : Ranged inGraphDef a mBufferIndex done) :
    a.nextIndex ≤ 2 ^ 14 + 1 := by
  rcases h.refsMaxSize with ⟨k, hk, -, hle⟩ | ⟨-, hle⟩
  · have hpow : (2 : ℤ) ^ k ≤ 2 ^ 14 := pow_le_pow_right₀ (by norm_num) hk
    omega
  · exact hle

theorem Ranged.congr {done' : Output → Prop} (h : Ranged inGraphDef a mBufferIndex done)
    (hdone : ∀ o, done' o ↔ done o) : Ranged inGraphDef a mBufferIndex done' := by
  obtain rfl : done' = done := funext fun o => propext (hdone o)
  exact h

theorem Ranged.release (h : Ranged inGraphDef a mBufferIndex done) {k : ℤ}
    (hrelease : a.release k = some a') : Ranged inGraphDef a' mBufferIndex done := by
  obtain ⟨hused, hnext, hmax, hstack, hrefs⟩ := BufColorAllocator.release_cases hrelease
  have hk := h.refs k hused
  refine ⟨?_, ?_, ?_, ?_, ?_, ?_⟩
  · rw [hnext]
    exact h.nextIndex
  · rw [hmax, hnext]
    exact h.refsMaxSize
  · intro j hj
    rw [hnext]
    rcases hstack j hj with rfl | hj
    · exact hk
    · exact h.stack j hj
  · intro j hj
    rw [hnext]
    by_cases hjk : j = k
    · exact hjk ▸ hk
    · exact h.refs j (hrefs j hjk ▸ hj)
  · rw [hnext]
    exact h.index
  · rw [hnext]
    exact h.attained

/-- The array of reference counts has room for the colours that follow. -/
theorem Ranged.grow (h : Ranged inGraphDef a mBufferIndex done) {k size : ℤ} (hk : 0 ≤ k)
    (hle : k ≤ a.nextIndex)
    (hgrow : (if k ≥ a.refsMaxSize then BufColorAllocator.grow a.refsMaxSize
      else some a.refsMaxSize) = some size) :
    (∃ n ≤ 14, size = 2 ^ n ∧ k < 2 ^ n ∧ a.nextIndex ≤ 2 ^ n) ∨
      size = -2 ^ 15 ∧ k = 2 ^ 14 ∧ a.nextIndex = 2 ^ 14 := by
  rcases h.refsMaxSize with ⟨n, hn, hmax, hnext⟩ | ⟨hmax, -⟩
  · rw [hmax] at hgrow
    by_cases hroom : k ≥ 2 ^ n
    · rw [if_pos hroom] at hgrow
      rcases Nat.lt_or_eq_of_le hn with hlt | rfl
      · rw [grow_two_pow hlt] at hgrow
        have hsize := Option.some.inj hgrow
        have hpow : (2 : ℤ) ^ (n + 1) = 2 ^ n * 2 := pow_succ 2 n
        have hpos : (0 : ℤ) < 2 ^ n := by positivity
        exact .inl ⟨n + 1, hlt, hsize.symm, by omega, by omega⟩
      · rw [grow_two_pow_14] at hgrow
        have hsize := Option.some.inj hgrow
        exact .inr ⟨hsize.symm, by omega, by omega⟩
    · rw [if_neg hroom] at hgrow
      exact .inl ⟨n, hn, (Option.some.inj hgrow).symm, by omega, hnext⟩
  · -- no array has a negative size
    rw [hmax, if_pos (by omega)] at hgrow
    exact (nomatch hgrow)

/-- An output is given a colour. -/
theorem Ranged.alloc (h : Ranged inGraphDef a mBufferIndex done) {o : Output} {count k : ℤ}
    (hnew : ¬ done o) (hrate : inGraphDef.outputRate o = .fullRate)
    (halloc : a.alloc count = some (a', k)) :
    Ranged inGraphDef a' (Function.update mBufferIndex o (int16 k)) fun o' => o' = o ∨ done o' := by
  obtain ⟨hcases, hgrow, hrefs⟩ := BufColorAllocator.alloc_cases halloc
  have hpos := h.nextIndex
  have hle := h.nextIndex_le
  have hk : 0 ≤ k ∧ k ≤ a.nextIndex := by
    rcases hcases with ⟨hstack, -⟩ | ⟨rfl, -, -⟩
    · obtain ⟨h0, hlt⟩ := h.stack k (by rw [hstack]; simp)
      omega
    · omega
  have hroom := h.grow hk.1 hk.2 hgrow
  have hcolour : int16 k = k := int16_of_lt hk.1 (by omega)
  -- the next colour is the new one, or it is as it was
  have hnext : k < a.nextIndex ∧ a'.nextIndex = a.nextIndex ∨
      k = a.nextIndex ∧ a'.nextIndex = a.nextIndex + 1 := by
    rcases hcases with ⟨hstack, hsame⟩ | ⟨hk', -, hsucc⟩
    · exact .inl ⟨(h.stack k (by rw [hstack]; simp)).2, hsame⟩
    · rw [int16_of_lt (by omega) (by omega)] at hsucc
      exact .inr ⟨hk', hsucc⟩
  have hwider : ∀ j, 0 ≤ j ∧ j < a.nextIndex → 0 ≤ j ∧ j < a'.nextIndex := by
    intro j hj
    omega
  refine ⟨by omega, ?_, ?_, ?_, ?_, ?_⟩
  · rcases hroom with ⟨n, hn, hsize, hlt, hfit⟩ | ⟨hsize, hlast, hfull⟩
    · exact .inl ⟨n, hn, hsize, by omega⟩
    · exact .inr ⟨hsize, by omega⟩
  · intro j hj
    rcases hcases with ⟨hstack, -⟩ | ⟨-, hempty, -⟩
    · exact hwider j (h.stack j (by rw [hstack]; exact List.mem_cons_of_mem _ hj))
    · rw [hempty] at hj
      exact absurd hj (by simp)
  · intro j hj
    by_cases hjk : j = k
    · omega
    · exact hwider j (h.refs j (hrefs j hjk ▸ hj))
  · intro o' ho' hrate'
    by_cases heq : o' = o
    · rw [heq, Function.update_self, hcolour]
      omega
    · rw [Function.update_of_ne heq]
      exact hwider _ (h.index o' (ho'.resolve_left heq) hrate')
  · intro j h0 hj
    by_cases hjk : j = k
    · refine ⟨o, .inl rfl, hrate, ?_⟩
      rw [Function.update_self, hcolour, hjk]
    · obtain ⟨o', ho', hrate', hindex⟩ := h.attained j h0 (by omega)
      have hne : o' ≠ o := fun heq => hnew (heq ▸ ho')
      exact ⟨o', .inr ho', hrate', by rw [Function.update_of_ne hne, hindex]⟩

/-! ## The loops of the colouring -/

theorem releaseInputBuffer_ranged (h : Ranged inGraphDef c.bufColor c.mBufferIndex done)
    (hturn : inGraphDef.releaseInputBuffer unit c i = some c') :
    Ranged inGraphDef c'.bufColor c'.mBufferIndex done := by
  unfold releaseInputBuffer at hturn
  cases hinput : (inGraphDef.unit unit).mInputSpec[i]? with
  | none =>
    rw [hinput] at hturn
    exact Option.some.inj hturn ▸ h
  | some inputSpec =>
    rw [hinput] at hturn
    dsimp only at hturn
    split_ifs at hturn with hwire hrate
    · obtain ⟨a', hrelease, hc'⟩ := Option.map_eq_some_iff.mp hturn
      exact hc' ▸ h.release hrelease
    · exact Option.some.inj hturn ▸ h
    · exact Option.some.inj hturn ▸ h

theorem releaseInputBuffers_ranged (h : Ranged inGraphDef c.bufColor c.mBufferIndex done)
    (hloop : inGraphDef.releaseInputBuffers unit c = some c') :
    Ranged inGraphDef c'.bufColor c'.mBufferIndex done := by
  unfold releaseInputBuffers at hloop
  generalize (List.range (inGraphDef.unit unit).mInputSpec.length).reverse = l at hloop
  induction l generalizing c with
  | nil => exact Option.some.inj hloop ▸ h
  | cons i l ih =>
    rw [List.foldlM_cons, Option.bind_eq_bind, Option.bind_eq_some_iff] at hloop
    obtain ⟨c₁, hturn, hrest⟩ := hloop
    exact ih (releaseInputBuffer_ranged h hturn) hrest

/-- The outputs of the units before `unit`, and those of `unit` before the output `i`. -/
def Taken (inGraphDef : GraphDef) (unit i : ℕ) (o : Output) : Prop :=
  o.1 < unit ∧ o.2 < (inGraphDef.unit o.1).mOutputSpec.length ∨ o.1 = unit ∧ o.2 < i

theorem allocOutputBuffer_ranged
    (h : Ranged inGraphDef c.bufColor c.mBufferIndex (inGraphDef.Taken unit i))
    (hturn : inGraphDef.allocOutputBuffer unit c i = some c') :
    Ranged inGraphDef c'.bufColor c'.mBufferIndex (inGraphDef.Taken unit (i + 1)) := by
  have hnext : ∀ o, inGraphDef.Taken unit (i + 1) o ↔
      o = (unit, i) ∨ inGraphDef.Taken unit i o := by
    intro o
    rw [Prod.ext_iff]
    unfold Taken
    omega
  unfold allocOutputBuffer at hturn
  dsimp only at hturn
  split_ifs at hturn with hrate
  · obtain ⟨r, halloc, hc'⟩ := Option.map_eq_some_iff.mp hturn
    have hnew : ¬ inGraphDef.Taken unit i (unit, i) := by
      unfold Taken
      omega
    exact hc' ▸ (h.alloc hnew hrate halloc).congr hnext
  · -- an output of another rate has no colour
    refine Option.some.inj hturn ▸ ⟨h.nextIndex, h.refsMaxSize, h.stack, h.refs, ?_, ?_⟩
    · intro o ho hfull
      rcases (hnext o).mp ho with rfl | ho
      · exact absurd hfull hrate
      · exact h.index o ho hfull
    · intro k h0 hk
      obtain ⟨o, ho, hfull, hindex⟩ := h.attained k h0 hk
      exact ⟨o, (hnext o).mpr (.inr ho), hfull, hindex⟩

theorem allocOutputBuffers_ranged
    (h : Ranged inGraphDef c.bufColor c.mBufferIndex (inGraphDef.Taken unit 0))
    (hloop : inGraphDef.allocOutputBuffers unit c = some c') :
    Ranged inGraphDef c'.bufColor c'.mBufferIndex (inGraphDef.Taken (unit + 1) 0) := by
  have hall := foldlM_range_inv (P := fun i (c : Coloring) =>
    Ranged inGraphDef c.bufColor c.mBufferIndex (inGraphDef.Taken unit i)) h
    (fun _ _ _ h hturn => allocOutputBuffer_ranged h hturn) hloop
  refine hall.congr fun o => ?_
  unfold Taken
  constructor
  · intro ho
    rcases Nat.lt_or_ge o.1 unit with hlt | hge
    · exact .inl ⟨hlt, (ho.resolve_right (by omega)).2⟩
    · have heq : o.1 = unit := by omega
      have hlen := (ho.resolve_right (by omega)).2
      rw [heq] at hlen
      exact .inr ⟨heq, hlen⟩
  · rintro (⟨hlt, hlen⟩ | ⟨heq, hlen⟩)
    · exact .inl ⟨by omega, hlen⟩
    · exact .inl ⟨by omega, heq.symm ▸ hlen⟩

theorem colorUnit_ranged
    (h : Ranged inGraphDef c.bufColor c.mBufferIndex (inGraphDef.Taken unit 0))
    (hturn : inGraphDef.colorUnit c unit = some c') :
    Ranged inGraphDef c'.bufColor c'.mBufferIndex (inGraphDef.Taken (unit + 1) 0) := by
  unfold colorUnit at hturn
  split_ifs at hturn with halias
  · obtain ⟨c₁, halloc, hrelease⟩ := Option.bind_eq_some_iff.mp hturn
    exact releaseInputBuffers_ranged (allocOutputBuffers_ranged h halloc) hrelease
  · obtain ⟨c₁, hrelease, halloc⟩ := Option.bind_eq_some_iff.mp hturn
    exact allocOutputBuffers_ranged (releaseInputBuffers_ranged h hrelease) halloc

/-- The colours of a definition are those below `mNumWireBufs`. -/
theorem colored_ranged (h : inGraphDef.colored = some colors) :
    Ranged inGraphDef colors.bufColor colors.mBufferIndex fun o => o ∈ inGraphDef.audioOutputs := by
  have hstart : Ranged inGraphDef inGraphDef.uncolored.bufColor inGraphDef.uncolored.mBufferIndex
      (inGraphDef.Taken 0 0) := by
    have hnone : (0 : ℤ) ≤ 2 ^ 5 := by norm_num
    refine ⟨Int.le_refl 0, .inl ⟨5, by omega, rfl, hnone⟩, ?_, ?_, ?_, ?_⟩
    · exact fun k hk => absurd hk (by simp [uncolored, BufColorAllocator.new])
    · exact fun k hk => absurd rfl hk
    · intro o ho
      unfold Taken at ho
      omega
    · intro k h0 hk
      have hk' : k < 0 := hk
      omega
  have hall := foldlM_range_inv (P := fun u (c : Coloring) =>
    Ranged inGraphDef c.bufColor c.mBufferIndex (inGraphDef.Taken u 0)) hstart
    (fun _ _ _ h hturn => colorUnit_ranged h hturn) h
  have haudio : ∀ o, o ∈ inGraphDef.audioOutputs ↔
      inGraphDef.Taken inGraphDef.numUnits 0 o ∧ inGraphDef.outputRate o = .fullRate := by
    intro o
    rw [mem_audioOutputs, mem_audioOutputsOf]
    unfold Taken
    constructor
    · exact fun ho => ⟨.inl ⟨ho.1, ho.2.2.1⟩, ho.2.2.2⟩
    · exact fun ho => ⟨(ho.1.resolve_right (by omega)).1, rfl,
        (ho.1.resolve_right (by omega)).2, ho.2⟩
  refine ⟨hall.nextIndex, hall.refsMaxSize, hall.stack, hall.refs, ?_, ?_⟩
  · exact fun o ho => hall.index o ((haudio o).mp ho).1
  · intro k h0 hk
    obtain ⟨o, ho, hrate, hindex⟩ := hall.attained k h0 hk
    exact ⟨o, (haudio o).mpr ⟨ho, hrate⟩, hrate, hindex⟩

/-! ## The offsets -/

theorem takeWireBufs_space {n : ℤ} (h : takeWireBufs inWorld n = some inWorld') :
    n ≤ inWorld'.mMaxWireBufs := by
  unfold takeWireBufs at h
  split_ifs at h with hrunning hmore
  · obtain rfl := Option.some.inj h
    omega
  · obtain rfl := Option.some.inj h
    show n ≤ (max inWorld.mMaxWireBufs n.toNat : ℕ)
    omega

theorem doBufferColoringIn_eq (hcolored : inGraphDef.colored = some colors)
    (h : inGraphDef.doBufferColoringIn inWorld = some (inWorld', c)) :
    c = inGraphDef.multiplied inWorld'.mBufLength colors ∧
      colors.bufColor.nextIndex ≤ inWorld'.mMaxWireBufs := by
  unfold doBufferColoringIn at h
  rw [hcolored] at h
  simp only [Option.bind_eq_bind, Option.bind_some] at h
  obtain ⟨w, hw, hc⟩ := Option.bind_eq_some_iff.mp h
  obtain ⟨rfl, rfl⟩ := Prod.mk.inj (Option.some.inj hc)
  exact ⟨rfl, takeWireBufs_space hw⟩

theorem multiplied_index (bufLength : ℕ) {o : Output} (ho : o ∈ inGraphDef.audioOutputs) :
    (inGraphDef.multiplied bufLength colors).mBufferIndex o =
      int16 (colors.mBufferIndex o * bufLength) :=
  if_pos (mem_audioOutputsOf.mp (mem_audioOutputs.mp ho).2).2.2

/-- The offsets are right as long as that of the last colour is in the range of `int16`. -/
theorem addressed_iff_last (hcolored : inGraphDef.colored = some colors)
    (h : inGraphDef.doBufferColoringIn inWorld = some (inWorld', c)) :
    inGraphDef.Addressed inWorld' colors c ↔
      (c.bufColor.nextIndex - 1) * inWorld'.mBufLength < 2 ^ 15 := by
  obtain ⟨rfl, hspace⟩ := doBufferColoringIn_eq hcolored h
  have hranged := colored_ranged hcolored
  have hnext := hranged.nextIndex
  constructor
  · intro haddressed
    rcases lt_or_ge 0 colors.bufColor.nextIndex with hpos | hzero
    · obtain ⟨o, ho, hrate, hindex⟩ :=
        hranged.attained (colors.bufColor.nextIndex - 1) (by omega) (by omega)
      have hstored := haddressed.stored o ho
      have hlt := int16_lt (colors.mBufferIndex o * inWorld'.mBufLength)
      rw [← multiplied_index _ ho, hstored, hindex] at hlt
      exact hlt
    · have hnone : colors.bufColor.nextIndex - 1 = -1 := by omega
      show (colors.bufColor.nextIndex - 1) * (inWorld'.mBufLength : ℤ) < 2 ^ 15
      rw [hnone]
      omega
  · intro hlast
    have hlast : (colors.bufColor.nextIndex - 1) * (inWorld'.mBufLength : ℤ) < 2 ^ 15 := hlast
    have hblock : (0 : ℤ) ≤ inWorld'.mBufLength := by omega
    have hindex : ∀ o ∈ inGraphDef.audioOutputs,
        0 ≤ colors.mBufferIndex o ∧ colors.mBufferIndex o < colors.bufColor.nextIndex := by
      intro o ho
      exact hranged.index o ho (mem_audioOutputsOf.mp (mem_audioOutputs.mp ho).2).2.2
    have hstored : ∀ o ∈ inGraphDef.audioOutputs,
        (inGraphDef.multiplied inWorld'.mBufLength colors).mBufferIndex o =
          colors.mBufferIndex o * inWorld'.mBufLength := by
      intro o ho
      obtain ⟨h0, hlt⟩ := hindex o ho
      have hle : colors.mBufferIndex o * (inWorld'.mBufLength : ℤ) ≤
          (colors.bufColor.nextIndex - 1) * inWorld'.mBufLength :=
        Int.mul_le_mul_of_nonneg_right (by omega) hblock
      rw [multiplied_index _ ho]
      exact int16_of_lt (Int.mul_nonneg h0 hblock) (by omega)
    refine ⟨hstored, ?_, ?_, ?_, hspace⟩
    · intro o ho bufspace a ha
      unfold outBuf at ha
      split_ifs at ha with hrate
      rw [← Option.some.inj ha, hstored o ho]
    · intro o ho
      obtain ⟨h0, hlt⟩ := hindex o ho
      rw [hstored o ho]
      have hle : (colors.mBufferIndex o + 1) * (inWorld'.mBufLength : ℤ) ≤
          colors.bufColor.nextIndex * inWorld'.mBufLength :=
        Int.mul_le_mul_of_nonneg_right (by omega) hblock
      rw [Int.add_mul, Int.one_mul] at hle
      exact ⟨Int.mul_nonneg h0 hblock, hle⟩
    · intro o ho o' ho' hne a ha
      obtain ⟨j, hj⟩ := Int.eq_ofNat_of_zero_le (hindex o ho).1
      obtain ⟨k, hk⟩ := Int.eq_ofNat_of_zero_le (hindex o' ho').1
      rw [hstored o ho, hj, ← Int.natCast_mul] at ha
      rw [hstored o' ho', hk, ← Int.natCast_mul]
      exact not_inBuffer_of_ne (by omega) ha

/-- A well-formed definition has as many colours as outputs are live at a time. -/
theorem last_lt_iff_numLive (hcolored : inGraphDef.colored = some colors)
    (hwf : inGraphDef.WellFormed) (hreaders : ∀ o, inGraphDef.numReaders o < 2 ^ 15)
    (bufLength : ℕ) :
    (colors.bufColor.nextIndex - 1) * bufLength < 2 ^ 15 ↔
      ∀ o ∈ inGraphDef.audioOutputs, (inGraphDef.numLive o - 1) * bufLength < 2 ^ 15 := by
  have hsome : inGraphDef.doBufferColoring bufLength =
      some (inGraphDef.multiplied bufLength colors) := congrArg (Option.map _) hcolored
  have hcases : (inGraphDef.doBufferColoring bufLength = none ∧ _) ∨ _ :=
    doBufferColoring_cases hwf hreaders
  rw [hsome] at hcases
  rcases hcases with ⟨hnone, -⟩ | ⟨c, s, hc, -, hresult⟩
  · exact absurd hnone (by simp)
  · have hnext : colors.bufColor.nextIndex = s.next := by
      rw [← hresult.nextIndex, ← Option.some.inj hc]
      rfl
    rw [hnext]
    constructor
    · intro hlast o ho
      obtain ⟨pre, post, hcut⟩ := List.append_of_mem (define_mem_timeline.mpr ho)
      have hcolors := hresult.colored
      rw [hcut] at hcolors
      have hnum := numLive_le_next hwf hcolors (by rw [hcut, List.append_nil])
      have hpos : 0 < inGraphDef.numLive o := by
        have hlive : inGraphDef.LiveWith o o := .inl ⟨rfl, Nat.le_refl _⟩
        exact List.length_pos_of_mem (List.mem_filter.mpr ⟨ho, decide_eq_true hlive⟩)
      have hle : (inGraphDef.numLive o - 1) * bufLength ≤ (s.next - 1) * bufLength :=
        Nat.mul_le_mul_right _ (by omega)
      have hcast : ((s.next - 1 : ℕ) : ℤ) = (s.next : ℤ) - 1 := by omega
      rw [← hcast] at hlast
      have hlast' : (s.next - 1) * bufLength < 2 ^ 15 := by exact_mod_cast hlast
      omega
    · intro hall
      rcases Nat.eq_zero_or_pos s.next with hzero | hpos
      · rw [hzero]
        omega
      · obtain ⟨o, ho, -, hlt, -⟩ := exists_colour_eq hwf hresult.colored
          (k := s.next - 1) (by omega)
        have hle : (s.next - 1) * bufLength ≤ (inGraphDef.numLive o - 1) * bufLength :=
          Nat.mul_le_mul_right _ (by omega)
        have hbound := hall o ho
        have hcast : ((s.next - 1 : ℕ) : ℤ) = (s.next : ℤ) - 1 := by omega
        rw [← hcast]
        exact_mod_cast Nat.lt_of_le_of_lt hle hbound

/-- The offsets of an accepted definition are right if and only if that of its last colour is in
the range of `int16`; in a well-formed definition the last colour is one less than the number of
outputs that are live at a time. -/
theorem addressed_iff (inGraphDef : GraphDef) (inWorld inWorld' : WireWorld) (colors c : Coloring)
    (hcolored : inGraphDef.colored = some colors)
    (h : inGraphDef.doBufferColoringIn inWorld = some (inWorld', c)) :
    (inGraphDef.Addressed inWorld' colors c ↔
      (c.bufColor.nextIndex - 1) * inWorld'.mBufLength < 2 ^ 15) ∧
    (inGraphDef.WellFormed → (∀ o, inGraphDef.numReaders o < 2 ^ 15) →
      (inGraphDef.Addressed inWorld' colors c ↔ ∀ o ∈ inGraphDef.audioOutputs,
        (inGraphDef.numLive o - 1) * inWorld'.mBufLength < 2 ^ 15)) := by
  have hlast := addressed_iff_last hcolored h
  obtain ⟨rfl, -⟩ := doBufferColoringIn_eq hcolored h
  exact ⟨hlast, fun hwf hreaders =>
    hlast.trans (last_lt_iff_numLive hcolored hwf hreaders inWorld'.mBufLength)⟩

/-- With room for its buffers, `inOut n` is coloured as the allocator says. -/
theorem doBufferColoringIn_some {next : ℤ}
    (hnext : inGraphDef.colored.map (fun c => c.bufColor.nextIndex) = some next)
    (hroom : next ≤ inWorld.mMaxWireBufs) (hrunning : inWorld.mRunning = true) :
    ∃ colors c, inGraphDef.colored = some colors ∧
      inGraphDef.doBufferColoringIn inWorld = some (inWorld, c) ∧ c.bufColor.nextIndex = next := by
  obtain ⟨colors, hcolored, hcolors⟩ := Option.map_eq_some_iff.mp hnext
  refine ⟨colors, inGraphDef.multiplied inWorld.mBufLength colors, hcolored, ?_, hcolors⟩
  have htake : takeWireBufs inWorld colors.bufColor.nextIndex = some inWorld := by
    unfold takeWireBufs
    rw [if_pos hrunning, if_neg (by omega)]
  unfold doBufferColoringIn
  rw [hcolored]
  simp only [Option.bind_eq_bind, Option.bind_some, htake]
  rfl

/-- The world of the app, with the default number of wire buffers. -/
def appWorld : WireWorld := ⟨true, 64, 1024⟩

theorem addressed_iff_inOut : ∃ colors c, (inOut 4).colored = some colors ∧
    (inOut 4).doBufferColoringIn appWorld = some (appWorld, c) ∧
    (inOut 4).Addressed appWorld colors c := by
  have hnext : (inOut 4).colored.map (fun c => c.bufColor.nextIndex) = some 4 := by decide
  obtain ⟨colors, c, hcolored, hdone, hc⟩ :=
    @doBufferColoringIn_some _ appWorld _ hnext (by decide) rfl
  refine ⟨colors, c, hcolored, hdone, ?_⟩
  apply (addressed_iff (inOut 4) appWorld appWorld colors c hcolored hdone).1.mpr
  rw [hc]
  decide

/-- With blocks of 1024 samples the last of 33 colours has no offset. -/
theorem not_addressed_inOut :
    ¬ ∀ (inGraphDef : GraphDef) (inWorld inWorld' : WireWorld) (colors c : Coloring),
      inGraphDef.colored = some colors →
      inGraphDef.doBufferColoringIn inWorld = some (inWorld', c) →
      inGraphDef.Addressed inWorld' colors c := by
  intro h
  have hnext : (inOut 33).colored.map (fun c => c.bufColor.nextIndex) = some 33 := by
    decide +kernel
  obtain ⟨colors, c, hcolored, hdone, hc⟩ :=
    @doBufferColoringIn_some _ appWorld _ hnext (by decide) rfl
  have hlast := (addressed_iff_last hcolored hdone).mp (h _ _ _ _ _ hcolored hdone)
  rw [hc] at hlast
  exact absurd hlast (by decide)

end GraphDef

end PoopWorms.Server
