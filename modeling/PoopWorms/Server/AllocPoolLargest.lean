import PoopWorms.Server.AllocPoolTheorems
import Mathlib.Order.Bounds.Basic

/-!
# The largest free chunk

`LargestFreeChunk` takes the last bin that is marked, in which all chunks are larger than those
of the bins in front of it, and goes over this bin. If no bin is marked, it goes on with the bin
in front of the first, which is outside the pool.
-/

namespace PoopWorms.Server

namespace AllocPool

/-- `NUMBITS` -/
def numBits (x : BitVec 32) : ℕ := 32 - clz x.toNat

variable (s : AllocPool)

/-- `LargestFreeChunk`; there is no result if it has to read a link outside the bins. -/
def largestFreeChunk : Option ℕ :=
  let word := ([3, 2, 1, 0].find? fun i => s.mBinBlocks i ≠ 0).getD 0
  let binBits := s.mBinBlocks word
  let bitPosition : ℤ := numBits binBits - 1
  let index : ℤ := (word <<< 5 : ℕ) + bitPosition
  if index < 0 then none
  else
    -- by Prev(), from the end of the list
    some ((s.mBins index.toNat).reverse.foldl
      (fun maxsize candidate => max maxsize (s.size candidate)) 0)

/-- The result is the largest size of the free chunks `F`, and 0 if there are none. -/
def GivesLargest (F : Set (ℕ × ℕ)) : Prop :=
  ∃ n, s.largestFreeChunk = some n ∧ IsGreatest (insert 0 (Prod.snd '' F)) n

/-! ## The last bin that is marked -/

theorem numBits_zero : numBits 0#32 = 0 := rfl

/-- The highest bit that is set. -/
theorem numBits_spec {x : BitVec 32} (hx : x ≠ 0#32) :
    ∃ k, numBits x = k + 1 ∧ k < 32 ∧ x.getLsbD k = true ∧ ∀ j, k < j → x.getLsbD j = false := by
  have hne : x.toNat ≠ 0 := fun h => hx (BitVec.eq_of_toNat_eq h)
  have hlog : Nat.log2 x.toNat < 32 := (Nat.log2_lt hne).mpr x.isLt
  refine ⟨Nat.log2 x.toNat, ?_, hlog, ?_, ?_⟩
  · unfold numBits clz
    rw [if_neg hne]
    omega
  · exact Nat.testBit_log2 hne
  · intro j hj
    apply Nat.testBit_lt_two_pow
    exact (Nat.log2_lt hne).mp hj

/-- A word of the bits is not zero if one of its bins is marked. -/
theorem ne_zero_of_marked {i : ℕ} (h : s.marked i = true) : s.mBinBlocks (i / 32) ≠ 0#32 := by
  intro hzero
  unfold marked at h
  rw [hzero, BitVec.getLsbD_zero] at h
  cases h

/-- The word that the search stops at, if a bin is marked: no later word has a bit. -/
theorem find_word {i : ℕ} (hi : i < 128) (h : s.marked i = true) :
    ∃ w, ([3, 2, 1, 0].find? fun w => s.mBinBlocks w ≠ 0) = some w ∧ s.mBinBlocks w ≠ 0#32 ∧
      w < 4 ∧ ∀ v < 4, w < v → s.mBinBlocks v = 0#32 := by
  have hword := s.ne_zero_of_marked h
  by_cases h3 : s.mBinBlocks 3 = 0#32
  · by_cases h2 : s.mBinBlocks 2 = 0#32
    · by_cases h1 : s.mBinBlocks 1 = 0#32
      · have h0 : s.mBinBlocks 0 ≠ 0#32 := by
          intro h0
          obtain hw | hw | hw | hw : i / 32 = 0 ∨ i / 32 = 1 ∨ i / 32 = 2 ∨ i / 32 = 3 := by omega
          all_goals exact hword (by rw [hw]; assumption)
        refine ⟨0, by simp [h3, h2, h1, h0], h0, by omega, ?_⟩
        intro v hv hlt
        obtain rfl | rfl | rfl : v = 1 ∨ v = 2 ∨ v = 3 := by omega
        all_goals assumption
      · refine ⟨1, by simp [h3, h2, h1], h1, by omega, ?_⟩
        intro v hv hlt
        obtain rfl | rfl : v = 2 ∨ v = 3 := by omega
        all_goals assumption
    · refine ⟨2, by simp [h3, h2], h2, by omega, ?_⟩
      intro v hv hlt
      obtain rfl : v = 3 := by omega
      exact h3
  · refine ⟨3, by simp [h3], h3, by omega, ?_⟩
    intro v hv hlt
    omega

/-- If some bin is marked, the last one is looked through. -/
theorem largestFreeChunk_marked {i : ℕ} (hi : i < 128) (h : s.marked i = true) :
    ∃ k < 128, s.marked k = true ∧ (∀ j < 128, k < j → s.marked j = false) ∧
      s.largestFreeChunk = some ((s.mBins k).reverse.foldl
        (fun maxsize candidate => max maxsize (s.size candidate)) 0) := by
  obtain ⟨w, hfind, hne, hw, hlater⟩ := s.find_word hi h
  obtain ⟨b, hbits, hb, hset, hclear⟩ := numBits_spec hne
  have hdiv : (32 * w + b) / 32 = w := by omega
  have hmod : (32 * w + b) % 32 = b := by omega
  refine ⟨32 * w + b, by omega, ?_, ?_, ?_⟩
  · unfold marked
    rw [hdiv, hmod]
    exact hset
  · intro j hj hlt
    unfold marked
    by_cases hsame : j / 32 = w
    · rw [hsame]
      exact hclear _ (by omega)
    · rw [hlater (j / 32) (by omega) (by omega)]
      exact BitVec.getLsbD_zero
  · have hindex : ((w <<< 5 : ℕ) : ℤ) + ((numBits (s.mBinBlocks w) : ℤ) - 1) =
        ((32 * w + b : ℕ) : ℤ) := by
      rw [hbits, Nat.shiftLeft_eq]
      push_cast
      ring
    unfold largestFreeChunk
    rw [hfind]
    simp only [Option.getD_some]
    rw [hindex, if_neg (by omega), Int.toNat_natCast]

/-- If no bin is marked, there is no bin to look through. -/
theorem largestFreeChunk_unmarked (h : ∀ i < 128, s.marked i = false) :
    s.largestFreeChunk = none := by
  have hzero : ∀ w < 4, s.mBinBlocks w = 0#32 := by
    intro w hw
    apply BitVec.eq_of_getLsbD_eq
    intro b hb
    have hbit := h (32 * w + b) (by omega)
    unfold marked at hbit
    rw [show (32 * w + b) / 32 = w by omega, show (32 * w + b) % 32 = b by omega] at hbit
    rw [hbit, BitVec.getLsbD_zero]
  have hfind : ([3, 2, 1, 0].find? fun w => s.mBinBlocks w ≠ 0) = none := by
    simp [hzero]
  unfold largestFreeChunk
  rw [hfind]
  simp [hzero, numBits_zero]

/-! ## The chunks of one bin -/

theorem foldl_max_isGreatest (f : ℕ → ℕ) (l : List ℕ) (a : ℕ) :
    IsGreatest (insert a (f '' {x | x ∈ l})) (l.foldl (fun m x => max m (f x)) a) := by
  induction l generalizing a with
  | nil => simp [isGreatest_singleton]
  | cons x l ih =>
    obtain ⟨hmem, hbound⟩ := ih (max a (f x))
    rw [List.foldl_cons]
    constructor
    · rcases hmem with hacc | ⟨y, hy, heq⟩
      · rw [hacc]
        rcases max_choice a (f x) with ha | hx
        · exact .inl ha
        · exact .inr ⟨x, List.mem_cons_self, hx.symm⟩
      · exact .inr ⟨y, List.mem_cons_of_mem x hy, heq⟩
    · have hacc := hbound (Set.mem_insert _ _)
      rintro n (rfl | ⟨y, hy, rfl⟩)
      · exact le_trans (le_max_left _ _) hacc
      · rcases List.mem_cons.mp hy with rfl | hy
        · exact le_trans (le_max_right _ _) hacc
        · exact hbound (.inr ⟨y, hy, rfl⟩)

variable {s : AllocPool} {F : Set (ℕ × ℕ)}

/-- The result is right unless there is no free chunk. -/
theorem Binned.largest_iff_nonempty (h : s.Binned F) : s.GivesLargest F ↔ F.Nonempty := by
  constructor
  · rintro ⟨n, hresult, -⟩
    by_contra hempty
    have hunmarked : ∀ i < 128, s.marked i = false := by
      intro i hi
      by_contra hmarked
      rw [Bool.not_eq_false, h.bits i hi] at hmarked
      obtain ⟨x, hx⟩ := List.exists_mem_of_ne_nil _ hmarked
      obtain ⟨m, hmem, -⟩ := (h.bin i x).mp hx
      exact hempty ⟨_, hmem⟩
    rw [s.largestFreeChunk_unmarked hunmarked] at hresult
    cases hresult
  · rintro ⟨⟨x, n⟩, hmem⟩
    have hbin : ∀ y m, (y, m) ∈ F → y ∈ s.mBins (binIndex m) :=
      fun y m hy => (h.bin _ y).mpr ⟨m, hy, rfl⟩
    obtain ⟨hi, hmarked⟩ := h.marked (hbin x n hmem)
    obtain ⟨k, hk, hkmarked, hlast, hresult⟩ := s.largestFreeChunk_marked hi hmarked
    obtain ⟨hin, hbound⟩ := foldl_max_isGreatest s.size (s.mBins k).reverse 0
    refine ⟨_, hresult, ?_, ?_⟩
    · rcases hin with hzero | ⟨y, hy, heq⟩
      · exact .inl hzero
      · obtain ⟨m, hy', -⟩ := (h.bin k y).mp (List.mem_reverse.mp hy)
        exact .inr ⟨(y, m), hy', by rw [← heq, h.size y m hy']⟩
    · rintro m (rfl | ⟨⟨y, m⟩, hy, rfl⟩)
      · exact Nat.zero_le _
      · have hym := hbin y m hy
        have hle : binIndex m ≤ k := by
          by_contra hgt
          obtain ⟨hlt, hmarked'⟩ := h.marked hym
          rw [hlast _ hlt (by omega)] at hmarked'
          cases hmarked'
        by_cases heq : binIndex m = k
        · rw [heq] at hym
          exact hbound (.inr ⟨y, List.mem_reverse.mpr hym, h.size y m hy⟩)
        · -- every chunk of a later bin is larger
          obtain ⟨z, hz⟩ := List.exists_mem_of_ne_nil _ ((h.bits k hk).mp hkmarked)
          obtain ⟨l, hz', hl⟩ := (h.bin k z).mp hz
          have hlt : m < l := by
            by_contra hle'
            have := binIndex_mono (not_lt.mp hle')
            omega
          have hzbound := hbound (.inr ⟨z, List.mem_reverse.mpr hz, h.size z l hz'⟩)
          exact le_trans hlt.le hzbound

end AllocPool

namespace PoolState

open AllocPool Runs

variable {pool ptr init more : ℕ} {mem : ℕ → ℕ} {s : AllocPool} {calls : List PoolCall}

/-- After every run of sound calls, the largest free chunk is found if there is one. -/
theorem givesLargest_iff (hm : Made s pool mem ptr init more)
    (hcalls : Guarded step Keeps ⟨s, fun _ => none⟩ calls) :
    (∃ h, InOrder (after s calls) h) ∧ ∀ h, InOrder (after s calls) h →
      ((after s calls).pool.GivesLargest (freeOf (chunks (after s calls).pool.mAreas h)) ↔
        (freeOf (chunks (after s calls).pool.mAreas h)).Nonempty) := by
  obtain ⟨h, hholds⟩ := (hm.run hcalls).holds
  exact ⟨⟨h, hholds.inOrder⟩, fun h' hin => hin.holds.rep.binned.largest_iff_nonempty⟩

theorem givesLargest_iff_two :
    let calls := [.alloc none 100, .alloc none 200, .free 8256]
    (∃ h, InOrder (after (fixedPool 65536) calls) h) ∧
      ∀ h, InOrder (after (fixedPool 65536) calls) h →
        ((after (fixedPool 65536) calls).pool.GivesLargest
            (freeOf (chunks (after (fixedPool 65536) calls).pool.mAreas h)) ↔
          (freeOf (chunks (after (fixedPool 65536) calls).pool.mAreas h)).Nonempty) :=
  givesLargest_iff (made_fixedPool (by decide) (by decide))
    ⟨⟨⟨by decide, fun _ p hp => by cases hp⟩, by decide⟩,
      ⟨⟨by decide, fun _ p hp => by cases hp⟩, by decide⟩,
      ⟨.inr (by decide), trivial⟩, trivial⟩

/-- A block that takes the whole pool leaves no free chunk, and no result. -/
theorem not_givesLargest_full :
    Guarded step Keeps ⟨fixedPool 65536, fun _ => none⟩ [.alloc none 65504] ∧
      (∃ h, InOrder (after (fixedPool 65536) [.alloc none 65504]) h) ∧
      ∀ F, ¬ (after (fixedPool 65536) [.alloc none 65504]).pool.GivesLargest F := by
  have hcalls : Guarded step Keeps ⟨fixedPool 65536, fun _ => none⟩ [.alloc none 65504] :=
    ⟨⟨⟨by decide, fun _ p hp => by cases hp⟩, by decide⟩, trivial⟩
  obtain ⟨h, hholds⟩ := ((made_fixedPool (by decide) (by decide)).run hcalls).holds
  refine ⟨hcalls, ⟨h, hholds.inOrder⟩, ?_⟩
  rintro F ⟨n, hresult, -⟩
  have hnone : (after (fixedPool 65536) [.alloc none 65504]).pool.largestFreeChunk = none := by
    decide
  rw [hnone] at hresult
  cases hresult

end PoolState

end PoopWorms.Server
