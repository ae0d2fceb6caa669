import PoopWorms.Server.AllocPool
import Mathlib.Tactic.Ring
import Mathlib.Tactic.Linarith

/-!
# The bins of the pool

The index of a bin grows with the size, the bits find the next bin that is not empty, and
linking and unlinking a chunk change the chunks of the bins by that chunk alone. The search
of `Alloc` is then a search in the set of all free chunks.
-/

namespace PoopWorms.Server.AllocPool

/-! ## Leading and trailing zeros -/

theorem clz_two_pow_sub_one {k : ℕ} (h : k ≤ 32) : clz (2 ^ k - 1) = 32 - k := by
  unfold clz
  cases k with
  | zero => simp
  | succ k =>
    have hpos : 0 < 2 ^ k := Nat.two_pow_pos k
    have hsucc : 2 ^ (k + 1) = 2 * 2 ^ k := by ring
    have hlog : Nat.log2 (2 ^ (k + 1) - 1) = k := by
      rw [Nat.log2_eq_iff (by omega)]
      omega
    rw [if_neg (by omega), hlog]
    omega

/-- Below the lowest bit that is set, the bits of `x - 1` are set and those of `x` are not;
above it they agree. -/
theorem testBit_sub_one {n k j : ℕ} (hlow : n % 2 ^ k = 0) (hbit : n / 2 ^ k % 2 = 1) :
    (n - 1).testBit j = if j < k then true else n.testBit j && decide (j ≠ k) := by
  obtain ⟨q, hq⟩ : ∃ q, n / 2 ^ k = 2 * q + 1 := ⟨n / 2 ^ k / 2, by omega⟩
  have hpos : 0 < 2 ^ k := Nat.two_pow_pos k
  have hn : n = 2 ^ k * (2 * q + 1) := by
    rw [← hq]
    have := Nat.div_add_mod n (2 ^ k)
    omega
  have hsub : n - 1 = 2 ^ k * (2 * q) + (2 ^ k - 1) := by
    rw [hn]
    have : 2 ^ k * (2 * q + 1) = 2 ^ k * (2 * q) + 2 ^ k := by ring
    omega
  have hn' : n = 2 ^ k * (2 * q + 1) + 0 := by omega
  rw [hsub, Nat.testBit_two_pow_mul_add _ (by omega)]
  split_ifs with hj
  · simp [hj]
  · rw [hn', Nat.testBit_two_pow_mul_add _ hpos, if_neg hj]
    obtain ⟨i, rfl⟩ : ∃ i, j = k + i := ⟨j - k, by omega⟩
    rw [Nat.add_sub_cancel_left]
    cases i with
    | zero => simp
    | succ i =>
      rw [Nat.testBit_succ, Nat.testBit_succ]
      have hdiv : (2 * q + 1) / 2 = 2 * q / 2 := by omega
      simp [hdiv]

theorem ctz_spec {x : BitVec 32} (hx : x ≠ 0#32) :
    x.getLsbD (ctz x) = true ∧ ∀ j < ctz x, x.getLsbD j = false := by
  have hexists : ∃ k, x.getLsbD k = true := by
    by_contra hnone
    apply hx
    apply BitVec.eq_of_getLsbD_eq
    intro j hj
    rw [BitVec.getLsbD_zero]
    exact Bool.eq_false_iff.mpr fun h => hnone ⟨j, h⟩
  -- the lowest bit that is set
  obtain ⟨k, hk, hleast⟩ : ∃ k, x.getLsbD k = true ∧ ∀ j < k, x.getLsbD j = false :=
    ⟨Nat.find hexists, Nat.find_spec hexists, fun j hj => by simpa using Nat.find_min hexists hj⟩
  have hk32 : k < 32 := BitVec.lt_of_getLsbD hk
  have hlow : x.toNat % 2 ^ k = 0 := by
    apply Nat.eq_of_testBit_eq
    intro j
    rw [Nat.testBit_mod_two_pow, Nat.zero_testBit]
    by_cases hj : j < k
    · have hzero : x.toNat.testBit j = false := hleast j hj
      simp [hj, hzero]
    · simp [hj]
  have hbit : x.toNat / 2 ^ k % 2 = 1 := by
    rw [BitVec.getLsbD, Nat.testBit_eq_decide_div_mod_eq] at hk
    simpa using hk
  have hpos : 1 ≤ x.toNat := by
    have : x.toNat ≠ 0 := fun h => hx (BitVec.eq_of_toNat_eq h)
    omega
  have hmask : (~~~x &&& (x - 1#32)).toNat = 2 ^ k - 1 := by
    apply Nat.eq_of_testBit_eq
    intro j
    have hpred : (x - 1#32).toNat = x.toNat - 1 := by
      have := x.isLt
      rw [BitVec.toNat_sub]
      simp
      omega
    rw [BitVec.testBit_toNat, BitVec.getLsbD_and, BitVec.getLsbD_not, Nat.testBit_two_pow_sub_one,
      BitVec.getLsbD, BitVec.getLsbD, hpred, testBit_sub_one hlow hbit]
    by_cases hj : j < k
    · have hzero : x.toNat.testBit j = false := hleast j hj
      simp [hj, hzero]
      omega
    · rw [if_neg hj]
      cases x.toNat.testBit j <;> simp [hj]
  have hctz : ctz x = k := by
    unfold ctz
    rw [hmask, clz_two_pow_sub_one (by omega)]
    omega
  rw [hctz]
  exact ⟨hk, hleast⟩

/-! ## Sizes -/

/-- Where nothing wraps around, a request is rounded up with the room for the header. -/
theorem requestToSize_spec {inReqSize : ℕ} (h : inReqSize + 48 ≤ 2 ^ 64) :
    32 ≤ requestToSize inReqSize ∧ requestToSize inReqSize % 16 = 0 ∧
      inReqSize + 32 ≤ requestToSize inReqSize ∧ requestToSize inReqSize ≤ inReqSize + 47 := by
  have hsum : (inReqSize + sizeofAllocChunk) % 2 ^ 64 = inReqSize + 32 :=
    Nat.mod_eq_of_lt (by simp only [sizeofAllocChunk]; omega)
  have hdef : requestToSize inReqSize = if inReqSize + 32 ≤ 32 then 32
      else (inReqSize + 32 + 15) % 2 ^ 64 / 16 * 16 := by
    unfold requestToSize
    rw [hsum]
    rfl
  rw [hdef]
  by_cases hmin : inReqSize + 32 ≤ 32
  · rw [if_pos hmin]
    omega
  · rw [if_neg hmin]
    omega

theorem log2_spec {n : ℕ} (h : 0 < n) : 2 ^ Nat.log2 n ≤ n ∧ n < 2 ^ (Nat.log2 n + 1) :=
  (Nat.log2_eq_iff (by omega)).mp rfl

/-- The index of a size between the small ones and the largest, by its highest four bits. -/
theorem binIndex_middle {n : ℕ} (hlow : 1024 ≤ n) (hhigh : n < 262144) :
    ∃ bits, 7 ≤ bits ∧ bits ≤ 14 ∧ 8 * 2 ^ bits ≤ n ∧ n < 16 * 2 ^ bits ∧
      binIndex n = 8 * bits + n / 2 ^ bits := by
  obtain ⟨hle, hlt⟩ := log2_spec (n := n) (by omega)
  have hten : 10 ≤ Nat.log2 n := by
    by_contra hlog
    have : 2 ^ (Nat.log2 n + 1) ≤ 2 ^ 10 := Nat.pow_le_pow_right (by decide) (by omega)
    omega
  have hseventeen : Nat.log2 n ≤ 17 := by
    by_contra hlog
    have : 2 ^ 18 ≤ 2 ^ Nat.log2 n := Nat.pow_le_pow_right (by decide) (by omega)
    omega
  obtain ⟨bits, hbits⟩ : ∃ bits, Nat.log2 n = bits + 3 := ⟨Nat.log2 n - 3, by omega⟩
  have hclz : 28 - clz n = bits := by
    unfold clz
    rw [if_neg (by omega), hbits]
    omega
  rw [hbits] at hle hlt
  have h3 : 2 ^ (bits + 3) = 8 * 2 ^ bits := by ring
  have h4 : 2 ^ (bits + 3 + 1) = 16 * 2 ^ bits := by ring
  refine ⟨bits, by omega, by omega, by omega, by omega, ?_⟩
  unfold binIndex
  rw [if_neg (by omega), if_neg (by omega)]
  simp only [hclz, Nat.shiftLeft_eq, Nat.shiftRight_eq_div_pow]
  omega

theorem binIndex_small {n : ℕ} (h : n < 1024) : binIndex n = n / 16 := by
  unfold binIndex
  rw [if_pos h, Nat.shiftRight_eq_div_pow]

theorem binIndex_large {n : ℕ} (h : 262144 ≤ n) : binIndex n = 127 := by
  unfold binIndex
  rw [if_neg (by omega), if_pos h]

/-- The index of a size that is not small, with bounds for the division. -/
theorem binIndex_middle_bounds {n : ℕ} (hlow : 1024 ≤ n) (hhigh : n < 262144) :
    64 ≤ binIndex n ∧ binIndex n ≤ 127 := by
  obtain ⟨bits, h7, h14, hle, hlt, heq⟩ := binIndex_middle hlow hhigh
  have h8 : 8 ≤ n / 2 ^ bits := by
    rw [Nat.le_div_iff_mul_le (Nat.two_pow_pos bits)]
    omega
  have h16 : n / 2 ^ bits < 16 := by
    rw [Nat.div_lt_iff_lt_mul (Nat.two_pow_pos bits)]
    omega
  omega

theorem binIndex_lt (n : ℕ) : binIndex n < 128 := by
  by_cases hsmall : n < 1024
  · rw [binIndex_small hsmall]
    omega
  · by_cases hlarge : 262144 ≤ n
    · rw [binIndex_large hlarge]
      decide
    · have := binIndex_middle_bounds (n := n) (by omega) (by omega)
      omega

/-- Larger chunks are in later bins. -/
theorem binIndex_mono {n m : ℕ} (h : n ≤ m) : binIndex n ≤ binIndex m := by
  by_cases hm : 262144 ≤ m
  · rw [binIndex_large hm]
    have := binIndex_lt n
    omega
  · by_cases hn : n < 1024
    · rw [binIndex_small hn]
      by_cases hm' : m < 1024
      · rw [binIndex_small hm']
        omega
      · have := binIndex_middle_bounds (n := m) (by omega) (by omega)
        omega
    · obtain ⟨b, _, _, hle, hlt, heq⟩ := binIndex_middle (n := n) (by omega) (by omega)
      obtain ⟨b', _, _, hle', hlt', heq'⟩ := binIndex_middle (n := m) (by omega) (by omega)
      -- a larger size has as many bits, or more
      have hbits : b ≤ b' := by
        by_contra hb
        have : 2 * 2 ^ b' ≤ 2 ^ b := by
          calc 2 * 2 ^ b' = 2 ^ (b' + 1) := by ring
            _ ≤ 2 ^ b := Nat.pow_le_pow_right (by decide) (by omega)
        omega
      rcases Nat.lt_or_eq_of_le hbits with hlt | rfl
      · have h16 : n / 2 ^ b < 16 := by
          rw [Nat.div_lt_iff_lt_mul (Nat.two_pow_pos b)]
          omega
        have h8 : 8 ≤ m / 2 ^ b' := by
          rw [Nat.le_div_iff_mul_le (Nat.two_pow_pos b')]
          omega
        omega
      · have := Nat.div_le_div_right (c := 2 ^ b) h
        omega

/-- The `int32` is the difference of the sizes if it holds it, and negative if the chunk is
larger than it can hold. -/
theorem remainderSize_eq {candidate_size size : ℕ} (h : size ≤ candidate_size + 2 ^ 31)
    (hlt : candidate_size < size + 2 ^ 31) :
    remainderSize candidate_size size = (candidate_size : ℤ) - size := by
  unfold remainderSize
  rw [Int.bmod_eq_iff (by decide)]
  omega

theorem remainderSize_neg {candidate_size size : ℕ} (h : size + 2 ^ 31 ≤ candidate_size)
    (hlt : candidate_size < size + 2 ^ 32) : remainderSize candidate_size size < 0 := by
  have heq : remainderSize candidate_size size = (candidate_size : ℤ) - size - 2 ^ 32 := by
    unfold remainderSize
    rw [Int.bmod_eq_iff (by decide)]
    omega
  omega

/-! ## Bits -/

variable (s : AllocPool)

/-- The bit of a bin. -/
def marked (i : ℕ) : Bool := (s.mBinBlocks (i / 32)).getLsbD (i % 32)

theorem getLsbD_bitValue {k j : ℕ} (hj : j < 32) :
    (1#32 <<< k).getLsbD j = decide (j = k) := by
  rw [BitVec.getLsbD_shiftLeft, BitVec.getLsbD_one]
  by_cases heq : j = k
  · simp [heq]
    omega
  · simp [heq]
    omega

theorem marked_markBinBlock (i j : ℕ) :
    (s.markBinBlock i).marked j = (s.marked j || decide (j = i)) := by
  unfold marked markBinBlock
  have hmod : j % 32 < 32 := Nat.mod_lt _ (by decide)
  by_cases hword : j / 32 = i / 32
  · have hiff : j % 32 = i % 32 ↔ j = i := by omega
    simp only [hword, Function.update_self, BitVec.getLsbD_or, getLsbD_bitValue hmod, hiff]
  · have hne : j ≠ i := fun heq => hword (heq ▸ rfl)
    simp [Function.update_of_ne hword, hne]

theorem marked_clearBinBlock (i j : ℕ) :
    (s.clearBinBlock i).marked j = (s.marked j && decide (j ≠ i)) := by
  unfold marked clearBinBlock
  have hmod : j % 32 < 32 := Nat.mod_lt _ (by decide)
  by_cases hword : j / 32 = i / 32
  · have hiff : j % 32 = i % 32 ↔ j = i := by omega
    simp only [hword, Function.update_self, BitVec.getLsbD_and, BitVec.getLsbD_not,
      getLsbD_bitValue hmod, hiff, hmod]
    simp
  · have hne : j ≠ i := fun heq => hword (heq ▸ rfl)
    simp [Function.update_of_ne hword, hne]

theorem toNat_bitValue {k : ℕ} (hk : k < 32) : (1#32 <<< k).toNat = 2 ^ k := by
  have : 2 ^ k < 2 ^ 32 := Nat.pow_lt_pow_right (by decide) hk
  rw [BitVec.toNat_shiftLeft, Nat.shiftLeft_eq]
  simp
  omega

/-- The lowest bit that is set from `pos` on. -/
theorem ctz_mask {x : BitVec 32} {pos : ℕ} (hpos : pos < 32) (h : 1#32 <<< pos ≤ x) :
    let k := ctz (~~~(1#32 <<< pos - 1#32) &&& x)
    pos ≤ k ∧ k < 32 ∧ x.getLsbD k = true ∧ ∀ j, pos ≤ j → j < k → x.getLsbD j = false := by
  have hvalue := toNat_bitValue hpos
  have hmask : ∀ j, (~~~(1#32 <<< pos - 1#32) &&& x).getLsbD j =
      (decide (pos ≤ j) && x.getLsbD j) := by
    intro j
    have hbelow : (1#32 <<< pos - 1#32).toNat = 2 ^ pos - 1 := by
      have hle : 2 ^ pos < 2 ^ 32 := Nat.pow_lt_pow_right (by decide) hpos
      have hone : 1 ≤ 2 ^ pos := Nat.one_le_two_pow
      rw [BitVec.toNat_sub, hvalue]
      simp
      omega
    rw [BitVec.getLsbD_and, BitVec.getLsbD_not]
    by_cases hj : j < 32
    · have hnot : (!decide (j < pos)) = decide (pos ≤ j) := by
        rw [← decide_not]
        simp only [not_lt]
      rw [BitVec.getLsbD, hbelow, Nat.testBit_two_pow_sub_one, hnot]
      simp [hj]
    · simp [BitVec.getLsbD_of_ge x j (by omega)]
  have hne : ~~~(1#32 <<< pos - 1#32) &&& x ≠ 0#32 := by
    intro hzero
    rw [BitVec.le_def, hvalue] at h
    obtain ⟨j, hj, hbit⟩ := Nat.exists_ge_and_testBit_of_ge_two_pow h
    have := hmask j
    rw [hzero, BitVec.getLsbD_zero, BitVec.getLsbD, hbit] at this
    simp at this
    omega
  obtain ⟨hset, hleast⟩ := ctz_spec hne
  intro k
  rw [hmask, Bool.and_eq_true, decide_eq_true_eq] at hset
  refine ⟨hset.1, BitVec.lt_of_getLsbD hset.2, hset.2, fun j hj hlt => ?_⟩
  have := hleast j hlt
  rw [hmask] at this
  simpa [hj] using this

/-- The bit search: no bin from `i` on is marked, or the result is the first one. -/
theorem nextFullBin_spec (i : ℕ) :
    (s.nextFullBin i = none ∧ ∀ j, i ≤ j → j < 128 → s.marked j = false) ∨
      ∃ k, s.nextFullBin i = some k ∧ i ≤ k ∧ k < 128 ∧ s.marked k = true ∧
        ∀ j, i ≤ j → j < k → s.marked j = false := by
  unfold nextFullBin
  by_cases hend : 128 ≤ i
  · rw [if_pos hend]
    exact .inl ⟨rfl, fun j _ _ => by omega⟩
  rw [if_neg hend]
  have hmod : i % 32 < 32 := Nat.mod_lt _ (by decide)
  -- the place of a bin in its word
  have hmarked : ∀ w p, p < 32 → s.marked (w * 32 + p) = (s.mBinBlocks w).getLsbD p := by
    intro w p hp
    unfold marked
    rw [show (w * 32 + p) / 32 = w by omega, show (w * 32 + p) % 32 = p by omega]
  have hsplit : ∀ j, s.marked j = (s.mBinBlocks (j / 32)).getLsbD (j % 32) := fun _ => rfl
  by_cases hword : 1#32 <<< (i % 32) ≤ s.mBinBlocks (i / 32)
  · obtain ⟨hle, hlt, hset, hleast⟩ := ctz_mask hmod hword
    rw [if_pos hword]
    refine .inr ⟨_, rfl, by omega, by omega, ?_, fun j hj hjk => ?_⟩
    · rw [hmarked _ _ hlt]
      exact hset
    · have hj32 : j / 32 = i / 32 := by omega
      rw [hsplit, hj32]
      exact hleast _ (by omega) (by omega)
  · rw [if_neg hword]
    -- the rest of the first word is empty
    have hrest : ∀ j, i ≤ j → j / 32 = i / 32 → s.marked j = false := by
      intro j hj hj32
      rw [hsplit, hj32]
      by_contra hbit
      rw [Bool.not_eq_false] at hbit
      apply hword
      have hge : 2 ^ (j % 32) ≤ (s.mBinBlocks (i / 32)).toNat :=
        Nat.ge_two_pow_of_testBit hbit
      have hpow : 2 ^ (i % 32) ≤ 2 ^ (j % 32) := Nat.pow_le_pow_right (by decide) (by omega)
      rw [BitVec.le_def, toNat_bitValue hmod]
      omega
    cases hfind : (List.range 4).find? fun w => i / 32 < w ∧ s.mBinBlocks w ≠ 0 with
    | none =>
      refine .inl ⟨rfl, fun j hj hlt => ?_⟩
      by_cases hj32 : j / 32 = i / 32
      · exact hrest j hj hj32
      · have hzero := List.find?_eq_none.mp hfind (j / 32) (List.mem_range.mpr (by omega))
        simp only [decide_eq_true_eq, not_and, not_not] at hzero
        rw [hsplit, hzero (by omega)]
        exact BitVec.getLsbD_zero
    | some w =>
      obtain ⟨hw, hw4, hbefore⟩ := List.find?_range_eq_some.mp hfind
      rw [decide_eq_true_eq] at hw
      obtain ⟨hset, hleast⟩ := ctz_spec hw.2
      have hlt := BitVec.lt_of_getLsbD hset
      rw [List.mem_range] at hw4
      refine .inr ⟨w * 32 + ctz (s.mBinBlocks w), rfl, by omega, by omega, ?_, fun j hj hjk => ?_⟩
      · rw [hmarked _ _ hlt]
        exact hset
      · by_cases hj32 : j / 32 = i / 32
        · exact hrest j hj hj32
        · by_cases hjw : j / 32 = w
          · rw [hsplit, hjw]
            exact hleast _ (by omega)
          · -- a word in front of the one that was found
            have hzero := hbefore (j / 32) (by omega)
            simp only [Bool.not_eq_true', decide_eq_false_iff_not, not_and, not_not] at hzero
            rw [hsplit, hzero (by omega)]
            exact BitVec.getLsbD_zero

end PoopWorms.Server.AllocPool
