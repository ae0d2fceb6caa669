import PoopWorms.Server.AllocPoolFree

/-!
# The search of `Alloc`

The loops over the bins find a free chunk that is large enough if there is one that is not
so large that the `int32` difference of the sizes is negative. A chunk that is found is large
enough if the differences can be told from an `int32`.
-/

namespace PoopWorms.Server.AllocPool

variable {s : AllocPool} {F : Set (ℕ × ℕ)} {size : ℕ} {fit : Fit}

/-- A chunk that is too small, or so large that it is taken for one that is too small. -/
def Unfit (size n : ℕ) : Prop := n < size ∨ size + 2 ^ 31 ≤ n

/-- The difference of the request to each chunk that it is compared with is one that the
comparison of `int32`s does not take for another. -/
def Comparable (F : Set (ℕ × ℕ)) (size : ℕ) : Prop :=
  ∀ u ∈ F, binIndex size ≤ binIndex u.2 → size ≤ u.2 + 2 ^ 31 ∧ u.2 < size + 2 ^ 32

/-- What the search may find. -/
def Fit.Of (F : Set (ℕ × ℕ)) (size : ℕ) : Fit → Prop
  | .exactFit c => ∃ n, (c, n) ∈ F ∧ size ≤ n ∧ n < size + 32
  | .biggerFit c r =>
    ∃ n, (c, n) ∈ F ∧ size + 32 ≤ n ∧ n < size + 2 ^ 31 ∧ r = (n : ℤ) - size

/-- What a scan finds, by the difference of the sizes. -/
def Fit.From (s : AllocPool) (size : ℕ) (l : List ℕ) : Fit → Prop
  | .exactFit c => c ∈ l ∧ 0 ≤ remainderSize (s.size c) size ∧ remainderSize (s.size c) size < 32
  | .biggerFit c r => c ∈ l ∧ 32 ≤ r ∧ r = remainderSize (s.size c) size

/-- One turn of the scan. -/
theorem scanBin_cons (s : AllocPool) (size c : ℕ) (rest : List ℕ) :
    (remainderSize (s.size c) size < 0 ∧ s.scanBin size (c :: rest) = s.scanBin size rest) ∨
      ∃ fit, s.scanBin size (c :: rest) = some fit ∧ fit.From s size [c] := by
  have hdef : s.scanBin size (c :: rest) =
      if (32 : ℤ) ≤ remainderSize (s.size c) size then
        some (.biggerFit c (remainderSize (s.size c) size))
      else if 0 ≤ remainderSize (s.size c) size then some (.exactFit c)
      else s.scanBin size rest := rfl
  rw [hdef]
  by_cases hbigger : (32 : ℤ) ≤ remainderSize (s.size c) size
  · rw [if_pos hbigger]
    exact .inr ⟨_, rfl, List.mem_singleton_self c, hbigger, rfl⟩
  · rw [if_neg hbigger]
    by_cases hexact : (0 : ℤ) ≤ remainderSize (s.size c) size
    · rw [if_pos hexact]
      exact .inr ⟨_, rfl, List.mem_singleton_self c, hexact, by omega⟩
    · rw [if_neg hexact]
      exact .inl ⟨by omega, rfl⟩

/-- A scan that finds nothing has seen no chunk that fits. -/
theorem scanBin_none {l : List ℕ} (h : s.scanBin size l = none) :
    ∀ c ∈ l, Unfit size (s.size c) := by
  induction l with
  | nil => exact fun c hc => absurd hc List.not_mem_nil
  | cons c rest ih =>
    rcases s.scanBin_cons size c rest with ⟨hneg, heq⟩ | ⟨fit, hsome, -⟩
    · intro c' hc'
      rcases List.mem_cons.mp hc' with rfl | hmem
      · by_contra hfits
        unfold Unfit at hfits
        rw [remainderSize_eq (by omega) (by omega)] at hneg
        omega
      · exact ih (heq ▸ h) c' hmem
    · rw [hsome] at h
      cases h

/-- What is found is one of the chunks. -/
theorem scanBin_some {l : List ℕ} (h : s.scanBin size l = some fit) : fit.From s size l := by
  induction l with
  | nil => cases h
  | cons c rest ih =>
    rcases s.scanBin_cons size c rest with ⟨-, heq⟩ | ⟨fit', hsome, hfrom⟩
    · have hrest := ih (heq ▸ h)
      cases fit with
      | exactFit c' => exact ⟨List.mem_cons_of_mem _ hrest.1, hrest.2⟩
      | biggerFit c' r => exact ⟨List.mem_cons_of_mem _ hrest.1, hrest.2⟩
    · cases hsome.symm.trans h
      cases fit with
      | exactFit c' =>
        have heq := List.mem_singleton.mp hfrom.1
        exact ⟨heq ▸ List.mem_cons_self, hfrom.2⟩
      | biggerFit c' r =>
        have heq := List.mem_singleton.mp hfrom.1
        exact ⟨heq ▸ List.mem_cons_self, hfrom.2⟩

/-- An unmarked bin is empty. -/
theorem Binned.marked (h : s.Binned F) {i c : ℕ} (hc : c ∈ s.mBins i) :
    i < 128 ∧ s.marked i = true := by
  obtain ⟨n, -, hindex⟩ := (h.bin i c).mp hc
  have hi : i < 128 := hindex ▸ binIndex_lt n
  exact ⟨hi, (h.bits i hi).mpr (List.ne_nil_of_mem hc)⟩

/-- The loop over the bins sees all chunks from one bin on. -/
theorem scanBins_none (h : s.Binned F) (fuel i : ℕ) (hfuel : 128 ≤ i + fuel)
    (hnone : s.scanBins size fuel i = none) :
    ∀ j, i ≤ j → ∀ c ∈ s.mBins j, Unfit size (s.size c) := by
  induction fuel generalizing i with
  | zero =>
    intro j hij c hc
    have := (h.marked hc).1
    omega
  | succ fuel ih =>
    intro j hij c hc
    obtain ⟨hj, hmarked⟩ := h.marked hc
    unfold scanBins at hnone
    rcases s.nextFullBin_spec i with ⟨-, hall⟩ | ⟨k, hsome, hik, hk, -, hbefore⟩
    · rw [hall j hij hj] at hmarked
      cases hmarked
    · rw [hsome] at hnone
      simp only at hnone
      cases hscan : s.scanBin size (s.mBins k).reverse with
      | some fit =>
        rw [hscan] at hnone
        cases hnone
      | none =>
        rw [hscan] at hnone
        rcases Nat.lt_trichotomy j k with hlt | rfl | hgt
        · rw [hbefore j hij hlt] at hmarked
          cases hmarked
        · exact scanBin_none hscan c (List.mem_reverse.mpr hc)
        · exact ih (k + 1) (by omega) hnone j hgt c hc

theorem scanBins_some {fuel i : ℕ} (hsome : s.scanBins size fuel i = some fit) :
    ∃ j, i ≤ j ∧ fit.From s size (s.mBins j).reverse := by
  induction fuel generalizing i with
  | zero => cases hsome
  | succ fuel ih =>
    unfold scanBins at hsome
    rcases s.nextFullBin_spec i with ⟨hnone, -⟩ | ⟨k, hnext, hik, -⟩
    · rw [hnone] at hsome
      cases hsome
    · rw [hnext] at hsome
      simp only at hsome
      cases hscan : s.scanBin size (s.mBins k).reverse with
      | some fit' =>
        rw [hscan] at hsome
        cases hsome
        exact ⟨k, hik, scanBin_some hscan⟩
      | none =>
        rw [hscan] at hsome
        obtain ⟨j, hj, hfrom⟩ := ih hsome
        exact ⟨j, by omega, hfrom⟩

/-- With sizes that can be compared, a chunk that is found is large enough. -/
theorem Fit.From.of (h : s.Binned F) (hcomp : Comparable F size) {i : ℕ}
    (hi : binIndex size ≤ i) (hfrom : fit.From s size (s.mBins i).reverse) : fit.Of F size := by
  have hsize : ∀ c ∈ (s.mBins i).reverse, ∃ n, (c, n) ∈ F ∧ s.size c = n ∧
      (0 ≤ remainderSize n size →
        n < size + 2 ^ 31 ∧ remainderSize n size = (n : ℤ) - size) := by
    intro c hc
    obtain ⟨n, hmem, hindex⟩ := (h.bin i c).mp (List.mem_reverse.mp hc)
    obtain ⟨hle, hlt⟩ := hcomp _ hmem (by simp only [hindex]; exact hi)
    refine ⟨n, hmem, h.size c n hmem, fun hpos => ?_⟩
    by_cases hlarge : size + 2 ^ 31 ≤ n
    · have := remainderSize_neg hlarge hlt
      omega
    · exact ⟨by omega, remainderSize_eq hle (by omega)⟩
  cases fit with
  | exactFit c =>
    obtain ⟨hmem, hpos, hlt⟩ := hfrom
    obtain ⟨n, hF, heq, hrem⟩ := hsize c hmem
    rw [heq] at hpos hlt
    have := hrem hpos
    exact ⟨n, hF, by omega, by omega⟩
  | biggerFit c r =>
    obtain ⟨hmem, hpos, hr⟩ := hfrom
    obtain ⟨n, hF, heq, hrem⟩ := hsize c hmem
    rw [heq] at hr
    have := hrem (by omega)
    exact ⟨n, hF, by omega, this.1, hr.trans this.2⟩

/-- The last chunk of a small bin fits: the sizes in a bin differ by less than 16. -/
theorem small_fits (h : s.Binned F) {i c : ℕ} (hi : i < 64) (hc : c ∈ s.mBins i)
    (hsize : size / 16 ≤ i) (hle : i ≤ size / 16 + 1) (halign : size % 16 = 0) :
    (Fit.exactFit c).Of F size := by
  obtain ⟨n, hmem, hindex⟩ := (h.bin i c).mp hc
  have hsmall : n < 1024 := by
    by_contra hn
    have := binIndex_mono (n := 1024) (m := n) (by omega)
    have h1024 : binIndex 1024 = 64 := by decide
    omega
  rw [binIndex_small hsmall] at hindex
  exact ⟨n, hmem, by omega, by omega⟩

/-- The small sizes are those of the first bins. -/
theorem lt_of_binIndex_lt (hsmall : binIndex size < kMaxSmallBin) :
    size < 1024 ∧ binIndex size = size / 16 := by
  unfold kMaxSmallBin kNumSmallBins at hsmall
  have hsize : size < 1024 := by
    by_contra hn
    have := binIndex_mono (n := 1024) (m := size) (by omega)
    have h1024 : binIndex 1024 = 64 := by decide
    omega
  exact ⟨hsize, binIndex_small hsize⟩

/-- If the search finds nothing, no chunk fits. -/
theorem search_none (h : s.Binned F) (hnone : s.search size = none) :
    ∀ u ∈ F, Unfit size u.2 := by
  -- chunks that are large enough are in the bins from the first one on
  have hbins : ∀ i, (∀ j, i ≤ j → ∀ c ∈ s.mBins j, Unfit size (s.size c)) →
      (∀ j, binIndex size ≤ j → j < i → ∀ c ∈ s.mBins j, Unfit size (s.size c)) →
      ∀ u ∈ F, Unfit size u.2 := by
    intro i hlater hbefore u hu
    have hmem := (h.bin _ u.1).mpr ⟨u.2, hu, rfl⟩
    rw [← h.size u.1 u.2 hu]
    by_cases hsmaller : u.2 < size
    · rw [h.size u.1 u.2 hu]
      exact .inl hsmaller
    · by_cases hi : i ≤ binIndex u.2
      · exact hlater _ hi _ hmem
      · exact hbefore _ (binIndex_mono (by omega)) (by omega) _ hmem
  unfold search at hnone
  by_cases hsmall : binIndex size < kMaxSmallBin
  · rw [if_pos hsmall] at hnone
    cases hlast : (s.mBins (binIndex size)).getLast? with
    | some c =>
      rw [hlast] at hnone
      cases hnone
    | none =>
      rw [hlast] at hnone
      simp only at hnone
      cases hlast' : (s.mBins (binIndex size + 1)).getLast? with
      | some c =>
        rw [hlast'] at hnone
        cases hnone
      | none =>
        rw [hlast'] at hnone
        apply hbins _ (scanBins_none h 128 _ (by omega) hnone)
        -- both bins are empty
        intro j hge hlt c hc
        by_cases heq : j = binIndex size
        · rw [heq, List.getLast?_eq_none_iff.mp hlast] at hc
          exact absurd hc List.not_mem_nil
        · have heq' : j = binIndex size + 1 := by omega
          rw [heq', List.getLast?_eq_none_iff.mp hlast'] at hc
          exact absurd hc List.not_mem_nil
  · rw [if_neg hsmall] at hnone
    cases hscan : s.scanBin size (s.mBins (binIndex size)).reverse with
    | none =>
      rw [hscan] at hnone
      apply hbins _ (scanBins_none h 128 _ (by omega) hnone)
      intro j hge hlt c hc
      have heq : j = binIndex size := by omega
      rw [heq] at hc
      exact scanBin_none hscan c (List.mem_reverse.mpr hc)
    | some fit =>
      rw [hscan] at hnone
      cases fit with
      | exactFit c => cases hnone
      | biggerFit c r =>
        -- the bin is scanned again
        exact hbins _ (scanBins_none h 128 _ (by omega) hnone) fun j hge hlt => by omega

/-- With sizes that can be compared, what the search finds is large enough. -/
theorem search_some (hcomp : Comparable F size) (h : s.Binned F) (halign : size % 16 = 0)
    (hsome : s.search size = some fit) : fit.Of F size := by
  have hbins : ∀ {i : ℕ}, binIndex size ≤ i → s.scanBins size 128 i = some fit →
      fit.Of F size := by
    intro i hi hfound
    obtain ⟨j, hj, hfrom⟩ := scanBins_some hfound
    exact hfrom.of h hcomp (hi.trans hj)
  unfold search at hsome
  by_cases hsmall : binIndex size < kMaxSmallBin
  · rw [if_pos hsmall] at hsome
    obtain ⟨hsize, hindex⟩ := lt_of_binIndex_lt hsmall
    unfold kMaxSmallBin kNumSmallBins at hsmall
    cases hlast : (s.mBins (binIndex size)).getLast? with
    | some c =>
      rw [hlast] at hsome
      cases hsome
      exact small_fits h (by omega) (List.mem_of_getLast? hlast) (by omega) (by omega) halign
    | none =>
      rw [hlast] at hsome
      simp only at hsome
      cases hlast' : (s.mBins (binIndex size + 1)).getLast? with
      | some c =>
        rw [hlast'] at hsome
        cases hsome
        exact small_fits h (by omega) (List.mem_of_getLast? hlast') (by omega) (by omega) halign
      | none =>
        rw [hlast'] at hsome
        exact hbins (by omega) hsome
  · rw [if_neg hsmall] at hsome
    cases hscan : s.scanBin size (s.mBins (binIndex size)).reverse with
    | none =>
      rw [hscan] at hsome
      exact hbins (by omega) hsome
    | some fit' =>
      rw [hscan] at hsome
      cases fit' with
      | exactFit c =>
        cases hsome
        exact (scanBin_some hscan).of h hcomp (le_refl _)
      | biggerFit c r => exact hbins (le_refl _) hsome

end PoopWorms.Server.AllocPool
