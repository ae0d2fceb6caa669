import PoopWorms.Server.AllocPoolBins
import Mathlib.Data.List.Nodup
import Mathlib.Data.Set.Insert

/-!
# The free chunks of the pool

`Binned s F` says that the bins hold the free chunks `F`, given as addresses with sizes: each
chunk is in the bin of its size and in no other, and a bin is marked when it is not empty.
Linking and unlinking change `F` by one chunk and write to no words but those of links.
-/

namespace PoopWorms.Server.AllocPool

/-- A word of the links of a chunk in `F` or of a bin. -/
def LinkWord (pool : ℕ) (F : Set (ℕ × ℕ)) (w : ℕ) : Prop :=
  (∃ u ∈ F, w = u.1 ∨ w = u.1 + 8) ∨ pool ≤ w ∧ w < pool + 4096

/-- A header at `c` does not touch those of `F` or the pool. -/
structure Clear (pool : ℕ) (F : Set (ℕ × ℕ)) (c : ℕ) : Prop where
  ofChunks : ∀ u ∈ F, u.1 + 32 ≤ c ∨ c + 32 ≤ u.1
  ofPool : c + 32 ≤ pool ∨ pool + 4096 ≤ c

/-- The headers of the chunks do not touch each other or the pool. -/
structure Spaced (pool : ℕ) (F : Set (ℕ × ℕ)) : Prop where
  apart : ∀ u ∈ F, ∀ v ∈ F, u = v ∨ u.1 + 32 ≤ v.1 ∨ v.1 + 32 ≤ u.1
  ofPool : ∀ u ∈ F, u.1 + 32 ≤ pool ∨ pool + 4096 ≤ u.1

structure Binned (s : AllocPool) (F : Set (ℕ × ℕ)) : Prop where
  bin : ∀ i x, x ∈ s.mBins i ↔ ∃ n, (x, n) ∈ F ∧ binIndex n = i
  nodup : ∀ i, (s.mBins i).Nodup
  bits : ∀ i < 128, s.marked i = true ↔ s.mBins i ≠ []
  size : ∀ x n, (x, n) ∈ F → s.size x = n
  spaced : Spaced s.self F

variable {s s' : AllocPool} {F : Set (ℕ × ℕ)} {c n w : ℕ}

theorem LinkWord.mono {F' : Set (ℕ × ℕ)} (h : LinkWord s.self F w) (hsub : F ⊆ F') :
    LinkWord s.self F' w := by
  rcases h with ⟨u, hu, hw⟩ | hpool
  · exact .inl ⟨u, hsub hu, hw⟩
  · exact .inr hpool

/-- The links are not the sizes of a header that is clear of them. -/
theorem Clear.not_linkWord {pool : ℕ} (h : Clear pool F c) (hle : c ≤ w) (hlt : w < c + 32) :
    ¬ LinkWord pool F w := by
  intro hlink
  rcases hlink with ⟨u, hu, hw⟩ | hpool
  · have := h.ofChunks u hu
    omega
  · have := h.ofPool
    omega

theorem Spaced.insert {pool : ℕ} (h : Spaced pool F) (hclear : Clear pool F c) :
    Spaced pool (insert (c, n) F) where
  apart := by
    intro u hu v hv
    rcases hu with rfl | hu <;> rcases hv with rfl | hv
    · exact .inl rfl
    · have := hclear.ofChunks v hv
      exact .inr (by omega)
    · have := hclear.ofChunks u hu
      exact .inr (by omega)
    · exact h.apart u hu v hv
  ofPool := by
    intro u hu
    rcases hu with rfl | hu
    · exact hclear.ofPool
    · exact h.ofPool u hu

theorem Spaced.subset {pool : ℕ} {F' : Set (ℕ × ℕ)} (h : Spaced pool F) (hsub : F' ⊆ F) :
    Spaced pool F' :=
  ⟨fun u hu v hv => h.apart u (hsub hu) v (hsub hv), fun u hu => h.ofPool u (hsub hu)⟩

/-- The words of the sizes are not words of links. -/
theorem Spaced.not_linkWord {pool : ℕ} (h : Spaced pool F) {u : ℕ × ℕ} (hu : u ∈ F)
    (hle : u.1 + 16 ≤ w) (hlt : w < u.1 + 32) : ¬ LinkWord pool F w := by
  intro hlink
  rcases hlink with ⟨v, hv, hw⟩ | hpool
  · rcases h.apart u hu v hv with rfl | hapart <;> omega
  · have := h.ofPool u hu
    omega

/-! ## The words that linking writes -/

theorem lastOf_cases (s : AllocPool) (i : ℕ) (front : List ℕ) :
    s.lastOf i front = s.binAddr i ∨ s.lastOf i front ∈ front := by
  unfold lastOf
  cases hlast : front.getLast? with
  | none => exact .inl rfl
  | some x => exact .inr (List.mem_of_getLast? hlast)

theorem headOf_cases (s : AllocPool) (i : ℕ) (back : List ℕ) :
    s.headOf i back = s.binAddr i ∨ s.headOf i back ∈ back := by
  unfold headOf
  cases hhead : back.head? with
  | none => exact .inl rfl
  | some x => exact .inr (List.mem_of_head? hhead)

/-- Both words of a neighbour are link words. -/
theorem linkWord_neighbour {i x : ℕ} (hi : i < 128)
    (hx : x = s.binAddr i ∨ ∃ n, (x, n) ∈ F) :
    LinkWord s.self F x ∧ LinkWord s.self F (x + 8) := by
  rcases hx with rfl | ⟨n, hmem⟩
  · unfold binAddr sizeofAllocChunk
    exact ⟨.inr (by omega), .inr (by omega)⟩
  · exact ⟨.inl ⟨_, hmem, .inl rfl⟩, .inl ⟨_, hmem, .inr rfl⟩⟩

theorem linkAt_mem {i : ℕ} {front back : List ℕ} (hi : i < 128)
    (hlinks : ∀ x ∈ front ++ back, ∃ n, (x, n) ∈ F)
    (hw : ¬ LinkWord s.self (insert (c, n) F) w) :
    (s.linkAt i c front back).mem w = s.mem w := by
  have hlast : LinkWord s.self (insert (c, n) F) (s.lastOf i front) := by
    refine (linkWord_neighbour hi ?_).1
    rcases lastOf_cases s i front with heq | hmem
    · exact .inl heq
    · obtain ⟨m, hm⟩ := hlinks _ (List.mem_append_left _ hmem)
      exact .inr ⟨m, .inr hm⟩
  have hhead : LinkWord s.self (insert (c, n) F) (s.headOf i back + 8) := by
    refine (linkWord_neighbour hi ?_).2
    rcases headOf_cases s i back with heq | hmem
    · exact .inl heq
    · obtain ⟨m, hm⟩ := hlinks _ (List.mem_append_right _ hmem)
      exact .inr ⟨m, .inr hm⟩
  have hown : LinkWord s.self (insert (c, n) F) c ∧ LinkWord s.self (insert (c, n) F) (c + 8) :=
    ⟨.inl ⟨_, .inl rfl, .inl rfl⟩, .inl ⟨_, .inl rfl, .inr rfl⟩⟩
  have hne : ∀ a, LinkWord s.self (insert (c, n) F) a → w ≠ a := fun a ha heq => hw (heq ▸ ha)
  simp only [linkAt, setBin, storeLinks, store, Function.update_of_ne (hne _ hlast),
    Function.update_of_ne (hne _ hhead), Function.update_of_ne (hne _ hown.1),
    Function.update_of_ne (hne _ hown.2)]

theorem joinLinks_mem {i : ℕ} {front back : List ℕ} (hi : i < 128)
    (hlinks : ∀ x ∈ front ++ back, ∃ n, (x, n) ∈ F) (hw : ¬ LinkWord s.self F w) :
    (s.joinLinks (s.lastOf i front) (s.headOf i back)).mem w = s.mem w := by
  have hlast : LinkWord s.self F (s.lastOf i front) := by
    refine (linkWord_neighbour hi ?_).1
    rcases lastOf_cases s i front with heq | hmem
    · exact .inl heq
    · exact .inr (hlinks _ (List.mem_append_left _ hmem))
  have hhead : LinkWord s.self F (s.headOf i back + 8) := by
    refine (linkWord_neighbour hi ?_).2
    rcases headOf_cases s i back with heq | hmem
    · exact .inl heq
    · exact .inr (hlinks _ (List.mem_append_right _ hmem))
  have hne : ∀ a, LinkWord s.self F a → w ≠ a := fun a ha heq => hw (heq ▸ ha)
  simp only [joinLinks, store, Function.update_of_ne (hne _ hlast),
    Function.update_of_ne (hne _ hhead)]

/-! ## Places in a bin -/

theorem takeWhile_cut {l : List ℕ} (h : c ∈ l) :
    l = l.takeWhile (· ≠ c) ++ c :: (l.dropWhile (· ≠ c)).tail := by
  induction l with
  | nil => exact absurd h List.not_mem_nil
  | cons x l ih =>
    by_cases hx : x = c
    · simp [hx]
    · have hmem : c ∈ l := by
        rcases List.mem_cons.mp h with heq | hmem
        · exact absurd heq.symm hx
        · exact hmem
      have hcut := ih hmem
      simp only [List.takeWhile_cons, List.dropWhile_cons, decide_eq_true hx, if_true,
        List.cons_append]
      exact congrArg (x :: ·) hcut

/-- What is left of a bin without one chunk. -/
theorem mem_without {l front back : List ℕ} (hcut : l = front ++ c :: back) (hnodup : l.Nodup)
    {x : ℕ} : x ∈ front ++ back ↔ x ∈ l ∧ x ≠ c := by
  have hnotMem : c ∉ front ++ back := by
    rw [hcut, List.nodup_middle] at hnodup
    exact (List.nodup_cons.mp hnodup).1
  rw [hcut]
  constructor
  · intro hx
    refine ⟨?_, fun heq => hnotMem (heq ▸ hx)⟩
    rcases List.mem_append.mp hx with h | h
    · exact List.mem_append_left _ h
    · exact List.mem_append_right _ (List.mem_cons_of_mem _ h)
  · intro hx
    rcases List.mem_append.mp hx.1 with h | h
    · exact List.mem_append_left _ h
    · rcases List.mem_cons.mp h with heq | h
      · exact absurd heq hx.2
      · exact List.mem_append_right _ h

/-! ## `LinkFree` -/

/-- A bin with one more chunk. -/
theorem Binned.linkAt (h : s.Binned F) (hsize : s.size c = n) (hclear : Clear s.self F c)
    {front back : List ℕ} (hbin : s.mBins (binIndex n) = front ++ back) :
    let s' := s.linkAt (binIndex n) c front back
    (∀ i x, x ∈ s'.mBins i ↔ ∃ m, (x, m) ∈ insert (c, n) F ∧ binIndex m = i) ∧
      (∀ i, (s'.mBins i).Nodup) ∧
      (∀ x m, (x, m) ∈ insert (c, n) F → s'.size x = m) ∧
      ∀ w, ¬ LinkWord s.self (insert (c, n) F) w → s'.mem w = s.mem w := by
  intro s'
  have hnew : ∀ m, (c, m) ∉ F := by
    intro m hm
    have := hclear.ofChunks _ hm
    omega
  have hlinks : ∀ x ∈ front ++ back, ∃ m, (x, m) ∈ F := by
    intro x hx
    obtain ⟨m, hm, -⟩ := (h.bin _ x).mp (hbin ▸ hx)
    exact ⟨m, hm⟩
  have hmem : ∀ w, ¬ LinkWord s.self (insert (c, n) F) w → s'.mem w = s.mem w :=
    fun w hw => linkAt_mem (binIndex_lt n) hlinks hw
  have hbins : s'.mBins = Function.update s.mBins (binIndex n) (front ++ c :: back) := rfl
  have hfresh : c ∉ front ++ back := fun hc => by
    obtain ⟨m, hm⟩ := hlinks c hc
    exact hnew m hm
  refine ⟨fun i x => ?_, fun i => ?_, fun x m hm => ?_, hmem⟩
  · rw [hbins]
    by_cases hi : i = binIndex n
    · rw [hi, Function.update_self, List.mem_append, List.mem_cons]
      have hold := h.bin (binIndex n) x
      rw [hbin, List.mem_append] at hold
      constructor
      · intro hx
        rcases hx with hx | rfl | hx
        · obtain ⟨m, hm, hindex⟩ := hold.mp (.inl hx)
          exact ⟨m, .inr hm, hindex⟩
        · exact ⟨n, .inl rfl, rfl⟩
        · obtain ⟨m, hm, hindex⟩ := hold.mp (.inr hx)
          exact ⟨m, .inr hm, hindex⟩
      · intro hx
        obtain ⟨m, heq | hm, hindex⟩ := hx
        · exact .inr (.inl (Prod.mk.inj heq).1)
        · rcases hold.mpr ⟨m, hm, hindex⟩ with hx | hx
          · exact .inl hx
          · exact .inr (.inr hx)
    · rw [Function.update_of_ne hi, h.bin]
      constructor
      · intro hx
        obtain ⟨m, hm, hindex⟩ := hx
        exact ⟨m, .inr hm, hindex⟩
      · intro hx
        obtain ⟨m, heq | hm, hindex⟩ := hx
        · exact absurd (hindex.symm.trans (congrArg binIndex (Prod.mk.inj heq).2)) hi
        · exact ⟨m, hm, hindex⟩
  · rw [hbins]
    by_cases hi : i = binIndex n
    · rw [hi, Function.update_self, List.nodup_middle]
      exact List.nodup_cons.mpr ⟨hfresh, hbin ▸ h.nodup _⟩
    · rw [Function.update_of_ne hi]
      exact h.nodup i
  · have hkeep : s'.mem (x + 24) = s.mem (x + 24) :=
      hmem _ ((h.spaced.insert hclear).not_linkWord hm (by simp) (by simp))
    have hsame : s'.size x = s.size x := by
      unfold AllocPool.size mSize
      rw [hkeep]
    rw [hsame]
    rcases hm with heq | hm
    · obtain ⟨rfl, rfl⟩ := Prod.mk.inj heq
      exact hsize
    · exact h.size x m hm

/-- A free chunk is linked. -/
theorem Binned.linkFree (h : s.Binned F) (hsize : s.size c = n) (hclear : Clear s.self F c) :
    (s.linkFree c).Binned (insert (c, n) F) ∧
      ∀ w, ¬ LinkWord s.self (insert (c, n) F) w → (s.linkFree c).mem w = s.mem w := by
  unfold AllocPool.linkFree
  rw [hsize]
  by_cases hfirst : binIndex n < kNumSmallBins ∨ s.mBins (binIndex n) = []
  · rw [if_pos hfirst]
    obtain ⟨hbin, hnodup, hsizes, hmem⟩ := h.linkAt hsize hclear (List.nil_append _).symm
    refine ⟨⟨hbin, hnodup, fun i hi => ?_, hsizes, h.spaced.insert hclear⟩, hmem⟩
    rw [marked_markBinBlock, Bool.or_eq_true, decide_eq_true_eq]
    show s.marked i = true ∨ i = binIndex n ↔
      Function.update s.mBins (binIndex n) ([] ++ c :: s.mBins (binIndex n)) i ≠ []
    by_cases heq : i = binIndex n
    · simp [heq]
    · rw [Function.update_of_ne heq, h.bits i hi]
      exact or_iff_left heq
  · rw [if_neg hfirst]
    have hcut := (List.takeWhile_append_dropWhile (p := fun link => decide (n < s.size link))
      (l := s.mBins (binIndex n))).symm
    obtain ⟨hbin, hnodup, hsizes, hmem⟩ := h.linkAt hsize hclear hcut
    refine ⟨⟨hbin, hnodup, fun i hi => ?_, hsizes, h.spaced.insert hclear⟩, hmem⟩
    -- the bin was marked already
    show s.marked i = true ↔ Function.update s.mBins (binIndex n) (_ ++ c :: _) i ≠ []
    by_cases heq : i = binIndex n
    · rw [heq, Function.update_self, h.bits _ (binIndex_lt n)]
      simp [(not_or.mp hfirst).2]
    · rw [Function.update_of_ne heq, h.bits i hi]

/-! ## `UnlinkFree` -/

/-- A free chunk is unlinked. -/
theorem Binned.unlinkFree (h : s.Binned F) (hc : (c, n) ∈ F) :
    (s.unlinkFree c).Binned (F \ {(c, n)}) ∧
      ∀ w, ¬ LinkWord s.self F w → (s.unlinkFree c).mem w = s.mem w := by
  have hindex : binIndex (s.size c) = binIndex n := by rw [h.size c n hc]
  have hcut := takeWhile_cut ((h.bin (binIndex n) c).mpr ⟨n, hc, rfl⟩)
  have hdef : s.unlinkFree c = s.unlinkAt (binIndex n) ((s.mBins (binIndex n)).takeWhile (· ≠ c))
      ((s.mBins (binIndex n)).dropWhile (· ≠ c)).tail := by
    unfold AllocPool.unlinkFree
    rw [hindex]
  rw [hdef]
  generalize (s.mBins (binIndex n)).takeWhile (· ≠ c) = front at hcut ⊢
  generalize ((s.mBins (binIndex n)).dropWhile (· ≠ c)).tail = back at hcut ⊢
  have hwithout : ∀ x, x ∈ front ++ back ↔ x ∈ s.mBins (binIndex n) ∧ x ≠ c :=
    fun x => mem_without hcut (h.nodup _)
  have hlinks : ∀ x ∈ front ++ back, ∃ m, (x, m) ∈ F := by
    intro x hx
    obtain ⟨m, hm, -⟩ := (h.bin _ x).mp ((hwithout x).mp hx).1
    exact ⟨m, hm⟩
  -- the address of a chunk gives its size
  have hunique : ∀ m, (c, m) ∈ F → m = n := by
    intro m hm
    rw [← h.size c m hm, h.size c n hc]
  have hset : ∀ x m, (x, m) ∈ F \ {(c, n)} ↔ (x, m) ∈ F ∧ x ≠ c := by
    intro x m
    constructor
    · intro hx
      refine ⟨hx.1, fun heq => hx.2 ?_⟩
      subst heq
      rw [hunique m hx.1]
      rfl
    · intro hx
      exact ⟨hx.1, fun heq => hx.2 (Prod.mk.inj heq).1⟩
  have hmem : ∀ w, ¬ LinkWord s.self F w →
      (s.joinLinks (s.lastOf (binIndex n) front) (s.headOf (binIndex n) back)).mem w = s.mem w :=
    fun w hw => joinLinks_mem (binIndex_lt n) hlinks hw
  have hbin : ∀ i x, x ∈ Function.update s.mBins (binIndex n) (front ++ back) i ↔
      ∃ m, (x, m) ∈ F \ {(c, n)} ∧ binIndex m = i := by
    intro i x
    have hold := h.bin i x
    by_cases heq : i = binIndex n
    · rw [heq, Function.update_self, hwithout, ← heq, hold]
      constructor
      · intro hx
        obtain ⟨⟨m, hm, him⟩, hne⟩ := hx
        exact ⟨m, (hset x m).mpr ⟨hm, hne⟩, him⟩
      · intro hx
        obtain ⟨m, hm, him⟩ := hx
        exact ⟨⟨m, ((hset x m).mp hm).1, him⟩, ((hset x m).mp hm).2⟩
    · rw [Function.update_of_ne heq, hold]
      constructor
      · intro hx
        obtain ⟨m, hm, him⟩ := hx
        refine ⟨m, (hset x m).mpr ⟨hm, fun hxc => ?_⟩, him⟩
        subst hxc
        exact heq (him.symm.trans (congrArg binIndex (hunique m hm)))
      · intro hx
        obtain ⟨m, hm, him⟩ := hx
        exact ⟨m, ((hset x m).mp hm).1, him⟩
  have hnodup : ∀ i, (Function.update s.mBins (binIndex n) (front ++ back) i).Nodup := by
    intro i
    by_cases heq : i = binIndex n
    · have := h.nodup (binIndex n)
      rw [hcut, List.nodup_middle] at this
      rw [heq, Function.update_self]
      exact (List.nodup_cons.mp this).2
    · rw [Function.update_of_ne heq]
      exact h.nodup i
  have hsizes : ∀ x m, (x, m) ∈ F \ {(c, n)} →
      (s.joinLinks (s.lastOf (binIndex n) front) (s.headOf (binIndex n) back)).size x = m := by
    intro x m hx
    have hkeep := hmem (x + 24) (h.spaced.not_linkWord hx.1 (by simp) (by simp))
    rw [← h.size x m hx.1]
    unfold AllocPool.size mSize
    rw [hkeep]
  have hspaced : Spaced s.self (F \ {(c, n)}) := h.spaced.subset Set.sdiff_subset
  unfold unlinkAt
  by_cases hempty : front ++ back = []
  · rw [if_pos hempty]
    refine ⟨⟨hbin, hnodup, fun i hi => ?_, hsizes, hspaced⟩, hmem⟩
    rw [marked_clearBinBlock, Bool.and_eq_true, decide_eq_true_eq]
    show s.marked i = true ∧ i ≠ binIndex n ↔
      Function.update s.mBins (binIndex n) (front ++ back) i ≠ []
    by_cases heq : i = binIndex n
    · simp [heq, hempty]
    · rw [Function.update_of_ne heq, h.bits i hi]
      exact and_iff_left heq
  · rw [if_neg hempty]
    refine ⟨⟨hbin, hnodup, fun i hi => ?_, hsizes, hspaced⟩, hmem⟩
    show s.marked i = true ↔ Function.update s.mBins (binIndex n) (front ++ back) i ≠ []
    by_cases heq : i = binIndex n
    · rw [heq, Function.update_self, h.bits _ (binIndex_lt n)]
      have hne : s.mBins (binIndex n) ≠ [] := by
        rw [hcut]
        simp
      exact iff_of_true hne hempty
    · rw [Function.update_of_ne heq, h.bits i hi]

end PoopWorms.Server.AllocPool
