import Mathlib.Data.List.Range
import Mathlib.Tactic.Linarith
import Mathlib.Tactic.Ring
import PoopWorms.Server.SoundFile

/-!
# What a sound file is read into

What is read is a grid: so many frames, of so many channels each, one behind the other. It is
compared with the frames that are wanted, which are as far apart as the buffer is wide.
-/

namespace PoopWorms.Server

open Octets

/-! ## `int`s -/

def IsInt (x : ℤ) : Prop := -2 ^ 31 ≤ x ∧ x < 2 ^ 31

instance (x : ℤ) : Decidable (IsInt x) := inferInstanceAs (Decidable (_ ∧ _))

theorem isInt_toInt (x : Word) : IsInt x.toInt := ⟨x.le_toInt, x.toInt_lt⟩

theorem isInt_int32 (x : ℤ) : IsInt (int32 x) := by
  have hle := Int.le_bmod (x := x) (m := 2 ^ 32) (by decide)
  have hlt := Int.bmod_lt (x := x) (m := 2 ^ 32) (by decide)
  unfold IsInt int32
  omega

theorem int32_eq_self {x : ℤ} (h : IsInt x) : int32 x = x := by
  unfold IsInt at h
  exact Int.bmod_eq_of_le (by omega) (by omega)

/-- A sum of two `int`s that is too large comes out negative. -/
theorem int32_neg {x : ℤ} (hle : 2 ^ 31 ≤ x) (hlt : x < 2 ^ 32) : int32 x < 0 := by
  unfold int32
  rw [Int.bmod_def, Int.emod_eq_of_lt (by omega) (by omega)]
  omega

theorem int32_le {x : ℤ} (h : 0 ≤ x) : int32 x ≤ x := by
  unfold int32
  rw [Int.bmod_def]
  split_ifs <;> omega

/-- A `SndBuf` whose sizes are `int`s. -/
structure IntSndBuf extends SndBuf where
  frames_int : IsInt frames
  samples_int : IsInt samples

theorem IntSndBuf.dataSamples_lt (buf : IntSndBuf) : buf.dataSamples < 2 ^ 31 := by
  have hsamples := buf.samples_int.2
  unfold SndBuf.dataSamples
  split_ifs
  · exact hsamples
  · decide

/-! ## Grids -/

/-- The stores of `d` frames of `width` channels each, from the place `p` on. -/
def Grid (data : List SampleStore) (d width p : ℤ) (value : ℤ → ℤ → Sample) : Prop :=
  ∀ s, s ∈ data ↔ ∃ k ci, (0 ≤ k ∧ k < d) ∧ (0 ≤ ci ∧ ci < width) ∧
    s = ⟨k, ci, p + k * width + ci, value k ci⟩

section Grid

variable {data : List SampleStore} {d width p : ℤ} {value : ℤ → ℤ → Sample}

theorem grid_readf (sf : SoundFile) (pos dst frames : ℤ) :
    Grid (sf.readf pos dst frames) (min frames (sf.frames - pos)) sf.channels dst
      fun k c => .file (pos + k) c := by
  intro s
  unfold SoundFile.readf
  simp only [List.mem_flatMap, List.mem_map, List.mem_range]
  constructor
  · rintro ⟨k, hk, c, hc, rfl⟩
    exact ⟨k, c, by omega, by omega, rfl⟩
  · rintro ⟨k, c, hk, hc, rfl⟩
    refine ⟨k.toNat, by omega, c.toNat, by omega, ?_⟩
    rw [Int.toNat_of_nonneg hk.1, Int.toNat_of_nonneg hc.1]

/-- What `CopyChannels` has for the frame `fi` and the place `ci` of the list. -/
def copied (mChannels : List ℤ) (src : List SampleStore) (srcChannels fi ci : ℤ) : Sample :=
  let c := mChannels.getD ci.toNat 0
  if 0 ≤ c ∧ c < srcChannels then storedAt src (fi * srcChannels + c) else .zero

theorem grid_copyChannels (mChannels : List ℤ) (dst : ℤ) (src : List SampleStore)
    (srcChannels : ℤ) (numFrames : ℕ) :
    Grid (copyChannels mChannels dst src srcChannels numFrames) numFrames mChannels.length dst
      (copied mChannels src srcChannels) := by
  intro s
  unfold copyChannels
  simp only [List.mem_flatMap, List.mem_map, List.mem_range, Prod.exists,
    List.mem_zipIdx_iff_getElem?]
  constructor
  · rintro ⟨c, ci, hc, fi, hfi, rfl⟩
    have hlt := (List.getElem?_eq_some_iff.mp hc).1
    refine ⟨fi, ci, by omega, by omega, ?_⟩
    unfold copied
    rw [Int.toNat_natCast, List.getD_eq_getElem?_getD, hc, Option.getD_some]
  · rintro ⟨fi, ci, hfi, hci, rfl⟩
    have hlt : ci.toNat < mChannels.length := by omega
    refine ⟨mChannels[ci.toNat], ci.toNat, List.getElem?_eq_getElem hlt, fi.toNat, by omega, ?_⟩
    unfold copied
    rw [List.getD_eq_getElem?_getD, List.getElem?_eq_getElem hlt, Option.getD_some,
      Int.toNat_of_nonneg hfi.1, Int.toNat_of_nonneg hci.1]

theorem Grid.eq_nil (h : Grid data d width p value) (hd : d ≤ 0) : data = [] := by
  apply List.eq_nil_iff_forall_not_mem.mpr
  intro s hs
  obtain ⟨k, ci, hk, -⟩ := (h s).mp hs
  omega

/-- The place tells the frame and the channel. -/
theorem place_inj {k k' ci ci' : ℤ} (hci : 0 ≤ ci ∧ ci < width) (hci' : 0 ≤ ci' ∧ ci' < width)
    (h : k * width + ci = k' * width + ci') : k = k' ∧ ci = ci' := by
  have hk : k = k' := by
    by_contra hne
    rcases lt_or_gt_of_ne hne with hlt | hlt
    · nlinarith [mul_le_mul_of_nonneg_right (show k + 1 ≤ k' from hlt) (show 0 ≤ width by omega)]
    · nlinarith [mul_le_mul_of_nonneg_right (show k' + 1 ≤ k from hlt) (show 0 ≤ width by omega)]
  subst hk
  exact ⟨rfl, by omega⟩

/-- A sample of the temporary buffer is read back. -/
theorem Grid.storedAt_eq (h : Grid data d width 0 value) {k ci : ℤ} (hk : 0 ≤ k ∧ k < d)
    (hci : 0 ≤ ci ∧ ci < width) : storedAt data (k * width + ci) = value k ci := by
  have hmem := (h _).mpr ⟨k, ci, hk, hci, rfl⟩
  have hplace : (0 : ℤ) + k * width + ci = k * width + ci := by ring
  have hsome : (data.find? fun s => s.place = k * width + ci).isSome := by
    rw [List.find?_isSome]
    exact ⟨_, hmem, decide_eq_true hplace⟩
  obtain ⟨s, hs⟩ := Option.isSome_iff_exists.mp hsome
  obtain ⟨k', ci', -, hci', rfl⟩ := (h s).mp (List.mem_of_find?_eq_some hs)
  have heq : 0 + k' * width + ci' = k * width + ci := by
    simpa using List.find?_some hs
  rw [Int.zero_add] at heq
  obtain ⟨rfl, rfl⟩ := place_inj hci' hci heq
  unfold storedAt
  rw [hs]
  rfl

/-- All stores are inside if the last one is. -/
theorem Grid.inside_iff (h : Grid data d width p value) (hwidth : 0 < width) (hd : 0 < d)
    (size : ℤ) : (∀ s ∈ data, 0 ≤ s.place ∧ s.place < size) ↔
      0 ≤ p ∧ p + d * width ≤ size := by
  constructor
  · intro hall
    have hfirst := hall _ ((h _).mpr ⟨0, 0, by omega, by omega, rfl⟩)
    have hlast := hall _ ((h _).mpr ⟨d - 1, width - 1, by omega, by omega, rfl⟩)
    have hprod : (d - 1) * width = d * width - width := by ring
    dsimp only at hfirst hlast
    rw [hprod] at hlast
    omega
  · rintro ⟨hp, hsize⟩ s hs
    obtain ⟨k, ci, hk, hci, rfl⟩ := (h s).mp hs
    have hnonneg : 0 ≤ k * width := Int.mul_nonneg hk.1 hwidth.le
    have hle : (k + 1) * width ≤ d * width :=
      mul_le_mul_of_nonneg_right (by omega) hwidth.le
    have hprod : (k + 1) * width = k * width + width := by ring
    dsimp only
    omega

end Grid

/-! ## Grids and what is wanted -/

namespace Copying

variable {w : Copying} {buf : SndBuf}

/-- Where the frames that are wanted end. -/
def reach (w : Copying) (buf : SndBuf) : ℤ := min w.count (buf.frames - w.bufOffset)

/-- No frame is asked for that exists both in the file and in the buffer. -/
def Unwanted (w : Copying) (buf : SndBuf) : Prop :=
  w.reach buf ≤ max 0 (-w.bufOffset) ∨ buf.channels ≤ 0

/-- The frames are copied from a frame of the buffer on, they are as wide as the buffer or there
is only one, and the samples of the buffer go as far. -/
structure Fits (w : Copying) (buf : SndBuf) : Prop where
  offset : 0 ≤ w.bufOffset
  some : 0 < w.reach buf
  width : w.width = buf.channels ∨ w.reach buf = 1 ∧ w.width ≤ buf.channels
  room : (w.bufOffset + w.reach buf - 1) * buf.channels + w.width ≤ buf.dataSamples

theorem lands_nil (hwidth : 0 < w.width) : w.Lands buf [] ↔ w.Unwanted buf := by
  unfold Unwanted reach
  constructor
  · intro h
    by_contra hnot
    have hmem := (h (w.store buf (max 0 (-w.bufOffset)) 0)).mpr
      ⟨_, _, ⟨by omega, by omega, by omega⟩, rfl⟩
    cases hmem
  · intro h s
    refine iff_of_false (by simp) ?_
    rintro ⟨k, ci, ⟨hk, hframe, hci⟩, -⟩
    omega

variable {data : List SampleStore} {d p : ℤ} {value : ℤ → ℤ → Sample}

theorem Wanted.fits_frame {k ci : ℤ} (h : w.Wanted buf k ci) : k < w.reach buf := by
  obtain ⟨hk, hframe, -⟩ := h
  unfold reach
  omega

/-- A grid is what is wanted if it has as many frames, from the place of the first on. -/
theorem lands_iff (hgrid : Grid data d w.width p value) (hwidth : 0 < w.width) (hd : 0 < d)
    (hvalue : ∀ k ci, w.Wanted buf k ci → k < d → value k ci = w.value k ci) :
    (w.Lands buf data ∧ ∀ s ∈ data, 0 ≤ s.place ∧ s.place < buf.dataSamples) ↔
      w.Fits buf ∧ d = w.reach buf ∧ p = w.bufOffset * buf.channels := by
  constructor
  · rintro ⟨hlands, hinside⟩
    have hstore (k ci : ℤ) (hk : 0 ≤ k ∧ k < d) (hci : 0 ≤ ci ∧ ci < w.width) :
        w.Wanted buf k ci ∧ p + k * w.width + ci = (w.bufOffset + k) * buf.channels + ci := by
      obtain ⟨k', ci', hwanted, heq⟩ :=
        (hlands _).mp ((hgrid _).mpr ⟨k, ci, hk, hci, rfl⟩)
      obtain ⟨rfl, rfl, hplace, -⟩ := SampleStore.mk.inj heq
      exact ⟨hwanted, hplace⟩
    obtain ⟨⟨hfirst, hoffset, -⟩, hplace⟩ := hstore 0 0 (by omega) (by omega)
    obtain ⟨hlast, -⟩ := hstore (d - 1) (w.width - 1) (by omega) (by omega)
    have hreach := hlast.fits_frame
    obtain ⟨-, -, hchannels⟩ := hlast
    -- the last frame that is wanted is a frame of the grid
    have hd' : d = w.reach buf := by
      have hwanted : w.Wanted buf (w.reach buf - 1) 0 := by
        unfold reach at hreach ⊢
        exact ⟨by omega, by omega, by omega⟩
      obtain ⟨k, ci, hk, -, heq⟩ := (hgrid _).mp ((hlands _).mpr ⟨_, _, hwanted, rfl⟩)
      have hframe := congrArg SampleStore.frame heq
      dsimp only [store] at hframe
      omega
    have hp : p = w.bufOffset * buf.channels := by
      simpa using hplace
    refine ⟨⟨by omega, by omega, ?_, ?_⟩, hd', hp⟩
    · rcases eq_or_ne (w.reach buf) 1 with hone | hone
      · exact .inr ⟨hone, by omega⟩
      · obtain ⟨-, hplace⟩ := hstore 1 0 (by omega) (by omega)
        left
        rw [hp] at hplace
        linarith
    · obtain ⟨-, hplace⟩ := hstore (d - 1) (w.width - 1) (by omega) (by omega)
      have hmem := hinside _ ((hgrid _).mpr ⟨d - 1, w.width - 1, by omega, by omega, rfl⟩)
      dsimp only at hmem
      rw [hplace, hd', ← add_sub_assoc w.bufOffset] at hmem
      omega
  · rintro ⟨⟨hoffset, hsome, hwide, hroom⟩, rfl, rfl⟩
    have hle : w.width ≤ buf.channels := by omega
    have hplace (k ci : ℤ) (hk : 0 ≤ k ∧ k < w.reach buf) :
        w.bufOffset * buf.channels + k * w.width + ci =
          (w.bufOffset + k) * buf.channels + ci := by
      rcases hwide with hwide | ⟨hone, -⟩
      · rw [hwide]
        ring
      · rw [show k = 0 by omega]
        ring
    have hwanted (k ci : ℤ) (hk : 0 ≤ k ∧ k < w.reach buf) (hci : 0 ≤ ci ∧ ci < w.width) :
        w.Wanted buf k ci := by
      unfold reach at hk
      exact ⟨by omega, by omega, by omega⟩
    refine ⟨fun s => ?_, ?_⟩
    · rw [hgrid]
      constructor
      · rintro ⟨k, ci, hk, hci, rfl⟩
        have hkci := hwanted k ci hk hci
        refine ⟨k, ci, hkci, ?_⟩
        rw [hplace k ci hk, hvalue k ci hkci hk.2]
        rfl
      · rintro ⟨k, ci, hkci, rfl⟩
        have hk : 0 ≤ k ∧ k < w.reach buf := ⟨hkci.1.1, hkci.fits_frame⟩
        refine ⟨k, ci, hk, ⟨hkci.2.2.1, hkci.2.2.2.1⟩, ?_⟩
        rw [hplace k ci hk, hvalue k ci hkci hk.2]
        rfl
    · refine (hgrid.inside_iff hwidth hsome _).mpr ⟨Int.mul_nonneg hoffset (by omega), ?_⟩
      have hlast := hplace (w.reach buf - 1) w.width (by omega)
      have hprod : (w.reach buf - 1) * w.width = w.reach buf * w.width - w.width := by ring
      rw [← add_sub_assoc w.bufOffset] at hlast
      omega

end Copying

end PoopWorms.Server
