import Mathlib.Data.List.TakeWhile
import Mathlib.Order.Basic
import Mathlib.Tactic.Common

/-!
# Octets, words and byte buffers

What a byte-level codec on a little-endian host with 32-bit words is written with: the
bytes a word occupies in memory and the byte swap of `htonl`, C strings padded with zeros
to a multiple of four, `strncpy`, and stores into a buffer that fail when they leave it.
-/

namespace PoopWorms.Octets

/-- A byte. -/
abbrev Byte := BitVec 8

/-- A 32-bit machine word. -/
abbrev Word := BitVec 32

/-! ## Words in memory -/

/-- The bytes of a word in memory, lowest address first. -/
def leBytes (w : Word) : List Byte :=
  [w.extractLsb' 0 8, w.extractLsb' 8 8, w.extractLsb' 16 8, w.extractLsb' 24 8]

/-- The word stored in four bytes of memory. -/
def leWord (b₀ b₁ b₂ b₃ : Byte) : Word := b₃ ++ b₂ ++ b₁ ++ b₀

/-- `htonl` and `ntohl` on a little-endian host: the four bytes in the other order. -/
def swap32 (w : Word) : Word :=
  w.extractLsb' 0 8 ++ w.extractLsb' 8 8 ++ w.extractLsb' 16 8 ++ w.extractLsb' 24 8

@[simp] theorem length_leBytes (w : Word) : (leBytes w).length = 4 := rfl

theorem getLsbD_leWord (b₀ b₁ b₂ b₃ : Byte) (i : ℕ) :
    (leWord b₀ b₁ b₂ b₃).getLsbD i =
      if i < 8 then b₀.getLsbD i
      else if i - 8 < 8 then b₁.getLsbD (i - 8)
      else if i - 8 - 8 < 8 then b₂.getLsbD (i - 8 - 8)
      else b₃.getLsbD (i - 8 - 8 - 8) := by
  simp only [leWord, BitVec.getLsbD_append]

/-- The word read back from the bytes of a word. -/
@[simp] theorem leWord_extract (w : Word) :
    leWord (w.extractLsb' 0 8) (w.extractLsb' 8 8) (w.extractLsb' 16 8)
      (w.extractLsb' 24 8) = w := by
  apply BitVec.eq_of_getLsbD_eq
  intro i hi
  simp only [getLsbD_leWord, BitVec.getLsbD_extractLsb']
  split_ifs with h₀ h₁ h₂
  · simp [h₀]
  · simp [h₁, show 8 + (i - 8) = i by omega]
  · simp [h₂, show 16 + (i - 8 - 8) = i by omega]
  · simp [show i - 8 - 8 - 8 < 8 by omega, show 24 + (i - 8 - 8 - 8) = i by omega]

@[simp] theorem leBytes_leWord (b₀ b₁ b₂ b₃ : Byte) :
    leBytes (leWord b₀ b₁ b₂ b₃) = [b₀, b₁, b₂, b₃] := by
  have hbyte : ∀ (k : ℕ) (b : Byte),
      (∀ i, i < 8 → (leWord b₀ b₁ b₂ b₃).getLsbD (k + i) = b.getLsbD i) →
      (leWord b₀ b₁ b₂ b₃).extractLsb' k 8 = b := by
    intro k b h
    apply BitVec.eq_of_getLsbD_eq
    intro i hi
    rw [BitVec.getLsbD_extractLsb', h i hi]
    simp [hi]
  simp only [leBytes, List.cons.injEq, and_true]
  refine ⟨hbyte 0 b₀ ?_, hbyte 8 b₁ ?_, hbyte 16 b₂ ?_, hbyte 24 b₃ ?_⟩ <;>
    intro i hi <;> rw [getLsbD_leWord]
  · rw [if_pos (by omega), Nat.zero_add]
  · rw [if_neg (by omega), if_pos (by omega), Nat.add_sub_cancel_left]
  · rw [if_neg (by omega), if_neg (by omega), if_pos (by omega)]
    congr 1
    omega
  · rw [if_neg (by omega), if_neg (by omega), if_neg (by omega)]
    congr 1
    omega

/-- The byte swap is its own inverse. -/
@[simp] theorem swap32_swap32 (w : Word) : swap32 (swap32 w) = w := by
  have hswap : ∀ v : Word, swap32 v
      = leWord (v.extractLsb' 24 8) (v.extractLsb' 16 8) (v.extractLsb' 8 8)
        (v.extractLsb' 0 8) := fun _ => rfl
  have hbytes := leBytes_leWord (w.extractLsb' 24 8) (w.extractLsb' 16 8)
    (w.extractLsb' 8 8) (w.extractLsb' 0 8)
  rw [← hswap] at hbytes
  simp only [leBytes, List.cons.injEq, and_true] at hbytes
  obtain ⟨h₀, h₁, h₂, h₃⟩ := hbytes
  rw [hswap (swap32 w), h₀, h₁, h₂, h₃, leWord_extract]

theorem leBytes_injective : Function.Injective leBytes := by
  intro v w h
  simp only [leBytes, List.cons.injEq, and_true] at h
  obtain ⟨h₀, h₁, h₂, h₃⟩ := h
  rw [← leWord_extract v, h₀, h₁, h₂, h₃, leWord_extract]

/-- The byte a shift and a mask pick out of a word. -/
theorem setWidth_shift (w : Word) (k : ℕ) :
    (255#32 &&& (w >>> k)).setWidth 8 = w.extractLsb' k 8 := by
  apply BitVec.eq_of_getLsbD_eq
  intro i hi
  have hmask : ∀ j : Fin 8, (255#32).getLsbD j = true := by decide
  rw [BitVec.getLsbD_setWidth, BitVec.getLsbD_and, BitVec.getLsbD_ushiftRight,
    BitVec.getLsbD_extractLsb', hmask ⟨i, hi⟩, Bool.true_and]

/-! ## `strncpy` -/

/-- The `n` bytes `strncpy` stores: the source up to its first NUL, then zeros. -/
def strncpy (src : List Byte) (n : ℕ) : List Byte :=
  let s := (src.take n).takeWhile (· ≠ 0#8)
  s ++ List.replicate (n - s.length) 0#8

@[simp] theorem length_strncpy (src : List Byte) (n : ℕ) : (strncpy src n).length = n := by
  have hle : ((src.take n).takeWhile (· ≠ 0#8)).length ≤ n :=
    le_trans (List.takeWhile_prefix _).length_le (List.length_take_le n src)
  simp only [strncpy, List.length_append, List.length_replicate]
  omega

/-- Copying a string that holds no NUL copies it whole. -/
theorem strncpy_of_ne_zero {s : List Byte} (h : ∀ b ∈ s, b ≠ 0#8) (t : List Byte) :
    strncpy (s ++ t) s.length = s := by
  have hall : s.takeWhile (· ≠ 0#8) = s := List.takeWhile_eq_self_iff.mpr (by simpa using h)
  simp only [strncpy, List.take_left, hall, Nat.sub_self, List.replicate_zero,
    List.append_nil]

theorem strncpy_cons_zero (s : List Byte) (n : ℕ) :
    strncpy (0#8 :: s) (n + 1) = 0#8 :: List.replicate n 0#8 := by
  simp [strncpy, List.replicate_succ]

theorem strncpy_cons_of_ne {a : Byte} (ha : a ≠ 0#8) (s : List Byte) (n : ℕ) :
    strncpy (a :: s) (n + 1) = a :: strncpy s n := by
  simp [strncpy, ha]

/-- Copying all of a block keeps it if and only if no zero byte of it stands before a
nonzero one. -/
theorem strncpy_eq_self_iff (s : List Byte) :
    strncpy s s.length = s ↔ s.Pairwise fun a b => a = 0#8 → b = 0#8 := by
  induction s with
  | nil => simp [strncpy]
  | cons a s ih =>
    rw [List.pairwise_cons, List.length_cons]
    by_cases ha : a = 0#8
    · subst ha
      rw [strncpy_cons_zero, List.cons.injEq]
      constructor
      · rintro ⟨-, h⟩
        have hall : ∀ b ∈ s, b = 0#8 := fun b hb => List.eq_of_mem_replicate (h ▸ hb)
        exact ⟨fun b hb _ => hall b hb,
          List.pairwise_of_forall_mem_list fun a _ b hb _ => hall b hb⟩
      · rintro ⟨h, -⟩
        exact ⟨rfl, (List.eq_replicate_iff.mpr ⟨rfl, fun b hb => h b hb rfl⟩).symm⟩
    · rw [strncpy_cons_of_ne ha, List.cons.injEq, ih]
      simp [ha]

/-! ## Strings padded to a multiple of four -/

/-- A C string with its NUL and the zeros that fill the last word. -/
def padded (s : List Byte) : List Byte := s ++ List.replicate (4 - s.length % 4) 0#8

theorem length_padded (s : List Byte) : (padded s).length = (s.length / 4 + 1) * 4 := by
  simp only [padded, List.length_append, List.length_replicate]
  omega

theorem length_padded_mod (s : List Byte) : (padded s).length % 4 = 0 := by
  rw [length_padded]
  omega

/-- A string of a whole word and more keeps its first word under padding. -/
theorem padded_cons₄ (a b c d : Byte) (s : List Byte) :
    padded (a :: b :: c :: d :: s) = a :: b :: c :: d :: padded s := by
  have hlen : (a :: b :: c :: d :: s).length % 4 = s.length % 4 := by
    simp only [List.length_cons]
    omega
  simp only [padded, hlen, List.cons_append]

/-- The C string at the start of a padded string is the string. -/
theorem takeWhile_padded {s : List Byte} (h : ∀ b ∈ s, b ≠ 0#8) (rest : List Byte) :
    (padded s ++ rest).takeWhile (· ≠ 0#8) = s := by
  obtain ⟨k, hk⟩ : ∃ k, 4 - s.length % 4 = k + 1 := ⟨3 - s.length % 4, by omega⟩
  rw [padded, hk, List.replicate_succ, List.append_assoc, List.cons_append,
    List.takeWhile_append_of_pos (by simpa using h)]
  simp

/-! ## Stores into a buffer -/

/-- Store `bs` at offset `off` of the buffer; `none` when the store leaves the buffer. -/
def poke (buf : List Byte) (off : ℕ) (bs : List Byte) : Option (List Byte) :=
  if off + bs.length ≤ buf.length then
    some (buf.take off ++ bs ++ buf.drop (off + bs.length))
  else none

/-- A store over exactly the middle of a buffer. -/
theorem poke_append {pre old post bs : List Byte} {off : ℕ} (hoff : off = pre.length)
    (hold : old.length = bs.length) :
    poke (pre ++ old ++ post) off bs = some (pre ++ bs ++ post) := by
  subst hoff
  have hle : pre.length + bs.length ≤ (pre ++ old ++ post).length := by
    simp only [List.length_append]
    omega
  have hdrop : (pre ++ old ++ post).drop (pre.length + bs.length) = post := by
    rw [← hold, ← List.length_append, List.drop_left]
  rw [poke, if_pos hle, hdrop, List.append_assoc pre old post, List.take_left]

end PoopWorms.Octets
