import Mathlib.Data.List.Basic
import Mathlib.Tactic.Common

/-!
# One block of memory, carved into regions

A cursor runs through a block, and each step takes the next bytes as a region of their own.
A `Carving` carries the proof that its regions lie one behind the other in front of the
cursor, so they are disjoint however it came about; what is left to show is that the cursor
stays in the block and that every region has room for what is stored in it.
-/

namespace PoopWorms

/-- The `size` bytes from `start` on, in which `used` bytes are stored. -/
structure Region where
  start : ℕ
  size : ℕ
  used : ℕ

namespace Region

def stop (r : Region) : ℕ := r.start + r.size

def Disjoint (r s : Region) : Prop := r.stop ≤ s.start ∨ s.stop ≤ r.start

end Region

/-- A cursor, with the regions that it went over, the last one first. -/
structure Carving where
  memory : ℕ
  regions : List Region
  ordered : regions.Pairwise fun r s => s.stop ≤ r.start
  below : ∀ r ∈ regions, r.stop ≤ memory

namespace Carving

/-- The cursor at the first byte of the block. -/
def start : Carving where
  memory := 0
  regions := []
  ordered := .nil
  below := by simp

/-- The next `size` bytes, for `used` bytes. -/
def take (c : Carving) (size used : ℕ) : Carving where
  memory := c.memory + size
  regions := ⟨c.memory, size, used⟩ :: c.regions
  ordered := .cons c.below c.ordered
  below := by
    intro r hr
    rcases List.mem_cons.mp hr with rfl | hr
    · exact Nat.le_refl _
    · have := c.below r hr
      omega

@[simp] theorem memory_start : start.memory = 0 := rfl

@[simp] theorem memory_take (c : Carving) (size used : ℕ) :
    (c.take size used).memory = c.memory + size := rfl

/-- Every region has room for what is stored in it. -/
def Holds (c : Carving) : Prop := ∀ r ∈ c.regions, r.used ≤ r.size

@[simp] theorem holds_start : start.Holds := by simp [Holds, start]

@[simp] theorem holds_take (c : Carving) (size used : ℕ) :
    (c.take size used).Holds ↔ used ≤ size ∧ c.Holds := by
  unfold Holds take
  exact List.forall_mem_cons

/-- The carving of a block of `allocSize` bytes is as it should be. -/
structure Sound (c : Carving) (allocSize : ℕ) : Prop where
  fits : c.memory ≤ allocSize
  disjoint : c.regions.Pairwise Region.Disjoint
  holds : c.Holds

theorem sound_iff (c : Carving) (allocSize : ℕ) :
    c.Sound allocSize ↔ c.memory ≤ allocSize ∧ c.Holds := by
  constructor
  · intro h
    exact ⟨h.fits, h.holds⟩
  · intro h
    -- a region behind another one is disjoint from it
    exact ⟨h.1, c.ordered.imp fun hrs => .inr hrs, h.2⟩

end Carving

end PoopWorms
