import Mathlib.Data.List.Basic

/-!
# Blocks that are shifted

A stream that arrives in blocks and is passed on later by less than a block: every block is put
together from what was saved of the last one and the head of this one, whose tail is saved in
turn. The last block is filled up with what stands for silence.
-/

namespace PoopWorms.DelayLine

variable {α : Type*} (head : ℕ) (silence : List α)

/-- The blocks that are passed on, from what is saved; `head` is how much of a block is passed on
when it arrives. -/
def stitched : List α → List (List α) → List (List α)
  | saved, [] => [saved ++ silence]
  | saved, block :: blocks =>
    (saved ++ block.take head) :: stitched (block.drop head) blocks

@[simp] theorem stitched_nil (saved : List α) :
    stitched head silence saved [] = [saved ++ silence] := rfl

@[simp] theorem stitched_cons (saved block : List α) (blocks : List (List α)) :
    stitched head silence saved (block :: blocks) =
      (saved ++ block.take head) :: stitched head silence (block.drop head) blocks := rfl

/-- Nothing is lost, doubled or moved: the saved part, all blocks, silence. -/
theorem flatten_stitched (saved : List α) (blocks : List (List α)) :
    (stitched head silence saved blocks).flatten = saved ++ blocks.flatten ++ silence := by
  induction blocks generalizing saved with
  | nil => simp
  | cons block blocks ih =>
    rw [stitched_cons, List.flatten_cons, ih, List.flatten_cons]
    calc saved ++ block.take head ++ (block.drop head ++ blocks.flatten ++ silence)
        = saved ++ (block.take head ++ block.drop head) ++ blocks.flatten ++ silence := by
          simp only [List.append_assoc]
      _ = saved ++ (block ++ blocks.flatten) ++ silence := by
          rw [List.take_append_drop, List.append_assoc saved]

end PoopWorms.DelayLine
