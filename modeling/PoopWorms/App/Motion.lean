import PoopWorms.App.Model
import PoopWorms.Lib.Conveyor

/-!
# How a worm moves

The body of a worm is a row of splotches, tail first. A move takes the tail away and puts it in
front of the head: a conveyor. The arithmetic is exact, over the rationals.
-/

namespace PoopWorms.App

open Conveyor

@[ext]
structure CGPoint where
  x : ℚ
  y : ℚ
deriving DecidableEq

structure CGSize where
  width : ℚ
  height : ℚ

/-- The point `(x, y)` goes to `(a * x + c * y + tx, b * x + d * y + ty)`. -/
structure CGAffineTransform where
  a : ℚ
  b : ℚ
  c : ℚ
  d : ℚ
  tx : ℚ
  ty : ℚ

namespace CGAffineTransform

def makeTranslation (tx ty : ℚ) : CGAffineTransform := ⟨1, 0, 0, 1, tx, ty⟩

/-- First `t₁`, then `t₂`. -/
def concat (t₁ t₂ : CGAffineTransform) : CGAffineTransform where
  a := t₁.a * t₂.a + t₁.b * t₂.c
  b := t₁.a * t₂.b + t₁.b * t₂.d
  c := t₁.c * t₂.a + t₁.d * t₂.c
  d := t₁.c * t₂.b + t₁.d * t₂.d
  tx := t₁.tx * t₂.a + t₁.ty * t₂.c + t₂.tx
  ty := t₁.tx * t₂.b + t₁.ty * t₂.d + t₂.ty

def translate (t : CGAffineTransform) (tx ty : ℚ) : CGAffineTransform :=
  (makeTranslation tx ty).concat t

/-- The rotation by the angle with this cosine and this sine. -/
def rotate (t : CGAffineTransform) (cos sin : ℚ) : CGAffineTransform :=
  concat ⟨cos, sin, -sin, cos, 0, 0⟩ t

def scale (t : CGAffineTransform) (sx sy : ℚ) : CGAffineTransform :=
  concat ⟨sx, 0, 0, sy, 0, 0⟩ t

def apply (t : CGAffineTransform) (p : CGPoint) : CGPoint :=
  ⟨t.a * p.x + t.c * p.y + t.tx, t.b * p.x + t.d * p.y + t.ty⟩

end CGAffineTransform

namespace CGPoint

instance : Add CGPoint := ⟨fun p q => ⟨p.x + q.x, p.y + q.y⟩⟩

instance : Sub CGPoint := ⟨fun p q => ⟨p.x - q.x, p.y - q.y⟩⟩

@[simp] theorem add_x (p q : CGPoint) : (p + q).x = p.x + q.x := rfl

@[simp] theorem add_y (p q : CGPoint) : (p + q).y = p.y + q.y := rfl

@[simp] theorem sub_x (p q : CGPoint) : (p - q).x = p.x - q.x := rfl

@[simp] theorem sub_y (p q : CGPoint) : (p - q).y = p.y - q.y := rfl

end CGPoint

namespace PWSplotchWorm

/-- A `PWSplotchWorm` with the centers of its splotches, tail first. Of the entrance angle only
the cosine and the sine are used. -/
structure Body extends PWSplotchWorm where
  wormSplotches : List CGPoint
  startPoint : CGPoint
  endPoint : CGPoint
  xOffset : ℚ
  yOffset : ℚ
  scalingFactor : ℚ
  cosAngle : ℚ
  sinAngle : ℚ

/-- What a move reads: the size of the view, and two values of `(float)rand() / RAND_MAX`. -/
structure MoveInput where
  bounds : CGSize
  xDraw : ℚ
  yDraw : ℚ

namespace Body

variable (w : Body)

/-- `initWithView:andAngle:andWorm:`, given the cosine and the sine of the angle. -/
def initWithAngle (cosAngle sinAngle : ℚ) : Body where
  moveTime := false
  wormSplotches := []
  startPoint := ⟨0, 0⟩
  endPoint := ⟨0, 0⟩
  xOffset := 0
  yOffset := 0
  scalingFactor := 1 / 5
  cosAngle := cosAngle
  sinAngle := sinAngle

def startWorm (start : CGPoint) : Body :=
  { w with wormSplotches := w.wormSplotches ++ [start], startPoint := start }

/-- A splotch in the place of the last one is not added. -/
def addToWorm (point : CGPoint) : Body :=
  if w.wormSplotches.getLast? = some point then w
  else { w with wormSplotches := w.wormSplotches ++ [point] }

/-- The finished body starts its life beyond the left border. -/
def endWorm (endPoint : CGPoint) : Body :=
  { w with
    wormSplotches := (w.wormSplotches ++ [endPoint]).map fun center =>
      ⟨center.x - 1500, center.y⟩
    endPoint := endPoint
    moveTime := true }

def inverseTransformForSuperview (bounds : CGSize) : CGAffineTransform :=
  let relativeCenter := CGAffineTransform.makeTranslation (bounds.width / 2) (bounds.height / 2)
  let rotatedRelativeCenter := relativeCenter.rotate w.cosAngle w.sinAngle
  let scaledRotatedRelativeCenter := rotatedRelativeCenter.scale w.scalingFactor w.scalingFactor
  scaledRotatedRelativeCenter.translate (-bounds.width / 2) (-bounds.height / 2)

/-- The center of `nil` is zero. -/
def headCenterInSuperview (bounds : CGSize) : CGPoint :=
  (w.inverseTransformForSuperview bounds).apply (w.wormSplotches.getLast?.getD ⟨0, 0⟩)

/-- What is added to an offset after it has been used. -/
def drift (draw : ℚ) : ℚ := -5 + 10 * draw

/-- `moveWorm`, with the point that it reports to the delegate. `objectAtIndex:` raises an
exception outside the array. -/
def moveWorm (input : MoveInput) : Option (Body × Option CGPoint) :=
  if w.moveTime then do
    let splotch ← w.wormSplotches[0]?
    let x := w.endPoint.x + splotch.x - w.startPoint.x + w.xOffset
    let y := w.endPoint.y - w.startPoint.y + splotch.y + w.yOffset
    let wormSplotches ← shiftDown w.wormSplotches.length w.wormSplotches ⟨x, y⟩
    let w : Body :=
      { w with
        wormSplotches
        xOffset := w.xOffset + drift input.xDraw
        yOffset := w.yOffset + drift input.yDraw }
    return (w, some (w.headCenterInSuperview input.bounds))
  else return (w, none)

/-- Moves one after the other. -/
def moves (w : Body) : List MoveInput → Option Body
  | [] => some w
  | input :: inputs => do
    let moved ← w.moveWorm input
    moves moved.1 inputs

/-- The offset in force. -/
def offset : CGPoint := ⟨w.xOffset, w.yOffset⟩

/-- Where a move puts a splotch that is at the tail. -/
def ahead (center : CGPoint) : CGPoint := center + (w.endPoint - w.startPoint) + w.offset

/-- The offsets after a move. -/
def drifted (input : MoveInput) : Body :=
  { w with
    xOffset := w.xOffset + drift input.xDraw
    yOffset := w.yOffset + drift input.yDraw }

/-- A body after a move. -/
def moved (input : MoveInput) : Body :=
  { w.drifted input with wormSplotches := turn w.ahead w.wormSplotches }

/-- Each splotch is where its successor was, and the head is where the tail was, translated. -/
structure ShiftedByOne (w w' : Body) : Prop where
  length : w'.wormSplotches.length = w.wormSplotches.length
  successor : ∀ i, i + 1 < w.wormSplotches.length →
    w'.wormSplotches[i]? = w.wormSplotches[i + 1]?
  head : w'.wormSplotches.getLast? = w.wormSplotches.head?.map w.ahead
  frame : w'.moveTime = w.moveTime ∧ w'.startPoint = w.startPoint ∧ w'.endPoint = w.endPoint

variable {w}

/-! ## Creation -/

@[simp] theorem addToWorm_startPoint (point : CGPoint) :
    (w.addToWorm point).startPoint = w.startPoint := by
  unfold addToWorm
  split <;> rfl

theorem length_le_addToWorm (point : CGPoint) :
    w.wormSplotches.length ≤ (w.addToWorm point).wormSplotches.length := by
  unfold addToWorm
  split <;> simp

/-- A body that has been created moves, and has at least a tail and a head. -/
theorem created (w : Body) (start endPoint : CGPoint) (points : List CGPoint) :
    let body := (points.foldl addToWorm (w.startWorm start)).endWorm endPoint
    body.moveTime = true ∧ 2 ≤ body.wormSplotches.length ∧ body.startPoint = start ∧
      body.endPoint = endPoint := by
  have hstart : ∀ b : Body, (points.foldl addToWorm b).startPoint = b.startPoint := by
    induction points with
    | nil => exact fun b => rfl
    | cons point points ih => exact fun b => (ih _).trans (addToWorm_startPoint point)
  have hlen : ∀ b : Body,
      b.wormSplotches.length ≤ (points.foldl addToWorm b).wormSplotches.length := by
    clear hstart
    induction points with
    | nil => exact fun b => le_refl _
    | cons point points ih => exact fun b => (length_le_addToWorm point).trans (ih _)
  have hone := hlen (w.startWorm start)
  refine ⟨rfl, ?_, hstart _, rfl⟩
  simp only [startWorm, endWorm, List.length_map, List.length_append, List.length_singleton]
    at hone ⊢
  omega

/-! ## Moves -/

theorem moveWorm_eq (hmove : w.moveTime = true) (hne : w.wormSplotches ≠ [])
    (input : MoveInput) :
    w.moveWorm input =
      some (w.moved input, some ((w.moved input).headCenterInSuperview input.bounds)) := by
  obtain ⟨tail, rest, hbody⟩ := List.exists_cons_of_ne_nil hne
  have hpoint : (⟨w.endPoint.x + tail.x - w.startPoint.x + w.xOffset,
      w.endPoint.y - w.startPoint.y + tail.y + w.yOffset⟩ : CGPoint) = w.ahead tail := by
    ext
    · simp only [ahead, offset, CGPoint.add_x, CGPoint.sub_x]
      ring
    · simp only [ahead, offset, CGPoint.add_y, CGPoint.sub_y]
      ring
  have hshift : shiftDown w.wormSplotches.length w.wormSplotches (w.ahead tail)
      = some (turn w.ahead w.wormSplotches) := by
    rw [hbody]
    exact shiftDown_length w.ahead tail rest
  have htail : w.wormSplotches[0]? = some tail := by rw [hbody]; rfl
  simp only [moveWorm, hmove, if_true, htail, hpoint, hshift, Option.bind_eq_bind,
    Option.bind_some]
  rfl

theorem moved_ne_nil (hne : w.wormSplotches ≠ []) (input : MoveInput) :
    (w.moved input).wormSplotches ≠ [] := by
  have hlen := length_turn w.ahead w.wormSplotches
  exact List.ne_nil_of_length_pos (hlen ▸ List.length_pos_of_ne_nil hne)

/-- The body is a conveyor: the turns are those of the offsets, which drift from move to move. -/
theorem moves_eq (hmove : w.moveTime = true) (hne : w.wormSplotches ≠ [])
    (inputs : List MoveInput) :
    ∃ fs w', w.moves inputs = some w' ∧ fs.length = inputs.length ∧
      w'.wormSplotches = turns fs w.wormSplotches ∧
      ∀ i f, fs[i]? = some f →
        ∃ wi, w.moves (inputs.take i) = some wi ∧
          ∀ p, f p = p + (w.endPoint - w.startPoint) + wi.offset := by
  induction inputs generalizing w with
  | nil => exact ⟨[], w, rfl, rfl, rfl, fun i f h => by simp at h⟩
  | cons input inputs ih =>
    obtain ⟨fs, w', hrun, hlen, hbody, hfs⟩ :=
      ih (w := w.moved input) hmove (moved_ne_nil hne input)
    have hcons : ∀ rest, w.moves (input :: rest) = (w.moved input).moves rest := by
      intro rest
      rw [moves, moveWorm_eq hmove hne]
      rfl
    refine ⟨w.ahead :: fs, w', by rw [hcons, hrun], by simp [hlen], hbody, ?_⟩
    intro i f hf
    cases i with
    | zero =>
      have hfirst : w.ahead = f := by simpa using hf
      exact ⟨w, rfl, fun p => by rw [← hfirst]; rfl⟩
    | succ i =>
      obtain ⟨wi, hwi, hoffset⟩ := hfs i f (by simpa using hf)
      refine ⟨wi, ?_, hoffset⟩
      rw [List.take_succ_cons, hcons, hwi]

theorem moved_shiftedByOne (hne : w.wormSplotches ≠ []) (input : MoveInput) :
    ShiftedByOne w (w.moved input) := by
  obtain ⟨tail, rest, hbody⟩ := List.exists_cons_of_ne_nil hne
  have hmoved : (w.moved input).wormSplotches = rest ++ [w.ahead tail] := by
    unfold moved
    rw [hbody, turn_cons]
  refine ⟨?_, fun i hi => ?_, ?_, rfl, rfl, rfl⟩
  · rw [hmoved, hbody]
    simp
  · have hrest : i < rest.length := by
      rw [hbody] at hi
      simpa using hi
    rw [hmoved, hbody, List.getElem?_append_left hrest, List.getElem?_cons_succ]
  · rw [hmoved, hbody]
    simp

/-- A move shifts the body by one, and as many moves as there are splotches translate each of
them by the displacement of the body and by the offset that was in force when it was the tail. -/
theorem moveWorm_conveys (w : Body) (hmove : w.moveTime = true)
    (hn : 2 ≤ w.wormSplotches.length) :
    (∀ input, ∃ w' head, w.moveWorm input = some (w', head) ∧ ShiftedByOne w w') ∧
      ∀ inputs : List MoveInput, inputs.length = w.wormSplotches.length →
        ∃ w', w.moves inputs = some w' ∧
          w'.wormSplotches.length = w.wormSplotches.length ∧
          ∀ i center, w.wormSplotches[i]? = some center →
            ∃ wi, w.moves (inputs.take i) = some wi ∧
              w'.wormSplotches[i]? = some (center + (w.endPoint - w.startPoint) + wi.offset) := by
  have hne : w.wormSplotches ≠ [] := List.ne_nil_of_length_pos (by omega)
  refine ⟨fun input => ⟨_, _, moveWorm_eq hmove hne input, moved_shiftedByOne hne input⟩, ?_⟩
  intro inputs hlen
  obtain ⟨fs, w', hrun, hfs, hbody, hoffset⟩ := moves_eq hmove hne inputs
  have hturns : w'.wormSplotches = List.zipWith (fun f p => f p) fs w.wormSplotches := by
    rw [hbody, turns_length (hfs.trans hlen)]
  refine ⟨w', hrun, by rw [hturns, List.length_zipWith]; omega, ?_⟩
  intro i center hcenter
  have hi : i < fs.length := by
    have := (List.getElem?_eq_some_iff.mp hcenter).1
    omega
  obtain ⟨wi, hwi, hf⟩ := hoffset i fs[i] (List.getElem?_eq_getElem hi)
  refine ⟨wi, hwi, ?_⟩
  rw [hturns, List.getElem?_zipWith, List.getElem?_eq_getElem hi, hcenter]
  simp [hf]

theorem moveWorm_conveys_created :
    let w := (((initWithAngle 1 0).startWorm ⟨-100, 400⟩).addToWorm ⟨-80, 500⟩).endWorm ⟨-60, 400⟩
    ∃ w', w.moves (List.replicate 3 ⟨⟨768, 1024⟩, 1, 0⟩) = some w' ∧
      w'.wormSplotches.length = 3 := by
  intro w
  obtain ⟨-, h⟩ := moveWorm_conveys w rfl (by decide)
  obtain ⟨w', hrun, hlen, -⟩ := h (List.replicate 3 ⟨⟨768, 1024⟩, 1, 0⟩) (by decide)
  exact ⟨w', hrun, hlen⟩

/-- The point that is reported: the head, turned round the center of the view and scaled. -/
theorem headCenterInSuperview_eq (w : Body) (bounds : CGSize) (head : CGPoint)
    (hhead : w.wormSplotches.getLast? = some head) :
    w.headCenterInSuperview bounds =
      ⟨bounds.width / 2 + w.scalingFactor * (w.cosAngle * (head.x - bounds.width / 2) -
          w.sinAngle * (head.y - bounds.height / 2)),
        bounds.height / 2 + w.scalingFactor * (w.sinAngle * (head.x - bounds.width / 2) +
          w.cosAngle * (head.y - bounds.height / 2))⟩ := by
  rw [headCenterInSuperview, hhead]
  ext <;>
  · simp only [inverseTransformForSuperview, CGAffineTransform.makeTranslation,
      CGAffineTransform.rotate, CGAffineTransform.scale, CGAffineTransform.translate,
      CGAffineTransform.concat, CGAffineTransform.apply, Option.getD_some]
    ring

end Body

end PWSplotchWorm

end PoopWorms.App
