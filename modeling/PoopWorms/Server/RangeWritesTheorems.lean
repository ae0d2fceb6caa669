import PoopWorms.Server.CommandsTheorems
import PoopWorms.Server.RangeWrites

/-!
# What the range commands store

A block asks for its values to be stored from its start on. What is stored is compared with that
part of it which lies in the array, and each turn of a command's loop with the place of its block
in the message.
-/

namespace PoopWorms.Server

open Octets Osc

/-! ## Ranges -/

/-- The values with the indices that they belong to. -/
def valuesAt : ℤ → List Word → List (ℤ × Word)
  | _, [] => []
  | start, v :: values => (start, v) :: valuesAt (start + 1) values

/-- The index is one of the array's. -/
def Inside (num : ℕ) (p : ℤ × Word) : Bool := 0 ≤ p.1 ∧ p.1 < num

namespace RangeArray

variable {M : Type} (array : RangeArray M)

/-- The stores, one after the other. -/
def stores (writes : List (ℤ × Word)) (m : M) : M :=
  writes.foldl (fun m p => array.write m p.1 p.2) m

/-- The k-th value is stored at `start + k` if that is in the array. -/
def put (start : ℤ) (values : List Word) (m : M) : M :=
  array.stores ((valuesAt start values).filter (Inside array.num)) m

theorem fillLoop_eq (value : Word) (n : ℕ) (start : ℤ) (m : M) :
    fillLoop array value n start m =
      array.stores (valuesAt start (List.replicate n value)) m := by
  induction n generalizing start m with
  | zero => rfl
  | succ n ih => exact ih (start + 1) (array.write m start value)

end RangeArray

theorem mem_valuesAt {p : ℤ × Word} {values : List Word} {start : ℤ}
    (hp : p ∈ valuesAt start values) : start ≤ p.1 ∧ p.1 < start + values.length := by
  induction values generalizing start with
  | nil => exact absurd hp List.not_mem_nil
  | cons v values ih =>
    rw [List.length_cons]
    rcases List.mem_cons.mp hp with rfl | hp
    · show start ≤ start ∧ start < _
      omega
    · have hbounds := ih hp
      omega

/-- A range in the array is stored whole. -/
theorem filter_valuesAt {num : ℕ} {start : ℤ} {values : List Word} (hstart : 0 ≤ start)
    (hlast : start + values.length ≤ num) :
    (valuesAt start values).filter (Inside num) = valuesAt start values := by
  apply List.filter_eq_self.mpr
  intro p hp
  have hbounds := mem_valuesAt hp
  apply decide_eq_true
  omega

/-- Of a range with one value for all, the part in the array is a range. -/
theorem filter_replicate (num : ℕ) (value : Word) (n : ℕ) (start : ℤ) :
    (valuesAt start (List.replicate n value)).filter (Inside num) =
      valuesAt (max start 0)
        (List.replicate (min (start + n) num - max start 0).toNat value) := by
  induction n generalizing start with
  | zero =>
    have hnone : (min (start + (0 : ℕ)) num - max start 0).toNat = 0 := by omega
    rw [hnone]
    rfl
  | succ n ih =>
    rw [List.replicate_succ, valuesAt, List.filter_cons, ih]
    by_cases hneg : start < 0
    · -- the range begins in front of the array
      have hout : ¬ Inside num (start, value) = true := by
        unfold Inside
        rw [decide_eq_true_eq]
        omega
      have hmax : max (start + 1) 0 = max start 0 := by omega
      have hlast : start + 1 + (n : ℤ) = start + (n + 1 : ℕ) := by omega
      rw [if_neg hout, hmax, hlast]
    · by_cases hnum : start < num
      · have hin : Inside num (start, value) = true := decide_eq_true ⟨by omega, hnum⟩
        have hmax : max start 0 = start := by omega
        have hmax' : max (start + 1) 0 = start + 1 := by omega
        have hlength : (min (start + (n + 1 : ℕ)) num - start).toNat =
            (min (start + 1 + n) num - (start + 1)).toNat + 1 := by omega
        rw [if_pos hin, hmax, hmax', hlength, List.replicate_succ, valuesAt]
      · -- the array has ended
        have hout : ¬ Inside num (start, value) = true := by
          unfold Inside
          rw [decide_eq_true_eq]
          omega
        have hnone : (min (start + 1 + n) num - max (start + 1) 0).toNat = 0 := by omega
        have hnone' : (min (start + (n + 1 : ℕ)) num - max start 0).toNat = 0 := by omega
        rw [if_neg hout, hnone, hnone']
        rfl

/-- `start+n-1` as an `int32`. -/
theorem toInt_last (start n : Word) :
    (start + n - 1#32).toInt = start.toInt + n.toInt - 1 ∨
      (start + n - 1#32).toInt = start.toInt + n.toInt - 1 - 2 ^ 32 ∨
      (start + n - 1#32).toInt = start.toInt + n.toInt - 1 + 2 ^ 32 := by
  simp only [BitVec.toInt_eq_toNat_cond, BitVec.toNat_sub, BitVec.toNat_add]
  have h₁ := start.isLt
  have h₂ := n.isLt
  have hone : (1#32).toNat = 1 := rfl
  rw [hone]
  split_ifs <;> omega

/-! ## Blocks -/

/-- The arguments of a block: a start, a count, and values. -/
structure RangeBlock where
  start : Word
  count : Word
  values : List NumberArg

namespace RangeBlock

def tags (b : RangeBlock) : List Byte := chr 'i' :: chr 'i' :: b.values.map NumberArg.tag

def data (b : RangeBlock) : List Byte :=
  OSCValue.beBytes b.start ++ (OSCValue.beBytes b.count ++ b.values.flatMap NumberArg.data)

/-- `start+n-1` is an `int32`. -/
def Fits (b : RangeBlock) : Prop :=
  -2 ^ 31 ≤ b.start.toInt + b.count.toInt - 1 ∧ b.start.toInt + b.count.toInt - 1 < 2 ^ 31

/-- The block is not empty, and lies in the array. -/
def Within (num : ℕ) (b : RangeBlock) : Prop :=
  0 ≤ b.start.toInt ∧ 1 ≤ b.count.toInt ∧ b.start.toInt + b.count.toInt ≤ num

instance (num : ℕ) : DecidablePred (Within num) := fun _ =>
  inferInstanceAs (Decidable (_ ∧ _ ∧ _))

theorem Fits.toInt_last {b : RangeBlock} (h : b.Fits) :
    (b.start + b.count - 1#32).toInt = b.start.toInt + b.count.toInt - 1 := by
  have hlow : -2 ^ 31 ≤ (b.start + b.count - 1#32).toInt := BitVec.le_toInt _
  have hhigh : (b.start + b.count - 1#32).toInt < 2 ^ 31 := BitVec.toInt_lt
  have hlast := PoopWorms.Server.toInt_last b.start b.count
  obtain ⟨hfitsLow, hfitsHigh⟩ := h
  omega

theorem Within.fits {num : ℕ} {b : RangeBlock} (h : b.Within num) (hnum : num < 2 ^ 31) :
    b.Fits := by
  obtain ⟨hstart, hcount, hlast⟩ := h
  exact ⟨by omega, by omega⟩

end RangeBlock

section Turns

variable {M : Type} {fpu : FloatUnit} {array : RangeArray M} {it : MsgIter}
  {tags data : List Byte} {m : M} {b : RangeBlock}

/-- The start and the count of a block are read. -/
theorem reads_block (fpu : FloatUnit) (h : it.Before (b.tags ++ tags) (b.data ++ data)) :
    ∃ it₁ it₂ : MsgIter, it.geti fpu 0#32 = some (b.start, it₁) ∧
      it₁.geti fpu 0#32 = some (b.count, it₂) ∧
      it₂.Before (b.values.map NumberArg.tag ++ tags)
        (b.values.flatMap NumberArg.data ++ data) ∧ it₂.count = it.count + 2 := by
  simp only [RangeBlock.tags, RangeBlock.data, List.cons_append, List.append_assoc] at h
  have hstart : it.geti fpu 0#32 = _ := h.geti rfl 0#32
  have h₁ := h.advance
  have hcount : MsgIter.geti fpu _ 0#32 = _ := h₁.geti rfl 0#32
  rw [MsgIter.swap32_wordOf_beBytes] at hstart hcount
  exact ⟨_, _, hstart, hcount, h₁.advance, rfl⟩

/-- All values are there, and each is stored. -/
theorem setnLoop_eq (fpu : FloatUnit) (array : RangeArray M) {values : List NumberArg} (start : ℤ)
    (h : it.Before (values.map NumberArg.tag ++ tags) (values.flatMap NumberArg.data ++ data)) :
    ∃ it' : MsgIter, setnLoop fpu array values.length start it m =
        some (it', array.stores (valuesAt start (values.map (NumberArg.read fpu))) m) ∧
      it'.Before tags data ∧ it'.count = it.count + values.length := by
  induction values generalizing start it m with
  | nil => exact ⟨it, rfl, h, rfl⟩
  | cons v values ih =>
    rw [List.map_cons, List.cons_append, List.flatMap_cons, List.append_assoc] at h
    have hlen := v.length_data
    have hremain : it.remain ≠ 0 := by
      rw [h.remain_eq, List.length_append]
      omega
    have hvalue : it.getf fpu 0#32 = _ := h.getf_number
    obtain ⟨it', hrun, h', hcount⟩ :=
      ih (m := array.write m start (v.read fpu)) (start + 1) h.advance
    refine ⟨it', ?_, h', ?_⟩
    · rw [List.length_cons, setnLoop, if_neg hremain, hvalue]
      exact hrun
    · have hnext : it'.count = it.count + 1 + values.length := hcount
      rw [List.length_cons]
      omega

/-- A turn of `/b_fill` or `/c_fill` stores the part of the range that is in the array, if no
overflow hides it and no range reaches across an empty array. -/
theorem fillTurn_eq (fpu : FloatUnit) (array : RangeArray M) (v : NumberArg)
    (hvalues : b.values = [v])
    (h : it.Before (b.tags ++ tags) (b.data ++ data)) (hfits : b.Fits)
    (hempty : array.num = 0 → b.start.toInt < 0 → b.start.toInt + b.count.toInt ≤ 0) :
    ∃ it' : MsgIter, fillTurn fpu array it m =
        some (it', array.put b.start.toInt
          (List.replicate b.count.toInt.toNat (v.read fpu)) m) ∧
      it'.Before tags data ∧ it'.count = it.count + 3 := by
  obtain ⟨it₁, it₂, hstart, hcount, h₂, hcount₂⟩ := reads_block fpu h
  rw [hvalues] at h₂
  simp only [List.map_cons, List.map_nil, List.cons_append, List.nil_append, List.flatMap_cons,
    List.flatMap_nil, List.append_nil] at h₂
  have hvalue : it₂.getf fpu 0#32 = _ := h₂.getf_number
  have hlast := hfits.toInt_last
  refine ⟨_, ?_, h₂.advance, ?_⟩
  · unfold fillTurn RangeArray.put
    simp only [Option.bind_eq_bind, Option.bind_some, hstart, hcount, hvalue, hlast,
      filter_replicate]
    by_cases hskip : b.start.toInt + b.count.toInt - 1 < 0 ∨ (array.num : ℤ) ≤ b.start.toInt
    · have hnone : (min (b.start.toInt + b.count.toInt.toNat) array.num -
          max b.start.toInt 0).toNat = 0 := by omega
      rw [if_pos hskip, hnone]
      rfl
    · have hclip : scClip b.start.toInt 0 (array.num - 1) = max b.start.toInt 0 := by
        unfold scClip
        omega
      have hlength : (scClip (b.start.toInt + b.count.toInt - 1) 0 (array.num - 1) + 1 -
          max b.start.toInt 0).toNat =
          (min (b.start.toInt + b.count.toInt.toNat) array.num - max b.start.toInt 0).toNat := by
        unfold scClip
        omega
      rw [if_neg hskip, array.fillLoop_eq, hclip, hlength]
      rfl
  · show it₂.count + 1 = it.count + 3
    omega

/-- A turn of `/b_setn` stores a range that lies in the array, and steps over a block that has no
values. -/
theorem bSetnTurn_eq (hvalues : b.values.length = b.count.toInt.toNat)
    (h : it.Before (b.tags ++ tags) (b.data ++ data)) (hnum : array.num < 2 ^ 31)
    (hregular : b.Within array.num ∨ b.Fits ∧ b.count.toInt ≤ 0) :
    ∃ it' : MsgIter, bSetnTurn fpu array it m =
        some (it', array.put b.start.toInt (b.values.map (NumberArg.read fpu)) m) ∧
      it'.Before tags data ∧ it'.count = it.count + (2 + b.values.length) := by
  obtain ⟨it₁, it₂, hstart, hcount, h₂, hcount₂⟩ := reads_block fpu h
  have hlast : (b.start + b.count - 1#32).toInt = b.start.toInt + b.count.toInt - 1 := by
    rcases hregular with hwithin | ⟨hfits, -⟩
    · exact (hwithin.fits hnum).toInt_last
    · exact hfits.toInt_last
  unfold bSetnTurn RangeArray.put
  simp only [Option.bind_eq_bind, Option.bind_some, hstart, hcount, hlast]
  rcases hregular with ⟨hlow, hpos, hhigh⟩ | ⟨-, hnone⟩
  · -- both ends of the range are left as they are
    have hgo : ¬ (b.start.toInt + b.count.toInt - 1 < 0 ∨ (array.num : ℤ) ≤ b.start.toInt) := by
      omega
    have hclip : scClip b.start.toInt 0 (array.num - 1) = b.start.toInt := by
      unfold scClip
      omega
    have hlength : (scClip (b.start.toInt + b.count.toInt - 1) 0 (array.num - 1) + 1 -
        b.start.toInt).toNat = b.values.length := by
      unfold scClip
      omega
    obtain ⟨it', hrun, h', hcount'⟩ := setnLoop_eq (m := m) fpu array
      b.start.toInt h₂
    refine ⟨it', ?_, h', by omega⟩
    rw [if_neg hgo, hclip, hlength, filter_valuesAt hlow (by rw [List.length_map]; omega)]
    exact hrun
  · have hnil : b.values = [] := List.length_eq_zero_iff.mp (by omega)
    rw [hnil] at h₂ ⊢
    refine ⟨it₂, ?_, h₂, hcount₂⟩
    by_cases hskip : b.start.toInt + b.count.toInt - 1 < 0 ∨ (array.num : ℤ) ≤ b.start.toInt
    · rw [if_pos hskip]
      rfl
    · have hlength : (scClip (b.start.toInt + b.count.toInt - 1) 0 (array.num - 1) + 1 -
          scClip b.start.toInt 0 (array.num - 1)).toNat = 0 := by
        unfold scClip
        omega
      rw [if_neg hskip, hlength]
      rfl

/-- The test of `/c_setn` lets exactly the blocks pass that are not empty and lie in the array. -/
theorem cSetn_within_iff (hnum : array.num < 2 ^ 31) :
    ¬ (b.start.toInt < 0 ∨ (array.num : ℤ) ≤ (b.start + b.count - 1#32).toInt ∨
      (b.start + b.count - 1#32).toInt < b.start.toInt) ↔ b.Within array.num := by
  have hlow : -2 ^ 31 ≤ b.count.toInt := BitVec.le_toInt _
  have hhigh : b.count.toInt < 2 ^ 31 := BitVec.toInt_lt
  have hlow' : -2 ^ 31 ≤ (b.start + b.count - 1#32).toInt := BitVec.le_toInt _
  have hhigh' : (b.start + b.count - 1#32).toInt < 2 ^ 31 := BitVec.toInt_lt
  have hstart : b.start.toInt < 2 ^ 31 := BitVec.toInt_lt
  have hlast := toInt_last b.start b.count
  unfold RangeBlock.Within
  omega

theorem cSetnTurn_within (hvalues : b.values.length = b.count.toInt.toNat)
    (h : it.Before (b.tags ++ tags) (b.data ++ data)) (hnum : array.num < 2 ^ 31)
    (hwithin : b.Within array.num) :
    ∃ it' : MsgIter, cSetnTurn fpu array it m =
        some (some it', array.put b.start.toInt (b.values.map (NumberArg.read fpu)) m) ∧
      it'.Before tags data ∧ it'.count = it.count + (2 + b.values.length) := by
  obtain ⟨it₁, it₂, hstart, hcount, h₂, hcount₂⟩ := reads_block fpu h
  have hgo := (cSetn_within_iff hnum).mpr hwithin
  have hlast := (hwithin.fits hnum).toInt_last
  obtain ⟨hlow, hpos, hhigh⟩ := hwithin
  obtain ⟨it', hrun, h', hcount'⟩ := setnLoop_eq (m := m) fpu array
    b.start.toInt h₂
  have hlength : ((b.start + b.count - 1#32).toInt + 1 - b.start.toInt).toNat =
      b.values.length := by omega
  refine ⟨it', ?_, h', by omega⟩
  unfold cSetnTurn RangeArray.put
  simp only [Option.bind_eq_bind, Option.bind_some, hstart, hcount]
  rw [if_neg hgo, hlength, hrun, filter_valuesAt hlow (by rw [List.length_map]; omega)]
  rfl

theorem cSetnTurn_not_within (h : it.Before (b.tags ++ tags) (b.data ++ data))
    (hnum : array.num < 2 ^ 31) (hwithin : ¬ b.Within array.num) :
    cSetnTurn fpu array it m = some (none, m) := by
  obtain ⟨it₁, it₂, hstart, hcount, -, -⟩ := reads_block fpu h
  have hstop := not_not.mp fun hgo => hwithin ((cSetn_within_iff hnum).mp hgo)
  unfold cSetnTurn
  simp only [Option.bind_eq_bind, Option.bind_some, hstart, hcount]
  rw [if_pos hstop]
  rfl

end Turns

/-! ## The loop over the blocks -/

def blockTags (blocks : List RangeBlock) : List Byte := blocks.flatMap RangeBlock.tags

def blockData (blocks : List RangeBlock) : List Byte := blocks.flatMap RangeBlock.data

/-- The arguments at which the blocks begin. -/
def positions : ℕ → List RangeBlock → List ℕ
  | _, [] => []
  | start, b :: blocks => start :: positions (start + (2 + b.values.length)) blocks

/-- The blocks are taken one after the other, each at its place, up to the first that is refused. -/
theorem blockLoop_eq {M : Type} {more : MsgIter → Bool}
    (turn : MsgIter → M → Option (Option MsgIter × M)) (put : RangeBlock → M → M)
    (accepts : RangeBlock → Bool) {blocks : List RangeBlock}
    (hmore : ∀ b ∈ blocks, ∀ it tags data, it.Before (b.tags ++ tags) (b.data ++ data) →
      more it = true)
    (hend : ∀ it, it.Before [] [] → more it = false)
    (htake : ∀ b ∈ blocks, ∀ it tags data m, it.Before (b.tags ++ tags) (b.data ++ data) →
      accepts b = true → ∃ it' : MsgIter, turn it m = some (some it', put b m) ∧
        it'.Before tags data ∧ it'.count = it.count + (2 + b.values.length))
    (hrefuse : ∀ b ∈ blocks, ∀ it tags data m, it.Before (b.tags ++ tags) (b.data ++ data) →
      accepts b = false → turn it m = some (none, m))
    {it : MsgIter} {m : M} (h : it.Before (blockTags blocks) (blockData blocks)) :
    blockLoop more turn (blocks.length + 1) it m =
      some ((positions it.count blocks).take ((blocks.takeWhile accepts).length + 1),
        (blocks.takeWhile accepts).foldl (fun m b => put b m) m,
        if blocks.all accepts then .none else .indexOutOfRange) := by
  induction blocks generalizing it m with
  | nil =>
    rw [List.length_nil, blockLoop, hend it h]
    rfl
  | cons b blocks ih =>
    rw [blockTags, List.flatMap_cons, blockData, List.flatMap_cons] at h
    have hb : b ∈ b :: blocks := List.mem_cons_self
    rw [List.length_cons, blockLoop, hmore b hb it _ _ h, if_pos rfl]
    cases haccepts : accepts b with
    | false =>
      rw [hrefuse b hb it _ _ m h haccepts]
      simp only [List.takeWhile_cons, haccepts, List.all_cons]
      rfl
    | true =>
      obtain ⟨it', hrun, h', hcount⟩ := htake b hb it _ _ m h haccepts
      have hrest := ih (fun b' hb' => hmore b' (List.mem_cons_of_mem _ hb'))
        (fun b' hb' => htake b' (List.mem_cons_of_mem _ hb'))
        (fun b' hb' => hrefuse b' (List.mem_cons_of_mem _ hb')) (m := put b m) h'
      rw [hrun]
      simp only [Option.bind_eq_bind, Option.bind_some, hrest, hcount, List.takeWhile_cons,
        haccepts, List.all_cons, Bool.true_and, if_true, List.length_cons, positions,
        List.take_succ_cons, List.foldl_cons]
      rfl

/-! ## The commands -/

inductive RangeCommand
  | bSetn | bFill | cSetn | cFill
deriving DecidableEq

namespace RangeCommand

variable {M : Type}

/-- Performing the command. -/
def perform (fpu : FloatUnit) (getBuf : Word → RangeArray M) (bus : RangeArray M) (turns : ℕ)
    (msg : MsgIter) (m : M) : RangeCommand → Option (List ℕ × M × SCErr)
  | bSetn => methBSetn fpu getBuf turns msg m
  | bFill => methBFill fpu getBuf turns msg m
  | cSetn => methCSetn fpu bus turns msg m
  | cFill => methCFill fpu bus turns msg m

/-- The array that is written. -/
def array (getBuf : Word → RangeArray M) (bus : RangeArray M) (bufnum : Word) :
    RangeCommand → RangeArray M
  | bSetn | bFill => getBuf bufnum
  | cSetn | cFill => bus

/-- In front of the blocks stands the number of a buffer. -/
def takesBuf : RangeCommand → Bool
  | bSetn | bFill => true
  | cSetn | cFill => false

/-- The message stands in front of the arguments. -/
def Asks (c : RangeCommand) (bufnum : Word) (blocks : List RangeBlock) (msg : MsgIter) : Prop :=
  if c.takesBuf then
    msg.Before (chr 'i' :: blockTags blocks) (OSCValue.beBytes bufnum ++ blockData blocks)
  else msg.Before (blockTags blocks) (blockData blocks)

/-- The argument at which the first block stands. -/
def first (c : RangeCommand) (msg : MsgIter) : ℕ := if c.takesBuf then msg.count + 1 else msg.count

/-- A block has as many values as it says, or the one that fills. -/
def Formed (b : RangeBlock) : RangeCommand → Prop
  | bSetn | cSetn => b.values.length = b.count.toInt.toNat
  | bFill | cFill => b.values.length = 1

instance (c : RangeCommand) : DecidablePred fun b => c.Formed b := fun b =>
  match c with
  | bSetn | cSetn => inferInstanceAs (Decidable (b.values.length = b.count.toInt.toNat))
  | bFill | cFill => inferInstanceAs (Decidable (b.values.length = 1))

/-- The values of the range. -/
def rangeValues (fpu : FloatUnit) (b : RangeBlock) : RangeCommand → List Word
  | bSetn | cSetn => b.values.map (NumberArg.read fpu)
  | bFill | cFill => b.values.flatMap fun v => List.replicate b.count.toInt.toNat (v.read fpu)

/-- What a block asks for. -/
def put (fpu : FloatUnit) (array : RangeArray M) (c : RangeCommand) (b : RangeBlock) (m : M) : M :=
  array.put b.start.toInt (c.rangeValues fpu b) m

/-- Every block is read at its own place, and the values that it has for indices in the array are
stored there; nothing else is. -/
def WritesAll (fpu : FloatUnit) (getBuf : Word → RangeArray M) (bus : RangeArray M) (bufnum : Word)
    (c : RangeCommand) (blocks : List RangeBlock) (msg : MsgIter) (m : M) : Prop :=
  ∃ turns err, c.perform fpu getBuf bus turns msg m =
    some (positions (c.first msg) blocks,
      blocks.foldl (fun m b => c.put fpu (c.array getBuf bus bufnum) b m) m, err)

/-- Only `/c_setn` refuses blocks. -/
def accepts (num : ℕ) (b : RangeBlock) : RangeCommand → Bool
  | cSetn => b.Within num
  | bSetn | bFill | cFill => true

/-- The blocks that no clipping, no overflow and no empty array get in the way of. -/
def Regular (num : ℕ) (b : RangeBlock) : RangeCommand → Prop
  | bSetn => b.Within num ∨ b.Fits ∧ b.count.toInt ≤ 0
  | bFill | cFill =>
    b.Fits ∧ (num = 0 → b.start.toInt < 0 → b.start.toInt + b.count.toInt ≤ 0)
  | cSetn => True

/-- The same up to the first block that is refused; behind it nothing is read. -/
def WritesAccepted (fpu : FloatUnit) (getBuf : Word → RangeArray M) (bus : RangeArray M)
    (bufnum : Word) (c : RangeCommand) (blocks : List RangeBlock) (msg : MsgIter) (m : M) : Prop :=
  let array := c.array getBuf bus bufnum
  let taken := blocks.takeWhile fun b => c.accepts array.num b
  ∃ turns, c.perform fpu getBuf bus turns msg m =
    some ((positions (c.first msg) blocks).take (taken.length + 1),
      taken.foldl (fun m b => c.put fpu array b m) m,
      if blocks.all fun b => c.accepts array.num b then .none else .indexOutOfRange)

end RangeCommand

section Commands

variable {M : Type} (fpu : FloatUnit) (getBuf : Word → RangeArray M) (bus : RangeArray M)

/-- In front of a block there are at least eight bytes, and four more when it has a value. -/
theorem remain_block {it : MsgIter} {b : RangeBlock} {tags data : List Byte}
    (h : it.Before (b.tags ++ tags) (b.data ++ data)) :
    8 + 4 * (b.values.length : ℤ) ≤ it.remain := by
  have hvalues : (b.values.flatMap NumberArg.data).length = 4 * b.values.length := by
    rw [List.length_flatMap]
    simp only [NumberArg.length_data, List.map_const', List.sum_replicate_nat]
    omega
  have hword : ∀ n : Word, (OSCValue.beBytes n).length = 4 := fun n => rfl
  rw [h.remain_eq, RangeBlock.data]
  simp only [List.length_append, hvalues, hword]
  omega

/-- The loop of a command that refuses nothing. -/
theorem blockLoop_accepting {more : MsgIter → Bool} {turn : MsgIter → M → Option (MsgIter × M)}
    (put : RangeBlock → M → M) {blocks : List RangeBlock}
    (hmore : ∀ b ∈ blocks, ∀ it tags data, it.Before (b.tags ++ tags) (b.data ++ data) →
      more it = true)
    (hend : ∀ it, it.Before [] [] → more it = false)
    (hturn : ∀ b ∈ blocks, ∀ it tags data m, it.Before (b.tags ++ tags) (b.data ++ data) →
      ∃ it' : MsgIter, turn it m = some (it', put b m) ∧
        it'.Before tags data ∧ it'.count = it.count + (2 + b.values.length))
    {it : MsgIter} {m : M} (h : it.Before (blockTags blocks) (blockData blocks)) :
    blockLoop more (fun msg m => (turn msg m).map fun r => (some r.1, r.2)) (blocks.length + 1)
        it m =
      some ((positions it.count blocks).take ((blocks.takeWhile fun _ => true).length + 1),
        (blocks.takeWhile fun _ => true).foldl (fun m b => put b m) m,
        if blocks.all fun _ => true then .none else .indexOutOfRange) := by
  apply blockLoop_eq _ put (fun _ => true) hmore hend _ _ h
  · intro b hb it tags data m hbefore _
    obtain ⟨it', hrun, h'⟩ := hturn b hb it tags data m hbefore
    exact ⟨it', by rw [hrun]; rfl, h'⟩
  · exact fun b _ it tags data m _ hno => absurd hno (by simp)

end Commands

/-! ## Two channels -/

/-- The first block lies in the array, and the second reaches behind it. -/
def twoBlocks : List RangeBlock :=
  [⟨0#32, 2#32, [.int 1#32, .int 1#32]⟩, ⟨1#32, 2#32, [.int 1#32, .int 1#32]⟩]

/-- Two control buses. -/
def twoChannels : RangeArray BusMemory := controlBuses 2 7#32

/-- All buses are 0. -/
def silentBuses : BusMemory := ⟨fun _ => 0#32, fun _ => 0#32⟩

end PoopWorms.Server
