import PoopWorms.Server.ArgumentLoopsTheorems
import PoopWorms.Server.RangeReplies
import PoopWorms.Server.RangeWritesTheorems
import PoopWorms.Server.ScPacketTheorems

/-!
# What the range commands answer

The words that are reserved for the tags come from the counts of all ranges, while the tags come
from the ranges that are taken. A reply is complete if both give the same number of words and the
values fit into the packet.
-/

namespace PoopWorms.Server

open Octets Osc ScPacket

/-! ## Arguments with tags or without -/

def keyTags (args : List ArgKey) : List Byte := args.map ArgKey.tag

def keyData (args : List ArgKey) : List Byte := args.flatMap ArgKey.data

theorem keyData_cons (a : ArgKey) (args : List ArgKey) :
    keyData (a :: args) = a.data ++ keyData args := rfl

def ArgKey.IsIndex (a : ArgKey) : Prop := ∃ n, a = .index n

theorem ArgKey.tag_ne_zero (a : ArgKey) : a.tag ≠ 0#8 := by
  cases a with
  | index n =>
    show chr 'i' ≠ 0#8
    decide
  | name s =>
    show chr 's' ≠ 0#8
    decide

namespace MsgIter

/-- The iterator stands in front of the arguments; only a message with tags can have names. -/
def Ahead (it : MsgIter) (args : List ArgKey) : Prop :=
  it.Before (keyTags args) (keyData args) ∨
    it.Untagged (keyData args) ∧ ∀ a ∈ args, a.IsIndex

section Ahead

variable {it : MsgIter} {a : ArgKey} {args : List ArgKey} {data bs : List Byte}

theorem Untagged.advance (h : it.Untagged (bs ++ data)) :
    ((it.skip bs.length).next).Untagged data := by
  have hskip := h.skip (n := bs.length) (by simp)
  rwa [List.drop_left] at hskip

theorem Untagged.geti {n : Word} (h : it.Untagged (OSCValue.beBytes n ++ data)) (fpu : FloatUnit)
    (d : Word) :
    it.geti fpu d = some (n, (it.skip 4).next) := by
  have hremain := h.remain_eq
  rw [List.length_append, OSCValue.length_beBytes] at hremain
  have hword : oscInt it.rest = some n := by
    rw [h.data, oscInt_append rfl, swap32_wordOf_beBytes]
  unfold MsgIter.geti
  rw [if_neg (by omega), h.tags, hword]
  rfl

theorem Ahead.remain_eq (h : it.Ahead args) : it.remain = (keyData args).length := by
  rcases h with htagged | ⟨huntagged, -⟩
  · exact htagged.remain_eq
  · exact huntagged.remain_eq

/-- A read of an argument as an integer; a name gives the default. -/
theorem Ahead.geti (h : it.Ahead (a :: args)) (fpu : FloatUnit) (d : Word) :
    ∃ v it', it.geti fpu d = some (v, it') ∧ it'.Ahead args ∧ (∀ n, a = .index n → v = n) ∧
      it'.data = it.data ∧ it'.tags = it.tags := by
  cases a with
  | index n =>
    rcases h with htagged | ⟨huntagged, hindex⟩
    · have hget : it.geti fpu d = _ := Before.geti htagged rfl d
      rw [ArgKey.data, swap32_wordOf_beBytes] at hget
      refine ⟨n, _, hget, .inl ?_, fun m hm => ArgKey.index.inj hm, rfl, rfl⟩
      have htagged : it.Before (chr 'i' :: keyTags args) (OSCValue.beBytes n ++ keyData args) :=
        htagged
      exact htagged.advance
    · refine ⟨n, _, Untagged.geti huntagged fpu d, .inr ⟨?_, ?_⟩, fun m hm => ArgKey.index.inj hm, rfl,
        rfl⟩
      · have huntagged : it.Untagged (OSCValue.beBytes n ++ keyData args) := huntagged
        exact huntagged.advance
      · exact fun b hb => hindex b (List.mem_cons_of_mem _ hb)
  | name s =>
    rcases h with htagged | ⟨-, hindex⟩
    · have htagged : it.Before (chr 's' :: keyTags args) (padded s.1 ++ keyData args) := htagged
      have hskip : oscStrskip it.rest = some (padded s.1).length := by
        rw [htagged.data, oscStrskip_padded s.2]
      have hpos : 0 < (padded s.1).length := by
        rw [length_padded]
        omega
      have hname (n : Word) (hn : ArgKey.name s = .index n) : d = n := by cases hn
      refine ⟨d, _, ?_, .inl htagged.advance, hname, rfl, rfl⟩
      unfold MsgIter.geti
      rw [if_neg (htagged.remain_pos hpos), if_pos htagged.isSome_tags, htagged.nextTag_eq, hskip]
      rfl
    · obtain ⟨n, hn⟩ := hindex _ List.mem_cons_self
      cases hn

theorem Ahead.nextTagOr (h : it.Ahead (a :: args)) :
    it.nextTagOr (chr 'i') = some a.tag := by
  rcases h with htagged | ⟨huntagged, hindex⟩
  · exact nextTagOr_eq htagged _
  · obtain ⟨n, rfl⟩ := hindex a List.mem_cons_self
    unfold MsgIter.nextTagOr
    rw [huntagged.tags]
    rfl

theorem Ahead.gets4 {s : OscString} (h : it.Ahead (.name s :: args)) :
    ∃ it', it.gets4 none = some (some s.1, it') ∧ it'.Ahead args := by
  rcases h with htagged | ⟨-, hindex⟩
  · have htagged : it.Before (chr 's' :: keyTags args) (padded s.1 ++ keyData args) := htagged
    exact ⟨_, htagged.gets s.2 none, .inl htagged.advance⟩
  · obtain ⟨n, hn⟩ := hindex _ List.mem_cons_self
    cases hn

/-- `Msg_GetNode`, for an ID. -/
theorem Ahead.msgGetNode {n : Word} (h : it.Ahead (.index n :: args)) (fpu : FloatUnit)
    (w : World) :
    ∃ it', msgGetNode fpu w it = some (w.getNode n, it') ∧ it'.Ahead args ∧
      it'.data = it.data ∧ it'.tags = it.tags := by
  obtain ⟨v, it', hget, hahead, hvalue, hdata, htags⟩ := h.geti fpu 0#32
  obtain rfl := hvalue n rfl
  refine ⟨it', ?_, hahead, hdata, htags⟩
  have hnext : ∃ tag, it.nextTag = some tag ∧ ¬ (it.tags.isSome = true ∧ tag = chr 's') := by
    rcases h with htagged | ⟨huntagged, -⟩
    · exact ⟨chr 'i', htagged.nextTag_eq, fun hc => absurd hc.2 (by decide)⟩
    · refine ⟨chr 'f', ?_, fun hc => absurd hc.2 (by decide)⟩
      unfold MsgIter.nextTag
      rw [huntagged.tags]
  obtain ⟨tag, htag, hne⟩ := hnext
  unfold Server.msgGetNode
  rw [htag]
  simp only [Option.bind_eq_bind, Option.bind_some, if_neg hne, hget]
  rfl

end Ahead

end MsgIter

/-! ## Ranges -/

/-- A range of a request. -/
structure GetRange where
  key : ArgKey
  count : Word

namespace GetRange

def args (r : GetRange) : List ArgKey := [r.key, .index r.count]

/-- Its key, as an item of the reply. -/
def item (r : GetRange) : Item :=
  match r.key with
  | .index n => .int n
  | .name s => .string s.1

/-- The first index of a range of an array. -/
def start (r : GetRange) : ℤ :=
  match r.key with
  | .index n => n.toInt
  | .name _ => 0

/-- The values of the range. -/
def values (value : ℤ → Word) (first : ℤ) (r : GetRange) : List Word :=
  (List.range r.count.toInt.toNat).map fun i : ℕ => value (first + i)

/-- What is added for a range with these values. -/
def ops (values : List Word) (r : GetRange) : List Op :=
  .tag r.item.tag :: .tag (chr 'i') :: .item r.item :: .item (.int r.count) ::
    values.flatMap fun v => [.tag (chr 'f'), .item (.float v)]

/-- The range is not empty, and lies in the array. -/
def Within (maxIndex : Word) (r : GetRange) : Prop :=
  ∃ start, r.key = .index start ∧ 0 ≤ start.toInt ∧ 1 ≤ r.count.toInt ∧
    start.toInt + r.count.toInt ≤ maxIndex.toInt

instance (maxIndex : Word) (r : GetRange) : Decidable (r.Within maxIndex) :=
  match h : r.key with
  | .index start =>
    decidable_of_iff (0 ≤ start.toInt ∧ 1 ≤ r.count.toInt ∧
      start.toInt + r.count.toInt ≤ maxIndex.toInt)
      ⟨fun hin => ⟨start, h, hin⟩, fun hin => by
        obtain ⟨n, hn, hin⟩ := hin
        obtain rfl := ArgKey.index.inj (h.symm.trans hn)
        exact hin⟩
  | .name _ => isFalse fun hin => by
    obtain ⟨n, hn, -⟩ := hin
    cases h.symm.trans hn

end GetRange

def rangeArgs (ranges : List GetRange) : List ArgKey := ranges.flatMap GetRange.args

/-- The sum of the counts, as an `int32`. -/
def sumCounts (ranges : List GetRange) : Word := ranges.foldl (fun sum r => sum + r.count) 0#32

section Loops

variable {fpu : FloatUnit} {it : MsgIter} {ranges : List GetRange} {packet : ScPacket}

theorem remain_ahead {r : GetRange} (h : it.Ahead (rangeArgs (r :: ranges))) : it.remain ≠ 0 := by
  have hkey := r.key.four_le_length_data
  have hremain := h.remain_eq
  change it.remain = (r.key.data ++ keyData (.index r.count :: rangeArgs ranges)).length at hremain
  rw [List.length_append] at hremain
  omega

/-- The first loop adds up the counts. -/
theorem countControls_eq (h : it.Ahead (rangeArgs ranges)) {turns : ℕ}
    (hturns : ranges.length < turns) (sum : Word) :
    countControls fpu turns it sum = some (ranges.foldl (fun sum r => sum + r.count) sum) := by
  induction ranges generalizing it turns sum with
  | nil =>
    obtain ⟨turns, rfl⟩ := Nat.exists_eq_succ_of_ne_zero (Nat.ne_of_gt hturns)
    have hend : it.remain = 0 := h.remain_eq
    rw [countControls, if_pos hend]
    rfl
  | cons r ranges ih =>
    obtain ⟨turns, rfl⟩ := Nat.exists_eq_succ_of_ne_zero (Nat.ne_zero_of_lt hturns)
    have hahead : it.Ahead (r.key :: .index r.count :: rangeArgs ranges) := h
    obtain ⟨v, it₁, hkey, h₁, -⟩ := hahead.geti fpu 0#32
    obtain ⟨n, it₂, hcount, h₂, hn, -⟩ := h₁.geti fpu 0#32
    obtain rfl := hn r.count rfl
    rw [List.length_cons] at hturns
    rw [countControls, if_neg (remain_ahead h), hkey]
    simp only [Option.bind_eq_bind, Option.bind_some, hcount]
    exact ih h₂ (by omega) (sum + r.count)

/-- The values of a range are added one after the other. -/
theorem addValues_eq (value : ℤ → Word) (n : ℕ) (first : ℤ) (packet : ScPacket) :
    addValues value n first packet = packet.performAll
      (((List.range n).map fun i : ℕ => value (first + i)).flatMap
        fun v => [.tag (chr 'f'), .item (.float v)]) := by
  induction n generalizing first packet with
  | zero => rfl
  | succ n ih =>
    have hshift : ((List.range n).map fun i : ℕ => value (first + 1 + i)) =
        (List.range n).map fun i : ℕ => value (first + (i + 1 : ℕ)) := by
      apply List.map_congr_left
      intro i _
      congr 1
      omega
    rw [addValues, ih, hshift, List.range_succ_eq_map, List.map_cons, List.map_map]
    simp only [List.flatMap_cons, performAll_append, Nat.cast_zero, add_zero]
    rfl

/-- The test of the loop lets exactly the ranges pass that are not empty and lie in the array. -/
theorem getn_within_iff {r : GetRange} {start : Word} (hkey : r.key = .index start)
    (maxIndex : Word) :
    ¬ (start.toInt < 0 ∨ maxIndex.toInt ≤ (start + r.count - 1#32).toInt ∨
      (start + r.count - 1#32).toInt < start.toInt) ↔ r.Within maxIndex := by
  have hlow : -2 ^ 31 ≤ r.count.toInt := BitVec.le_toInt _
  have hhigh : r.count.toInt < 2 ^ 31 := BitVec.toInt_lt
  have hlow' : -2 ^ 31 ≤ (start + r.count - 1#32).toInt := BitVec.le_toInt _
  have hhigh' : (start + r.count - 1#32).toInt < 2 ^ 31 := BitVec.toInt_lt
  have hstart : start.toInt < 2 ^ 31 := BitVec.toInt_lt
  have hmax : maxIndex.toInt < 2 ^ 31 := BitVec.toInt_lt
  have hlast := toInt_last start r.count
  constructor
  · intro hgo
    exact ⟨start, hkey, by omega, by omega, by omega⟩
  · intro hin
    obtain ⟨n, hn, hin⟩ := hin
    obtain rfl := ArgKey.index.inj (hkey.symm.trans hn)
    omega

/-- The loop of `/c_getn` and `/b_getn` adds the ranges up to the first that is refused. -/
theorem getnLoop_eq (array : ReadArray) (h : it.Ahead (rangeArgs ranges))
    (hindex : ∀ r ∈ ranges, r.key.IsIndex) {turns : ℕ} (hturns : ranges.length < turns) :
    getnLoop fpu array turns it packet = some
      (packet.performAll ((ranges.takeWhile fun r => r.Within array.maxIndex).flatMap
        fun r => r.ops (r.values array.data r.start)),
        if ranges.all fun r => r.Within array.maxIndex then .none else .indexOutOfRange) := by
  induction ranges generalizing it turns packet with
  | nil =>
    obtain ⟨turns, rfl⟩ := Nat.exists_eq_succ_of_ne_zero (Nat.ne_of_gt hturns)
    have hend : it.remain = 0 := h.remain_eq
    rw [getnLoop, if_pos hend]
    rfl
  | cons r ranges ih =>
    obtain ⟨turns, rfl⟩ := Nat.exists_eq_succ_of_ne_zero (Nat.ne_zero_of_lt hturns)
    obtain ⟨start, hkeyIs⟩ := hindex r List.mem_cons_self
    have hahead : it.Ahead (r.key :: .index r.count :: rangeArgs ranges) := h
    obtain ⟨v, it₁, hkey, h₁, hv, -⟩ := hahead.geti fpu 0#32
    obtain rfl := hv start hkeyIs
    obtain ⟨n, it₂, hcount, h₂, hn, -⟩ := h₁.geti fpu 0#32
    obtain rfl := hn r.count rfl
    rw [List.length_cons] at hturns
    rw [getnLoop, if_neg (remain_ahead h), hkey]
    simp only [Option.bind_eq_bind, Option.bind_some, hcount]
    by_cases hwithin : r.Within array.maxIndex
    · have hgo := (getn_within_iff hkeyIs array.maxIndex).mpr hwithin
      obtain ⟨s, hs, hlow, hpos, hhigh⟩ := id hwithin
      obtain rfl := ArgKey.index.inj (hkeyIs.symm.trans hs)
      have hmax : array.maxIndex.toInt < 2 ^ 31 := BitVec.toInt_lt
      have hlast := toInt_last v r.count
      have hlow' : -2 ^ 31 ≤ (v + r.count - 1#32).toInt := BitVec.le_toInt _
      have hhigh' : (v + r.count - 1#32).toInt < 2 ^ 31 := BitVec.toInt_lt
      have hlength : ((v + r.count - 1#32).toInt + 1 - v.toInt).toNat =
          r.count.toInt.toNat := by omega
      have hops : addValues array.data r.count.toInt.toNat v.toInt
          ((((packet.addtag (chr 'i')).addtag (chr 'i')).addi v).addi r.count) =
          packet.performAll (r.ops (r.values array.data r.start)) := by
        have hitem : r.item = .int v := by
          unfold GetRange.item
          rw [hkeyIs]
        have hstart : r.start = v.toInt := by
          unfold GetRange.start
          rw [hkeyIs]
        rw [addValues_eq]
        unfold GetRange.ops GetRange.values
        rw [hitem, hstart]
        rfl
      rw [if_neg hgo, hlength, hops, ih h₂ (fun r' hr' => hindex r' (List.mem_cons_of_mem _ hr'))
        (by omega)]
      simp only [List.takeWhile_cons, List.all_cons, hwithin, decide_true, if_true, Bool.true_and,
        List.flatMap_cons, performAll_append]
    · have hstop := not_not.mp fun hgo =>
        hwithin ((getn_within_iff hkeyIs array.maxIndex).mp hgo)
      rw [if_pos hstop]
      simp only [List.takeWhile_cons, List.all_cons, hwithin, decide_false, Bool.false_and]
      rfl

/-- The loop of `/s_getn` adds all ranges. -/
theorem sGetnLoop_eq (getControl : ControlKey → ℤ → Word) (h : it.Ahead (rangeArgs ranges))
    {turns : ℕ} (hturns : ranges.length < turns) :
    sGetnLoop fpu getControl turns it packet = some (packet.performAll (ranges.flatMap fun r =>
      r.ops (r.values (getControl r.key.read) 0)), .none) := by
  induction ranges generalizing it turns packet with
  | nil =>
    obtain ⟨turns, rfl⟩ := Nat.exists_eq_succ_of_ne_zero (Nat.ne_of_gt hturns)
    have hend : it.remain = 0 := h.remain_eq
    rw [sGetnLoop, if_pos hend]
    rfl
  | cons r ranges ih =>
    obtain ⟨turns, rfl⟩ := Nat.exists_eq_succ_of_ne_zero (Nat.ne_zero_of_lt hturns)
    have hahead : it.Ahead (r.key :: .index r.count :: rangeArgs ranges) := h
    have htag := hahead.nextTagOr
    rw [List.length_cons] at hturns
    rw [sGetnLoop, if_neg (remain_ahead h), htag, List.flatMap_cons, performAll_append]
    simp only [Option.bind_eq_bind, Option.bind_some]
    cases hkey : r.key with
    | index n =>
      rw [hkey] at hahead
      have hne : ¬ (ArgKey.index n).tag = chr 's' := by
        show ¬ chr 'i' = chr 's'
        decide
      obtain ⟨v, it₁, hget, h₁, hv, -⟩ := hahead.geti fpu 0#32
      obtain rfl := hv n rfl
      obtain ⟨c, it₂, hcount, h₂, hc, -⟩ := h₁.geti fpu 0#32
      obtain rfl := hc r.count rfl
      have hitem : r.item = .int v := by
        unfold GetRange.item
        rw [hkey]
      rw [if_neg hne, hget]
      simp only [Option.bind_some, hcount]
      rw [ih h₂ (by omega), addValues_eq]
      unfold GetRange.ops GetRange.values
      rw [hitem]
      rfl
    | name s =>
      rw [hkey] at hahead
      have heq : (ArgKey.name s).tag = chr 's' := rfl
      obtain ⟨it₁, hget, h₁⟩ := hahead.gets4
      obtain ⟨c, it₂, hcount, h₂, hc, -⟩ := h₁.geti fpu 0#32
      obtain rfl := hc r.count rfl
      have hitem : r.item = .string s.1 := by
        unfold GetRange.item
        rw [hkey]
      rw [if_pos heq, hget]
      simp only [Option.bind_some, hcount]
      rw [ih h₂ (by omega), addValues_eq]
      unfold GetRange.ops GetRange.values
      rw [hitem]
      rfl

end Loops

/-! ## The commands -/

inductive GetnCommand
  | cGetn | bGetn | sGetn
deriving DecidableEq

/-- What the commands read. -/
structure GetnWorld where
  bus : ReadArray
  getBuf : Word → ReadArray
  world : World
  getControl : NodeID → ControlKey → ℤ → Word

namespace GetnWorld

variable (g : GetnWorld)

/-- `Msg_GetGraph`, for an ID. -/
def getGraph (nodeID : NodeID) : Option NodeID :=
  (g.world.getNode nodeID).filter fun n => ¬ (g.world.mNode n).mIsGroup

/-- Performing the command. -/
def perform (fpu : FloatUnit) (turns : ℕ) (stack : ℤ → Byte) (msg : MsgIter) :
    GetnCommand → Option GetnResult
  | .cGetn => methCGetn fpu turns stack g.bus msg
  | .bGetn => methBGetn fpu turns stack g.getBuf msg
  | .sGetn => methSGetn fpu turns stack g.world g.getControl msg

end GetnWorld

namespace GetnCommand

variable (g : GetnWorld) (num : Word) (ranges : List GetRange)

def address : GetnCommand → List Byte
  | cGetn => (CString.ofString "/c_setn").bytes
  | bGetn => (CString.ofString "/b_setn").bytes
  | sGetn => (CString.ofString "/n_setn").bytes

/-- In front of the ranges stands the number of a buffer, or the ID of a synth. -/
def takesNum : GetnCommand → Bool
  | cGetn => false
  | bGetn | sGetn => true

def args (c : GetnCommand) : List ArgKey :=
  if c.takesNum then .index num :: rangeArgs ranges else rangeArgs ranges

/-- The message asks for these ranges; only those of a synth may begin at a name. -/
structure Asks (c : GetnCommand) (msg : MsgIter) : Prop where
  args : msg.Ahead (c.args num ranges)
  count : msg.count = 0
  size : msg.size < 2 ^ 31
  index : c ≠ sGetn → ∀ r ∈ ranges, r.key.IsIndex

/-- The number that stands in front of the ranges in the reply; there is no reply without a
synth. -/
def replyNum : GetnCommand → Option Word
  | cGetn | bGetn => some num
  | sGetn => g.getGraph num

/-- Only ranges of an array are refused. -/
def accepts (r : GetRange) : GetnCommand → Bool
  | cGetn => r.Within g.bus.maxIndex
  | bGetn => r.Within (g.getBuf num).maxIndex
  | sGetn => true

/-- The values of a range; `num` is that of the reply. -/
def values (r : GetRange) : GetnCommand → List Word
  | cGetn => r.values g.bus.data r.start
  | bGetn => r.values (g.getBuf num).data r.start
  | sGetn => r.values (g.getControl num r.key.read) 0

/-- What is added to the packet; `num` is that of the reply. -/
def ops (c : GetnCommand) : List Op :=
  (if c.takesNum then [.tag (chr ','), .tag (chr 'i'), .item (.int num)] else [.tag (chr ',')]) ++
    (ranges.takeWhile fun r => c.accepts g num r).flatMap fun r => r.ops (c.values g num r)

/-- The number of tags that is counted in front, as an `int32`. -/
def reserved (c : GetnCommand) : Word :=
  BitVec.ofNat 32 ranges.length * 2#32 + sumCounts ranges + if c.takesNum then 2#32 else 1#32

end GetnCommand

section Commands

variable {fpu : FloatUnit} {g : GetnWorld} {num : Word} {ranges : List GetRange} {msg it : MsgIter}

theorem length_keyData (hindex : ∀ r ∈ ranges, r.key.IsIndex) :
    (keyData (rangeArgs ranges)).length = 8 * ranges.length := by
  induction ranges with
  | nil => rfl
  | cons r ranges ih =>
    obtain ⟨n, hn⟩ := hindex r List.mem_cons_self
    have hrest := ih fun r' hr' => hindex r' (List.mem_cons_of_mem _ hr')
    show (r.key.data ++ (OSCValue.beBytes r.count ++ keyData (rangeArgs ranges))).length = _
    rw [List.length_append, List.length_append, hrest, hn, OSCValue.length_beBytes,
      List.length_cons]
    show 4 + (4 + _) = _
    omega

theorem length_rangeArgs (ranges : List GetRange) :
    (rangeArgs ranges).length = 2 * ranges.length := by
  induction ranges with
  | nil => rfl
  | cons r ranges ih =>
    show (r.key :: .index r.count :: rangeArgs ranges).length = _
    rw [List.length_cons, List.length_cons, ih, List.length_cons]
    omega

/-- The pairs of words that are left are the ranges. -/
theorem heads_eq (h : it.Ahead (rangeArgs ranges)) (hindex : ∀ r ∈ ranges, r.key.IsIndex) :
    BitVec.ofInt 32 (it.remain / 8) = BitVec.ofNat 32 ranges.length := by
  have hheads : it.remain / 8 = (ranges.length : ℤ) := by
    rw [h.remain_eq, length_keyData hindex]
    omega
  rw [hheads, BitVec.ofInt_natCast]

/-- `strlen(msg.tags) - 1 >> 1` is the number of ranges, behind the node. -/
theorem sGetnHeads_eq (h : GetnCommand.sGetn.Asks num ranges msg) (hdata : it.data = msg.data)
    (htags : it.tags = msg.tags) (hahead : it.Ahead (rangeArgs ranges)) :
    sGetnHeads it = BitVec.ofNat 32 ranges.length := by
  rcases h.args with htagged | ⟨huntagged, hindex⟩
  · obtain ⟨t, ht, pad, hdrop⟩ := htagged.tags
    have hall : keyTags (GetnCommand.sGetn.args num ranges) =
        chr 'i' :: keyTags (rangeArgs ranges) := rfl
    rw [h.count, Nat.add_zero, hall] at hdrop
    have hnul : ∀ b ∈ chr 'i' :: keyTags (rangeArgs ranges), b ≠ 0#8 := by
      intro b hb
      rcases List.mem_cons.mp hb with rfl | hb
      · decide
      · obtain ⟨a, -, rfl⟩ := List.mem_map.mp hb
        exact a.tag_ne_zero
    have hstrlen : ((it.data.drop t).takeWhile (· ≠ 0#8)).length = 1 + 2 * ranges.length := by
      rw [hdata, hdrop, List.takeWhile_append_of_pos (by simpa using hnul)]
      simp [keyTags, length_rangeArgs]
      omega
    -- the message is shorter than 2 ^ 31
    have hshort : ranges.length < 2 ^ 31 := by
      have hlength := congrArg List.length hdrop
      have hsize := htagged.size
      have hlt := h.size
      rw [List.length_drop, List.length_append, List.length_cons, keyTags, List.length_map,
        length_rangeArgs] at hlength
      omega
    unfold sGetnHeads
    rw [htags, ht]
    simp only [hstrlen]
    apply BitVec.eq_of_toNat_eq
    simp only [BitVec.toNat_setWidth, BitVec.toNat_ushiftRight, BitVec.toNat_sub,
      BitVec.toNat_ofNat, Nat.shiftRight_eq_div_pow]
    omega
  · have hnone : it.tags = none := htags.trans huntagged.tags
    have hindex' : ∀ r ∈ ranges, r.key.IsIndex := fun r hr =>
      hindex _ (List.mem_cons_of_mem _ (List.mem_flatMap.mpr ⟨r, hr, List.mem_cons_self⟩))
    unfold sGetnHeads
    rw [hnone]
    exact heads_eq hahead hindex'

/-- What a command builds, and the error that it returns. -/
theorem perform_eq (c : GetnCommand) (h : c.Asks num ranges msg) {n : Word}
    (hnum : c.replyNum g num = some n) {turns : ℕ} (hturns : ranges.length < turns)
    (stack : ℤ → Byte) :
    g.perform fpu turns stack msg c = some (finishGetn
      ((beginReply stack c.address (c.reserved ranges)).performAll (c.ops g n ranges))
      (if ranges.all fun r => c.accepts g n r then .none else .indexOutOfRange)) := by
  cases c with
  | cGetn =>
    have hindex := h.index (by decide)
    change methCGetn fpu turns stack g.bus msg = _
    unfold methCGetn
    rw [countControls_eq h.args hturns, heads_eq h.args hindex]
    simp only [Option.bind_eq_bind, Option.bind_some, getnLoop_eq g.bus h.args hindex hturns]
    rfl
  | bGetn =>
    obtain rfl : num = n := Option.some.inj hnum
    have hindex := h.index (by decide)
    have hargs : msg.Ahead (.index num :: rangeArgs ranges) := h.args
    obtain ⟨v, it, hget, hahead, hv, -⟩ := hargs.geti fpu 0#32
    obtain rfl := hv num rfl
    change methBGetn fpu turns stack g.getBuf msg = _
    unfold methBGetn
    rw [hget]
    simp only [Option.bind_eq_bind, Option.bind_some, countControls_eq hahead hturns,
      heads_eq hahead hindex, getnLoop_eq (g.getBuf v) hahead hindex hturns]
    rfl
  | sGetn =>
    have hargs : msg.Ahead (.index num :: rangeArgs ranges) := h.args
    obtain ⟨it, hnode, hahead, hdata, htags⟩ := hargs.msgGetNode fpu g.world
    obtain ⟨v, it', hget, hahead', -, -⟩ := hargs.geti fpu 0#32
    have hgraph : (g.world.getNode num).filter (fun n => ¬ (g.world.mNode n).mIsGroup) = some n :=
      hnum
    change methSGetn fpu turns stack g.world g.getControl msg = _
    unfold methSGetn
    rw [hnode]
    simp only [Option.bind_eq_bind, Option.bind_some, hgraph,
      countControls_eq hahead hturns, sGetnHeads_eq h hdata htags hahead, hget,
      sGetnLoop_eq (g.getControl n) hahead' hturns]
    -- no range is refused
    have haccepts : ∀ r ∈ ranges, GetnCommand.sGetn.accepts g n r = true := fun r _ => rfl
    rw [List.all_eq_true.mpr haccepts, if_pos rfl]
    unfold GetnCommand.ops
    rw [List.takeWhile_eq_self_iff.mpr haccepts]
    rfl

/-! ## Complete replies -/

namespace GetnCommand

variable (g num ranges) (c : GetnCommand)

/-- What a reply is to contain; `num` is that of the reply. -/
def items : List Item :=
  (if c.takesNum then [.int num] else []) ++
    ranges.flatMap fun r => r.item :: .int r.count :: (c.values g num r).map .float

/-- The ranges up to the first that is refused. -/
def taken : List GetRange := ranges.takeWhile fun r => c.accepts g num r

/-- The number of tags that are added. -/
def numTags : ℕ :=
  (if c.takesNum then 2 else 1) +
    Tiling.total (fun r => 2 + r.count.toInt.toNat) (c.taken g num ranges)

/-- The words of the items of all ranges. -/
def numWords : ℕ :=
  (if c.takesNum then 1 else 0) +
    Tiling.total (fun r => r.item.words + 1 + r.count.toInt.toNat) ranges

/-- Whatever is on the stack, nothing outside of the packet is written, and a reply that is sent
contains every item, each with its tag. -/
def StaysInside (fpu : FloatUnit) (msg : MsgIter) : Prop :=
  ∀ stack, ∃ r least, (∀ turns, least ≤ turns → g.perform fpu turns stack msg c = some r) ∧
    ScPacket.Inside stack r.packet.buf ∧ ∀ bytes ∈ r.sent, ∀ n ∈ c.replyNum g num,
      bytes = encode c.address (chr ',' :: (c.items g n ranges).map Item.tag) (c.items g n ranges)

/-- The words that are reserved for the tags are those of the tags that are added, and the items
fit; where a range is refused, the reserved words may be too many for the packet, or reach back to
the address, and the tags fit. -/
def Fits : Prop :=
  ∀ n ∈ c.replyNum g num,
    if ranges.all fun r => c.accepts g n r then
      tagWords (c.reserved ranges) = (c.numTags g n ranges / 4 : ℕ) + 1 ∧
        2 + tagWords (c.reserved ranges) + c.numWords ranges ≤ 16379
    else
      (16377 < tagWords (c.reserved ranges) ∨ -1 ≤ tagWords (c.reserved ranges)) ∧
        c.numTags g n ranges ≤ 65508

end GetnCommand

theorem addressWords_address (c : GetnCommand) : addressWords c.address = 2 := by
  cases c <;> rfl

section Ops

variable {r : GetRange} {values : List Word}

theorem opTags_values (values : List Word) :
    opTags (values.flatMap fun v => [.tag (chr 'f'), .item (.float v)]) =
      (values.map Item.float).map Item.tag := by
  induction values with
  | nil => rfl
  | cons v values ih =>
    rw [List.flatMap_cons, opTags_append, ih]
    rfl

theorem opItems_values (values : List Word) :
    opItems (values.flatMap fun v => [.tag (chr 'f'), .item (.float v)]) =
      values.map Item.float := by
  induction values with
  | nil => rfl
  | cons v values ih =>
    rw [List.flatMap_cons, opItems_append, ih]
    rfl

/-- Each item of a range has its tag. -/
theorem opTags_range (values : List Word) (r : GetRange) :
    opTags (r.ops values) = (r.item :: .int r.count :: values.map Item.float).map Item.tag := by
  rw [List.map_cons, List.map_cons, ← opTags_values]
  rfl

theorem opItems_range (values : List Word) (r : GetRange) :
    opItems (r.ops values) = r.item :: .int r.count :: values.map Item.float := by
  rw [← opItems_values]
  rfl

theorem opTags_ranges (value : GetRange → List Word) (ranges : List GetRange) :
    opTags (ranges.flatMap fun r => r.ops (value r)) =
      (ranges.flatMap fun r => r.item :: .int r.count :: (value r).map Item.float).map
        Item.tag := by
  induction ranges with
  | nil => rfl
  | cons r ranges ih =>
    rw [List.flatMap_cons, List.flatMap_cons, opTags_append, opTags_range, ih, List.map_append]

theorem opItems_ranges (value : GetRange → List Word) (ranges : List GetRange) :
    opItems (ranges.flatMap fun r => r.ops (value r)) =
      ranges.flatMap fun r => r.item :: .int r.count :: (value r).map Item.float := by
  induction ranges with
  | nil => rfl
  | cons r ranges ih =>
    rw [List.flatMap_cons, List.flatMap_cons, opItems_append, opItems_range, ih]

end Ops

section Counts

variable (g) (num : Word) (ranges) (c : GetnCommand)

theorem length_values (r : GetRange) : (c.values g num r).length = r.count.toInt.toNat := by
  cases c <;> simp [GetnCommand.values, GetRange.values]

/-- The tags of the ranges that are taken, with those in front of them. -/
theorem opTags_ops : opTags (c.ops g num ranges) =
    chr ',' :: (c.items g num (c.taken g num ranges)).map Item.tag := by
  unfold GetnCommand.ops GetnCommand.items GetnCommand.taken
  rw [opTags_append, opTags_ranges, List.map_append]
  cases c <;> rfl

theorem opItems_ops : opItems (c.ops g num ranges) = c.items g num (c.taken g num ranges) := by
  unfold GetnCommand.ops GetnCommand.items GetnCommand.taken
  rw [opItems_append, opItems_ranges]
  cases c <;> rfl

theorem length_items : (c.items g num ranges).length = (if c.takesNum then 1 else 0) +
    Tiling.total (fun r => 2 + r.count.toInt.toNat) ranges := by
  have hranges : (ranges.flatMap fun r => r.item :: .int r.count ::
      (c.values g num r).map Item.float).length =
      Tiling.total (fun r => 2 + r.count.toInt.toNat) ranges := by
    induction ranges with
    | nil => rfl
    | cons r ranges ih =>
      rw [List.flatMap_cons, List.length_append, ih, Tiling.total_cons, List.length_cons,
        List.length_cons, List.length_map, length_values]
      omega
  unfold GetnCommand.items
  rw [List.length_append, hranges]
  cases c <;> rfl

theorem length_opTags : (opTags (c.ops g num ranges)).length = c.numTags g num ranges := by
  unfold GetnCommand.numTags
  rw [opTags_ops, List.length_cons, List.length_map, length_items]
  cases c <;> simp [GetnCommand.takesNum] <;> omega

theorem itemWords_items : itemWords (c.items g num ranges) = c.numWords ranges := by
  have hvalues : ∀ values : List Word, itemWords (values.map Item.float) = values.length := by
    intro values
    induction values with
    | nil => rfl
    | cons v values ih =>
      rw [List.map_cons, itemWords_cons, ih, List.length_cons]
      show 1 + _ = _
      omega
  have hranges : itemWords (ranges.flatMap fun r => r.item :: .int r.count ::
      (c.values g num r).map Item.float) =
      Tiling.total (fun r => r.item.words + 1 + r.count.toInt.toNat) ranges := by
    induction ranges with
    | nil => rfl
    | cons r ranges ih =>
      have hsplit : ∀ xs ys : List Item, itemWords (xs ++ ys) = itemWords xs + itemWords ys :=
        fun xs ys => Tiling.total_append _ xs ys
      rw [List.flatMap_cons, hsplit, ih, Tiling.total_cons, itemWords_cons, itemWords_cons,
        hvalues, length_values]
      show r.item.words + (1 + _) + _ = _
      omega
  unfold GetnCommand.items GetnCommand.numWords
  show Tiling.total Item.words (_ ++ _) = _
  rw [Tiling.total_append]
  show itemWords _ + itemWords _ = _
  rw [hranges]
  cases c <;> rfl

theorem opTags_ne_zero : ∀ b ∈ opTags (c.ops g num ranges), b ≠ 0#8 := by
  intro b hb
  rw [opTags_ops] at hb
  rcases List.mem_cons.mp hb with rfl | hb
  · decide
  · obtain ⟨x, -, rfl⟩ := List.mem_map.mp hb
    cases x with
    | int i =>
      show chr 'i' ≠ 0#8
      decide
    | float f =>
      show chr 'f' ≠ 0#8
      decide
    | string s =>
      show chr 's' ≠ 0#8
      decide

end Counts

/-- The property for a command whose packet is known. -/
theorem staysInside_iff (c : GetnCommand) (h : c.Asks num ranges msg) {n : Word}
    (hnum : c.replyNum g num = some n) :
    c.StaysInside g num ranges fpu msg ↔ ∀ stack,
      ScPacket.Inside stack ((beginReply stack c.address (c.reserved ranges)).performAll
        (c.ops g n ranges)).buf ∧
      ((ranges.all fun r => c.accepts g n r) = true →
        ∀ bytes ∈ ((beginReply stack c.address (c.reserved ranges)).performAll
          (c.ops g n ranges)).sendReply,
        bytes = encode c.address (opTags (c.ops g n ranges)) (opItems (c.ops g n ranges))) := by
  have hall : (ranges.all fun r => c.accepts g n r) = true →
      c.taken g n ranges = ranges := fun hall => by
    unfold GetnCommand.taken
    exact List.takeWhile_eq_self_iff.mpr (List.all_eq_true.mp hall)
  constructor
  · intro hstays stack
    obtain ⟨r, least, hrun, hinside, hsent⟩ := hstays stack
    have hsame := (hrun (max least (ranges.length + 1)) (Nat.le_max_left _ _)).symm.trans
      (perform_eq c h hnum (Nat.lt_of_succ_le (Nat.le_max_right _ _)) stack)
    obtain rfl := Option.some.inj hsame
    refine ⟨hinside, fun haccepts bytes hbytes => ?_⟩
    rw [opTags_ops, opItems_ops, hall haccepts]
    refine hsent bytes ?_ n hnum
    unfold finishGetn
    rw [if_pos haccepts]
    exact hbytes
  · intro hbuilt stack
    obtain ⟨hinside, hsent⟩ := hbuilt stack
    refine ⟨_, ranges.length + 1, fun turns hturns => perform_eq c h hnum hturns stack, hinside,
      fun bytes hbytes m hm => ?_⟩
    obtain rfl := Option.some.inj (hnum.symm.trans hm)
    by_cases haccepts : (ranges.all fun r => c.accepts g n r) = true
    · have hencode := hsent haccepts bytes (by
        unfold finishGetn at hbytes
        rw [if_pos haccepts] at hbytes
        exact hbytes)
      rw [opTags_ops, opItems_ops, hall haccepts] at hencode
      exact hencode
    · unfold finishGetn at hbytes
      rw [if_neg haccepts] at hbytes
      cases hbytes

/-- Where a range is refused, nothing is sent. -/
theorem staysInside_refused (c : GetnCommand) (h : c.Asks num ranges msg) {n : Word}
    (hnum : c.replyNum g num = some n)
    (hrefused : ¬ (ranges.all fun r => c.accepts g n r) = true) :
    c.StaysInside g num ranges fpu msg ↔
      (16377 < tagWords (c.reserved ranges) ∨ -1 ≤ tagWords (c.reserved ranges)) ∧
        c.numTags g n ranges ≤ 65508 := by
  have haddress : addressWords c.address ≤ kBufSize := by
    rw [addressWords_address]
    decide
  have hinside := beginReply_inside_iff haddress (c.reserved ranges)
    (opTags_ne_zero g ranges n c)
  have hsize : kBufSize = 16379 := rfl
  have hmax : maxPacketSize = 65516 := rfl
  have hiff : c.StaysInside g num ranges fpu msg ↔ _ :=
    (staysInside_iff c h hnum).trans (forall_congr' fun stack =>
      and_iff_left fun haccepts => absurd haccepts hrefused)
  rw [hiff, hinside, length_opTags, addressWords_address]
  unfold firstWord
  rw [addressWords_address]
  split_ifs <;> omega

theorem staysInside_accepted (c : GetnCommand) (h : c.Asks num ranges msg) {n : Word}
    (hnum : c.replyNum g num = some n)
    (haccepts : (ranges.all fun r => c.accepts g n r) = true) :
    c.StaysInside g num ranges fpu msg ↔
      tagWords (c.reserved ranges) = (c.numTags g n ranges / 4 : ℕ) + 1 ∧
        2 + tagWords (c.reserved ranges) + c.numWords ranges ≤ 16379 := by
  have haddress : addressWords c.address ≤ kBufSize := by
    rw [addressWords_address]
    decide
  have hall : c.taken g n ranges = ranges := by
    unfold GetnCommand.taken
    exact List.takeWhile_eq_self_iff.mpr (List.all_eq_true.mp haccepts)
  have hcomplete := beginReply_complete_iff haddress (c.reserved ranges)
    (opTags_ne_zero g ranges n c)
  have hsize : kBufSize = 16379 := rfl
  have hwords : itemWords (opItems (c.ops g n ranges)) = c.numWords ranges := by
    rw [opItems_ops, hall, itemWords_items]
  rw [length_opTags, addressWords_address, hwords, hsize, Nat.cast_ofNat,
    Nat.cast_ofNat] at hcomplete
  rw [staysInside_iff c h hnum, ← hcomplete]
  constructor
  · intro hbuilt stack
    have hfirst := ((beginReply_inside_iff haddress _ (opTags_ne_zero g ranges n c)).mp
      fun stack => (hbuilt stack).1).1
    obtain ⟨bytes, hbytes⟩ := beginReply_sends haddress hfirst stack (c.ops g n ranges)
    refine ⟨(hbuilt stack).1, ?_⟩
    rw [hbytes, (hbuilt stack).2 haccepts bytes hbytes]
  · intro hcomplete stack
    refine ⟨(hcomplete stack).1, fun _ bytes hbytes => ?_⟩
    exact Option.some.inj (hbytes.symm.trans (hcomplete stack).2)

/-- Without a synth there is no reply. -/
theorem staysInside_of_none (c : GetnCommand) (h : c.Asks num ranges msg)
    (hnum : c.replyNum g num = none) : c.StaysInside g num ranges fpu msg := by
  intro stack
  cases c with
  | cGetn => cases hnum
  | bGetn => cases hnum
  | sGetn =>
    have hargs : msg.Ahead (.index num :: rangeArgs ranges) := h.args
    obtain ⟨it, hnode, -⟩ := hargs.msgGetNode fpu g.world
    have hgraph : (g.world.getNode num).filter (fun n => ¬ (g.world.mNode n).mIsGroup) = none :=
      hnum
    refine ⟨⟨.reset stack, none, .nodeNotFound⟩, 0, fun turns _ => ?_, fun _ _ => rfl, nofun⟩
    change methSGetn fpu turns stack g.world g.getControl msg = _
    unfold methSGetn
    rw [hnode]
    simp only [Option.bind_eq_bind, Option.bind_some, hgraph]
    rfl

end Commands

/-! ## Requests for control buses -/

/-- Two control buses. -/
def twoBuses : GetnWorld where
  bus := ⟨2#32, fun _ => 0#32⟩
  getBuf := fun _ => ⟨0#32, fun _ => 0#32⟩
  world := ⟨fun _ => ⟨[], false, none, none, none, none, none⟩, ∅, 0, 0#32, 0#32, []⟩
  getControl := fun _ _ _ => 0#32

/-- The iterator of `/c_getn` with one range. -/
def oneRange (start n : Word) : MsgIter where
  data := [chr ',', chr 'i', chr 'i', 0#8] ++ (OSCValue.beBytes start ++ OSCValue.beBytes n)
  size := 12
  rdpos := 4
  tags := some 1
  count := 0

theorem asks_oneRange (start n : Word) :
    GetnCommand.cGetn.Asks 0#32 [⟨.index start, n⟩] (oneRange start n) where
  args := .inl ⟨⟨1, rfl, OSCValue.beBytes start ++ OSCValue.beBytes n, rfl⟩,
    by show OSCValue.beBytes start ++ OSCValue.beBytes n = _; simp [keyData, rangeArgs,
        GetnCommand.args, GetnCommand.takesNum, GetRange.args, ArgKey.data], rfl,
    by show 4 ≤ 12; decide⟩
  count := rfl
  size := by show 12 < 2 ^ 31; decide
  index := fun _ r hr => ⟨start, by rw [List.mem_singleton.mp hr]⟩

end PoopWorms.Server
