import PoopWorms.Server.ControlHistory
import PoopWorms.Server.ReplyReader
import Mathlib.Data.Nat.Digits.Lemmas

/-!
# What `/g_queryTree` tells

The walk visits the nodes below a group in preorder, and each node adds its items with their tags.
A reply that has room for them is read back as the tree, with what is known of the controls
unless one of them is mapped to an audio bus, or to a bus whose index does not fit the text
buffer.
-/

namespace PoopWorms.Server

open Octets Osc ScPacket Forest LinkedList PreorderTrees

/-! ## Digits -/

theorem length_decimal_le {n k : ℕ} (hk : 0 < k) : (decimal n).length ≤ k ↔ n < 10 ^ k := by
  unfold decimal
  rw [List.length_map, List.length_reverse]
  split_ifs with h
  · rw [h, List.length_singleton]
    exact iff_of_true hk (Nat.pow_pos (by decide))
  · exact Nat.digits_length_le_iff (by decide) n

theorem decimal_ne_zero (n : ℕ) : ∀ b ∈ decimal n, b ≠ 0#8 := by
  intro b hb
  obtain ⟨d, hd, rfl⟩ := List.mem_map.mp hb
  have hlt : d < 10 := by
    rw [List.mem_reverse] at hd
    split_ifs at hd with h
    · rw [List.mem_singleton.mp hd]
      decide
    · exact Nat.digits_lt_base (by decide) hd
  intro hzero
  have hnat := congrArg BitVec.toNat hzero
  rw [BitVec.toNat_add, BitVec.toNat_ofNat, BitVec.toNat_ofNat, BitVec.toNat_ofNat] at hnat
  omega

theorem printInt_ofInt {n : ℕ} (hn : n < 2 ^ 31) : printInt (BitVec.ofInt 32 n) = decimal n := by
  have hint : (BitVec.ofInt 32 (n : ℤ)).toInt = n := by
    rw [BitVec.toInt_ofInt]
    exact Int.bmod_eq_of_le (by omega) (by omega)
  unfold printInt
  rw [hint, if_neg (by omega), Int.natAbs_natCast]

/-! ## The walk -/

namespace World

variable {w : World} {kids : NodeID → List NodeID} {all b l : List NodeID} {x g : NodeID}
  {α : Type}

/-- The walk visits the nodes below the roots of a forest in preorder. -/
theorem Tree.eachBelow_eq (h : Tree w kids) (hspans : Spans kids l b) {prev : Option NodeID}
    (hlinked : Linked (fun n => (w.mNode n).mPrev) (fun n => (w.mNode n).mNext) prev l none)
    (hlib : ∀ x ∈ b, x ∈ w.mNodeLib) (visit : NodeID → α → Option α) (fuel : ℕ)
    (hfuel : b.length < fuel) (a : α) :
    w.eachBelow visit fuel l.head? a = b.foldlM (fun a x => visit x a) a := by
  induction hspans generalizing prev fuel a with
  | nil =>
    cases fuel with
    | zero => simp at hfuel
    | succ fuel => rfl
  | @cons x xs below rest hbelow hrest ihbelow ihrest =>
    cases fuel with
    | zero => simp at hfuel
    | succ fuel =>
      rw [List.length_cons, List.length_append] at hfuel
      obtain ⟨-, hnext, hlinked'⟩ := hlinked
      have hnext' : (w.mNode x).mNext = xs.head? := by simpa using hnext
      have hrestlib : ∀ y ∈ rest, y ∈ w.mNodeLib := fun y hy => hlib y (by simp [hy])
      rw [List.head?_cons, eachBelow, List.foldlM_cons, hnext']
      refine bind_congr fun a => ?_
      rw [List.foldlM_append]
      cases hisGroup : (w.mNode x).mIsGroup with
      | true =>
        -- a group: its children stand before the siblings behind it
        have hhead := (h.ends x (hlib x List.mem_cons_self) hisGroup).1
        rw [if_pos rfl, hhead, ihbelow (h.linked x) (fun y hy => hlib y (by simp [hy])) fuel
          (by omega) a]
        exact bind_congr fun a => ihrest hlinked' hrestlib fuel (by omega) a
      | false =>
        -- a synth has nothing below it
        rw [h.kids_eq_nil_of_synth hisGroup] at hbelow
        cases hbelow
        rw [if_neg (by simp)]
        exact ihrest hlinked' hrestlib fuel (by omega) a

theorem Rooted.walk_eq (h : Rooted w kids all) (hg : g ∈ w.mNodeLib)
    (hgroup : (w.mNode g).mIsGroup) (hb : Spans kids (kids g) b) (visit : NodeID → α → Option α)
    (a : α) : w.walk visit g a = b.foldlM (fun a x => visit x a) a := by
  obtain ⟨b', hb', hnd, -⟩ := h.exists_below hg
  obtain rfl := hb.unique hb'
  have hlen := h.toTree.length_below_le hb hnd
  unfold walk
  rw [(h.ends g hg hgroup).1]
  exact h.toTree.eachBelow_eq hb (h.linked g) (fun x hx => (h.toTree.mem_of_below hb hx).1) visit
    _ (by omega) a

theorem countChildren_eq {prev : Option NodeID}
    (hlinked : Linked (fun n => (w.mNode n).mPrev) (fun n => (w.mNode n).mNext) prev l none)
    (fuel : ℕ) (hfuel : l.length < fuel) (count : Word) :
    w.countChildren fuel l.head? count = some (count + BitVec.ofNat 32 l.length) := by
  induction l generalizing prev fuel count with
  | nil =>
    cases fuel with
    | zero => simp at hfuel
    | succ fuel => simp [countChildren]
  | cons x xs ih =>
    cases fuel with
    | zero => simp at hfuel
    | succ fuel =>
      obtain ⟨-, hnext, hlinked'⟩ := hlinked
      have hnext' : (w.mNode x).mNext = xs.head? := by simpa using hnext
      have hsucc : BitVec.ofNat 32 (xs.length + 1) = 1#32 + BitVec.ofNat 32 xs.length := by
        rw [Nat.add_comm]
        exact BitVec.ofNat_add ..
      rw [List.length_cons] at hfuel
      rw [List.head?_cons, countChildren, hnext', ih hlinked' fuel (by omega), List.length_cons,
        hsucc, BitVec.add_assoc]

theorem Rooted.queryHead_eq (h : Rooted w kids all) (hg : g ∈ w.mNodeLib)
    (hgroup : (w.mNode g).mIsGroup) :
    w.queryHead g = some (SynthMemory.tagged (.int g) ++
      SynthMemory.tagged (.int (BitVec.ofNat 32 (kids g).length))) := by
  obtain ⟨b, hb, hnd, -⟩ := h.exists_below hg
  have hlen := h.toTree.length_below_le hb hnd
  obtain ⟨t, ht⟩ := Trees.exists_of_spans hb
  have hkids := ht.length_le
  rw [ht.spans.unique hb] at hkids
  unfold queryHead
  rw [(h.ends g hg hgroup).1, countChildren_eq (h.linked g) _ (by omega),
    BitVec.zero_add]
  rfl

/-! ## What is added -/

/-- The calls add the items of a node, each with its tag. -/
def Adds (withControls : Bool) (ops : List Op) (node : Reply.Reported × ℕ) : Prop :=
  opItems ops = Reply.nodeItems withControls node ∧ opTags ops = (opItems ops).map Item.tag

/-- Each node adds its items: then the walk adds all of them, in preorder. -/
theorem foldlM_queryChild {withControls : Bool} {synth : NodeID → Option (List Op)}
    {node : NodeID → Reply.Reported × ℕ}
    (hadds : ∀ x ∈ b, ∃ added, w.queryNode synth x = some added ∧
      Adds withControls added (node x)) (ops : List Op) :
    ∃ ops', b.foldlM (fun ops x => w.queryChild synth x ops) ops = some ops' ∧
      opItems ops' = opItems ops ++ (b.map node).flatMap (Reply.nodeItems withControls) ∧
      opTags ops' = opTags ops ++
        ((b.map node).flatMap (Reply.nodeItems withControls)).map Item.tag := by
  induction b generalizing ops with
  | nil => exact ⟨ops, rfl, (List.append_nil _).symm, (List.append_nil _).symm⟩
  | cons x xs ih =>
    obtain ⟨added, hadded, hitems, htags⟩ := hadds x List.mem_cons_self
    have hvisit : w.queryChild synth x ops = some (ops ++ added) := by
      unfold queryChild
      rw [hadded]
      rfl
    obtain ⟨ops', hfold, hitems', htags'⟩ :=
      ih (fun y hy => hadds y (List.mem_cons_of_mem _ hy)) (ops ++ added)
    refine ⟨ops', ?_, ?_, ?_⟩
    · rw [List.foldlM_cons, hvisit]
      exact hfold
    · rw [hitems', opItems_append, hitems, List.map_cons, List.flatMap_cons, List.append_assoc]
    · rw [htags', opTags_append, htags, hitems, List.map_cons, List.flatMap_cons,
        List.map_append, List.append_assoc]

/-- A node that adds nothing ends the walk without a result. -/
theorem foldlM_queryChild_none {synth : NodeID → Option (List Op)} (hx : x ∈ b)
    (hnone : w.queryNode synth x = none) (ops : List Op) :
    b.foldlM (fun ops x => w.queryChild synth x ops) ops = none := by
  induction b generalizing ops with
  | nil => exact absurd hx List.not_mem_nil
  | cons y ys ih =>
    rw [List.foldlM_cons]
    rcases List.mem_cons.mp hx with rfl | hx
    · unfold queryChild
      rw [hnone]
      rfl
    · cases hvisit : w.queryChild synth y ops with
      | none => rfl
      | some ops' => exact ih hx ops'

/-- A count that grows by the number of items of each node. -/
theorem foldlM_count {β : Type} (visit : NodeID → β → β) (measure : β → Word)
    (items : NodeID → List Item)
    (hstep : ∀ x ∈ b, ∀ a, measure (visit x a) = measure a + BitVec.ofNat 32 (items x).length)
    (a : β) :
    ∃ a', b.foldlM (fun a x => some (visit x a)) a = some a' ∧
      measure a' = measure a + BitVec.ofNat 32 (b.flatMap items).length := by
  induction b generalizing a with
  | nil => exact ⟨a, rfl, (BitVec.add_zero _).symm⟩
  | cons x xs ih =>
    obtain ⟨a', hfold, hmeasure⟩ :=
      ih (fun y hy => hstep y (List.mem_cons_of_mem _ hy)) (visit x a)
    refine ⟨a', hfold, ?_⟩
    rw [hmeasure, hstep x List.mem_cons_self, List.flatMap_cons, List.length_append,
      BitVec.ofNat_add, BitVec.add_assoc]

end World

/-! ## The controls of a synth -/

namespace SynthMemory

variable {m : SynthMemory} {world : ControlWorld} {s : NodeID} {i : ℕ} {state : ControlState}

/-- The name of the last parameter that begins at a control. -/
def nameAt (specs : List ParamSpec) (i : ℕ) : Option (List Byte) :=
  (specs.reverse.find? fun spec => spec.mIndex = i).map ParamSpec.mName

theorem stashNames_eq {specs : List ParamSpec} {numControls : ℕ}
    (h : ∀ spec ∈ specs, spec.mIndex < numControls) :
    stashNames specs numControls = some (nameAt specs) := by
  induction specs using List.reverseRecOn with
  | nil => rfl
  | append_singleton specs spec ih =>
    have hspecs := ih fun spec hspec => h spec (List.mem_append_left _ hspec)
    have hspec := h spec (List.mem_append_right _ List.mem_cons_self)
    unfold stashNames at hspecs ⊢
    simp only [List.foldlM_append, hspecs, List.foldlM_cons, List.foldlM_nil,
      Option.bind_eq_bind, Option.bind_some, if_pos hspec]
    show some _ = some _
    congr 1
    funext i
    unfold nameAt
    rw [List.reverse_append, List.reverse_singleton, List.singleton_append]
    by_cases hi : i = spec.mIndex
    · rw [hi, Function.update_self, List.find?_cons_of_pos (by simp)]
      rfl
    · rw [Function.update_of_ne hi, List.find?_cons_of_neg (by simpa using Ne.symm hi)]

end SynthMemory

/-- The query can tell it: it is not mapped to an audio bus, and the index of the control bus has
at most eight digits. -/
def ControlState.Told (state : ControlState) : Prop :=
  ∀ bus, state.bus = some bus → ∃ b < 10 ^ 8, bus = .control b

namespace SynthMemory

variable {m : SynthMemory} {world : ControlWorld} {s : NodeID} {i : ℕ} {state : ControlState}

theorem queryValue_mapped (hne : (m.graphs s).mMapControls i ≠ .control i) :
    m.queryValue s i =
      if (printInt (BitVec.ofInt 32 (m.place s ((m.graphs s).mMapControls i)))).length < 9 then
        some (.string (chr 'c' ::
          printInt (BitVec.ofInt 32 (m.place s ((m.graphs s).mMapControls i)))))
      else none := by
  unfold queryValue
  simp only [if_pos hne, List.length_cons]
  exact if_congr (by omega) rfl rfl

/-- The query reports a control as it is exactly if it can tell it. -/
theorem queryValue_iff (h : (m.graphs s).Shows world i state) :
    m.queryValue s i = some state.report ↔ state.Told := by
  obtain ⟨value, bus⟩ := state
  cases bus with
  | none =>
    refine iff_of_true ?_ nofun
    unfold queryValue
    have hsource : (m.graphs s).mMapControls i = .control i := h.source
    have hvalue : (m.graphs s).mControls i = value := h.value
    simp only [hsource, ne_eq, not_true_eq_false, if_false, hvalue]
    rfl
  | some bus =>
    cases bus with
    | control b =>
      have hsource : (m.graphs s).mMapControls i = .controlBus b := h.source
      have hprint : printInt (BitVec.ofInt 32 (m.place s (.controlBus b))) = decimal b :=
        printInt_ofInt (h.inside b rfl)
      have hlen : (decimal b).length < 9 ↔ b < 10 ^ 8 := by
        rw [Nat.lt_succ_iff]
        exact length_decimal_le (by decide)
      have htold : ControlState.Told ⟨value, some (.control b)⟩ ↔ b < 10 ^ 8 := by
        constructor
        · intro hall
          obtain ⟨b', hb', hsame⟩ := hall _ rfl
          rwa [MappedBus.control.inj hsame]
        · intro hb bus hbus
          exact ⟨b, hb, (Option.some.inj hbus).symm⟩
      rw [queryValue_mapped (by rw [hsource]; exact nofun), hsource, hprint, htold, ← hlen]
      show (if (decimal b).length < 9 then some (Item.string (chr 'c' :: decimal b)) else none) =
        some (Item.string (chr 'c' :: decimal b)) ↔ _
      constructor
      · intro hsome
        by_contra hlong
        rw [if_neg hlong] at hsome
        exact absurd hsome nofun
      · exact fun hshort => if_pos hshort
    | audio b =>
      have hsource : (m.graphs s).mMapControls i = .audioBus (b * world.mBufLength) := h.source
      refine iff_of_false ?_ ?_
      · -- the text begins with `c`
        rw [queryValue_mapped (by rw [hsource]; exact nofun)]
        split_ifs
        · intro hsame
          have hchars := Item.string.inj (Option.some.inj hsame)
          exact absurd (List.cons.inj hchars).1 (by decide)
        · exact nofun
      · intro hall
        obtain ⟨b', -, hsame⟩ := hall _ rfl
        exact absurd hsame nofun

/-- The dump reports as it is what the query can tell. -/
theorem dumpValue_eq (h : (m.graphs s).Shows world i state) (htold : state.Told)
    (quotient : Word → ℕ → Word) : m.dumpValue quotient s i = state.report := by
  obtain ⟨value, bus⟩ := state
  unfold dumpValue
  cases bus with
  | none =>
    have hsource : (m.graphs s).mMapControls i = .control i := h.source
    have hvalue : (m.graphs s).mControls i = value := h.value
    simp only [hsource, ne_eq, not_true_eq_false, if_false, hvalue]
    rfl
  | some bus =>
    obtain ⟨b, -, rfl⟩ := htold bus rfl
    have hsource : (m.graphs s).mMapControls i = .controlBus b := h.source
    have hrate : (m.graphs s).mControlRates i = 1 := h.rate
    have hprint : printInt (BitVec.ofInt 32 (m.place s (.controlBus b))) = decimal b :=
      printInt_ofInt (h.inside b rfl)
    have hne : ControlSource.controlBus b ≠ .control i := nofun
    simp only [hsource, hrate, hprint, if_pos hne]
    rfl

end SynthMemory

/-! ## What a node adds -/

theorem mapM_eq_some_map {α β : Type} {f : α → Option β} {g : α → β} {l : List α}
    (h : ∀ x ∈ l, f x = some (g x)) : l.mapM f = some (l.map g) := by
  induction l with
  | nil => rfl
  | cons x xs ih =>
    rw [List.mapM_cons, h x List.mem_cons_self, ih fun y hy => h y (List.mem_cons_of_mem _ hy)]
    rfl

theorem mapM_eq_none {α β : Type} {f : α → Option β} {l : List α} {x : α} (hx : x ∈ l)
    (h : f x = none) : l.mapM f = none := by
  induction l with
  | nil => exact absurd hx List.not_mem_nil
  | cons y ys ih =>
    rw [List.mapM_cons]
    rcases List.mem_cons.mp hx with rfl | hx
    · rw [h]
      rfl
    · rw [ih hx]
      cases f y <;> rfl

namespace World

open SynthMemory Reply

variable (w : World) (m : SynthMemory)

/-- What is told of a node, with `value` for the values of its controls. -/
def nodeReport (withControls : Bool) (value : NodeID → ℕ → Item) (x : NodeID) : Reported :=
  if (w.mNode x).mIsGroup then .group x
  else .synth x (cString (w.mNode x).mDef)
    (if withControls then (List.range (m.graphs x).mNumControls).map fun i =>
      (queryName (nameAt (m.mParamSpecs x)) i, value x i) else [])

variable {w m} {kids : NodeID → List NodeID} {all b : List NodeID} {x group : NodeID}
  {t : Trees NodeID} {value : NodeID → ℕ → Item}

theorem opItems_tagged (x : Item) : opItems (tagged x) = [x] := rfl

theorem opTags_tagged (x : Item) : opTags (tagged x) = [x.tag] := rfl

theorem adds_group (hgroup : (w.mNode x).mIsGroup) (withControls : Bool) (n : ℕ) :
    Adds withControls (tagged (.int x) ++ tagged (.int (BitVec.ofNat 32 n)))
      (w.nodeReport m withControls value x, n) := by
  unfold nodeReport
  rw [if_pos hgroup]
  exact ⟨rfl, rfl⟩

theorem adds_synth (hsynth : (w.mNode x).mIsGroup = false) :
    Adds false (w.querySynth x) (w.nodeReport m false value x, 0) := by
  unfold nodeReport
  rw [if_neg (by simp [hsynth])]
  exact ⟨rfl, rfl⟩

theorem opItems_controls (names : ℕ → Item) (values : ℕ → Item) (l : List ℕ) :
    opItems (l.map fun i => tagged (names i) ++ tagged (values i)).flatten =
      (l.map fun i => (names i, values i)).flatMap fun c => [c.1, c.2] := by
  induction l with
  | nil => rfl
  | cons i l ih =>
    rw [List.map_cons, List.flatten_cons, opItems_append, ih]
    rfl

theorem opTags_controls (names : ℕ → Item) (values : ℕ → Item) (l : List ℕ) :
    opTags (l.map fun i => tagged (names i) ++ tagged (values i)).flatten =
      (opItems (l.map fun i => tagged (names i) ++ tagged (values i)).flatten).map Item.tag := by
  induction l with
  | nil => rfl
  | cons i l ih =>
    rw [List.map_cons, List.flatten_cons, opTags_append, opItems_append, ih, List.map_append]
    rfl

theorem adds_synthAndControls (hsynth : (w.mNode x).mIsGroup = false)
    (hspecs : ∀ spec ∈ m.mParamSpecs x, spec.mIndex < (m.graphs x).mNumControls)
    (hvalues : ∀ i < (m.graphs x).mNumControls, m.queryValue x i = some (value x i)) :
    ∃ ops, w.querySynthAndControls m x = some ops ∧
      Adds true ops (w.nodeReport m true value x, 0) := by
  have hcontrols : (List.range (m.graphs x).mNumControls).mapM
      (m.queryControl x (nameAt (m.mParamSpecs x))) =
      some ((List.range (m.graphs x).mNumControls).map fun i =>
        tagged (queryName (nameAt (m.mParamSpecs x)) i) ++ tagged (value x i)) := by
    refine mapM_eq_some_map fun i hi => ?_
    unfold queryControl
    rw [hvalues i (List.mem_range.mp hi)]
    rfl
  refine ⟨w.querySynth x ++ tagged (.int (BitVec.ofNat 32 (m.graphs x).mNumControls)) ++
    ((List.range (m.graphs x).mNumControls).map fun i =>
      tagged (queryName (nameAt (m.mParamSpecs x)) i) ++ tagged (value x i)).flatten, ?_, ?_, ?_⟩
  · unfold querySynthAndControls
    simp only [stashNames_eq hspecs, hcontrols, Option.bind_eq_bind, Option.bind_some]
    rfl
  · rw [opItems_append, opItems_append, opItems_controls]
    unfold nodeReport nodeItems
    simp only [hsynth, Bool.false_eq_true, if_false, if_true, List.length_map, List.length_range]
    rfl
  · rw [opTags_append, opTags_append, opTags_controls, opItems_append, opItems_append,
      List.map_append, List.map_append]
    rfl

theorem querySynthAndControls_none {i : ℕ} (hi : i < (m.graphs x).mNumControls)
    (hnone : m.queryValue x i = none) : w.querySynthAndControls m x = none := by
  unfold querySynthAndControls
  cases hnames : stashNames (m.mParamSpecs x) (m.graphs x).mNumControls with
  | none => simp [hnames]
  | some names =>
    have hcontrol : m.queryControl x names i = none := by
      unfold queryControl
      rw [hnone]
      rfl
    simp [hnames, mapM_eq_none (List.mem_range.mpr hi) hcontrol]

theorem length_nodeItems_group (hgroup : (w.mNode x).mIsGroup) (withControls : Bool) (n : ℕ) :
    (nodeItems withControls (w.nodeReport m withControls value x, n)).length = 2 := by
  unfold nodeReport
  rw [if_pos hgroup]
  rfl

theorem length_nodeItems_synth (hsynth : (w.mNode x).mIsGroup = false) (withControls : Bool)
    (n : ℕ) : (nodeItems withControls (w.nodeReport m withControls value x, n)).length =
      if withControls then 4 + 2 * (m.graphs x).mNumControls else 3 := by
  unfold nodeReport
  rw [if_neg (by simp [hsynth])]
  cases withControls with
  | true =>
    simp only [nodeItems, if_true, List.length_append, List.length_cons, length_controls,
      List.length_map, List.length_range, List.length_nil]
    omega
  | false => rfl

/-! ## A group and all below it -/

/-- The nodes of a tree, each with what is told of it and the number of its children. -/
theorem spell_map_of {l : List NodeID} (ht : t.Of kids l) (report : NodeID → Reported) :
    (t.map report).spell = t.nodes.map fun x => (report x, (kids x).length) := by
  rw [Trees.spell_map, ht.spell_eq, List.map_map]
  rfl

/-- The group's own calls, and then those of all below it. -/
theorem Rooted.query_eq (h : Rooted w kids all) (hg : group ∈ w.mNodeLib)
    (hgroup : (w.mNode group).mIsGroup) (ht : t.Of kids [group]) {withControls : Bool}
    {synth : NodeID → Option (List Op)}
    (hadds : ∀ x ∈ t.nodes, ∃ added, w.queryNode synth x = some added ∧
      Adds withControls added (w.nodeReport m withControls value x, (kids x).length)) :
    ∃ head ops, w.queryHead group = some head ∧ w.walk (w.queryChild synth) group head = some ops ∧
      opItems ops = (t.map (w.nodeReport m withControls value)).spell.flatMap
        (nodeItems withControls) ∧
      opTags ops = (opItems ops).map Item.tag := by
  rw [spell_map_of ht]
  cases ht with
  | @node _ _ below behind hbelow hbehind =>
    cases hbehind
    rw [Trees.nodes, Trees.nodes, List.append_nil] at hadds ⊢
    have hhead := h.queryHead_eq hg hgroup
    obtain ⟨ops, hfold, hitems, htags⟩ :=
      foldlM_queryChild (fun x hx => hadds x (List.mem_cons_of_mem _ hx))
        (tagged (.int group) ++ tagged (.int (BitVec.ofNat 32 (kids group).length)))
    have hadds : Adds withControls
        (tagged (.int group) ++ tagged (.int (BitVec.ofNat 32 (kids group).length)))
        (w.nodeReport m withControls value group, (kids group).length) := adds_group hgroup ..
    obtain ⟨hfirst, hfirst'⟩ := hadds
    refine ⟨_, ops, hhead, ?_, ?_, ?_⟩
    · rw [h.walk_eq hg hgroup hbelow.spans]
      exact hfold
    · rw [hitems, hfirst, List.map_cons, List.flatMap_cons]
    · rw [htags, hitems, hfirst', List.map_append]

/-- A node about which nothing can be told ends the query without a result. -/
theorem Rooted.query_none (h : Rooted w kids all) (hg : group ∈ w.mNodeLib)
    (hgroup : (w.mNode group).mIsGroup) (ht : t.Of kids [group])
    {synth : NodeID → Option (List Op)} (hx : x ∈ t.nodes) (hsynth : (w.mNode x).mIsGroup = false)
    (hnone : synth x = none) (head : List Op) :
    w.walk (w.queryChild synth) group head = none := by
  cases ht with
  | @node _ _ below behind hbelow hbehind =>
    cases hbehind
    rw [Trees.nodes, Trees.nodes, List.append_nil] at hx
    rw [h.walk_eq hg hgroup hbelow.spans]
    rcases List.mem_cons.mp hx with rfl | hx
    · rw [hgroup] at hsynth
      exact absurd hsynth (by simp)
    · apply foldlM_queryChild_none hx
      unfold queryNode
      rw [if_neg (by simp [hsynth]), hnone]

/-- The items of the nodes below the group, besides those of the group itself. -/
theorem length_spell_items (ht : t.Of kids [group]) (hgroup : (w.mNode group).mIsGroup)
    (m : SynthMemory) (withControls : Bool) (value : NodeID → ℕ → Item) :
    ∃ below : Trees NodeID, below.Of kids (kids group) ∧
      (∀ x ∈ below.nodes, x ∈ t.nodes) ∧
      ((t.map (w.nodeReport m withControls value)).spell.flatMap
        (nodeItems withControls)).length = 2 + (below.nodes.flatMap fun x =>
          nodeItems withControls
            (w.nodeReport m withControls value x, (kids x).length)).length := by
  have hspell := spell_map_of ht (w.nodeReport m withControls value)
  cases ht with
  | @node _ _ below behind hbelow hbehind =>
    cases hbehind
    refine ⟨below, hbelow, fun x hx => ?_, ?_⟩
    · rw [Trees.nodes, List.mem_cons, List.mem_append]
      exact .inr (.inl hx)
    · rw [hspell, Trees.nodes, Trees.nodes, List.append_nil, List.map_cons, List.flatMap_cons,
        List.length_append, length_nodeItems_group hgroup, List.flatMap_map]

theorem Rooted.countNodeTags_eq (h : Rooted w kids all) (hg : group ∈ w.mNodeLib)
    (hgroup : (w.mNode group).mIsGroup) (ht : t.Of kids [group]) :
    w.groupCountNodeTags group 2#32 = some (BitVec.ofNat 32
      ((t.map (w.nodeReport m false value)).spell.flatMap (nodeItems false)).length) := by
  obtain ⟨below, hbelow, -, hlen⟩ := length_spell_items ht hgroup m false value
  unfold groupCountNodeTags
  rw [h.walk_eq hg hgroup hbelow.spans]
  have hstep : ∀ x ∈ below.nodes, ∀ count : Word,
      w.countNodeTags x count = count + BitVec.ofNat 32
        (nodeItems false (w.nodeReport m false value x, (kids x).length)).length := by
    intro x _ count
    unfold countNodeTags
    cases hisGroup : (w.mNode x).mIsGroup with
    | true => simp [length_nodeItems_group hisGroup]
    | false =>
      rw [length_nodeItems_synth hisGroup]
      simp [BitVec.add_assoc]
  obtain ⟨count, hfold, hcount⟩ := foldlM_count w.countNodeTags id
    (fun x => nodeItems false (w.nodeReport m false value x, (kids x).length)) hstep 2#32
  rw [hfold, hlen, BitVec.ofNat_add]
  exact congrArg some hcount

theorem Rooted.countNodeAndControlTags_eq (h : Rooted w kids all) (hg : group ∈ w.mNodeLib)
    (hgroup : (w.mNode group).mIsGroup) (ht : t.Of kids [group]) (m : SynthMemory)
    (value : NodeID → ℕ → Item) :
    ∃ numNodes numControlsAndDefs,
      w.groupCountNodeAndControlTags m.graphs group (1#32, 0#32) =
        some (numNodes, numControlsAndDefs) ∧
      numNodes * 2#32 + numControlsAndDefs = BitVec.ofNat 32
        ((t.map (w.nodeReport m true value)).spell.flatMap (nodeItems true)).length := by
  obtain ⟨below, hbelow, -, hlen⟩ := length_spell_items ht hgroup m true value
  unfold groupCountNodeAndControlTags
  rw [h.walk_eq hg hgroup hbelow.spans]
  have hstep : ∀ x ∈ below.nodes, ∀ counts : Word × Word,
      (w.countNodeAndControlTags m.graphs x counts).1 * 2#32 +
        (w.countNodeAndControlTags m.graphs x counts).2 =
      counts.1 * 2#32 + counts.2 + BitVec.ofNat 32
        (nodeItems true (w.nodeReport m true value x, (kids x).length)).length := by
    intro x _ counts
    unfold countNodeAndControlTags
    cases hisGroup : (w.mNode x).mIsGroup with
    | true =>
      simp only [length_nodeItems_group hisGroup, if_true]
      bv_omega
    | false =>
      simp only [length_nodeItems_synth hisGroup, Bool.false_eq_true, if_false, if_true]
      bv_omega
  obtain ⟨counts, hfold, hcounts⟩ := foldlM_count (w.countNodeAndControlTags m.graphs)
    (fun counts => counts.1 * 2#32 + counts.2)
    (fun x => nodeItems true (w.nodeReport m true value x, (kids x).length)) hstep (1#32, 0#32)
  refine ⟨counts.1, counts.2, hfold, ?_⟩
  rw [hlen, BitVec.ofNat_add, hcounts]
  rfl

/-! ## A whole reply -/

/-- All controls of the tree have a value that the query can tell. -/
def Values (w : World) (m : SynthMemory) (nodes : List NodeID) (value : NodeID → ℕ → Item) :
    Prop :=
  ∀ x ∈ nodes, (w.mNode x).mIsGroup = false →
    ∀ i < (m.graphs x).mNumControls, m.queryValue x i = some (value x i)

/-- The parameters of a definition begin at controls that its synths have. -/
def WellNamed (w : World) (m : SynthMemory) : Prop :=
  ∀ x ∈ w.mNodeLib, (w.mNode x).mIsGroup = false →
    ∀ spec ∈ m.mParamSpecs x, spec.mIndex < (m.graphs x).mNumControls

/-- The calls behind `maketags`: the tags begin with a comma, the items with the flag. -/
def flagged (i : Word) (ops : List Op) : List Op :=
  .tag (chr ',') :: .tag (chr 'i') :: .item (.int i) :: ops

theorem opItems_flagged (i : Word) (ops : List Op) :
    opItems (flagged i ops) = .int i :: opItems ops := rfl

theorem opTags_flagged {ops : List Op} (h : opTags ops = (opItems ops).map Item.tag) (i : Word) :
    opTags (flagged i ops) = chr ',' :: (opItems (flagged i ops)).map Item.tag := by
  unfold flagged
  simp only [opTags_cons_tag, opTags_cons_item, opItems_cons_tag, opItems_cons_item, h]
  rfl

theorem length_opTags_flagged (i : Word) (ops : List Op) :
    BitVec.ofNat 32 (opTags (flagged i ops)).length =
      BitVec.ofNat 32 (opTags ops).length + 2#32 := by
  unfold flagged
  simp only [opTags_cons_tag, opTags_cons_item, List.length_cons]
  bv_omega

theorem mem_nodes (h : Rooted w kids all) (hg : group ∈ w.mNodeLib) (ht : t.Of kids [group])
    (hx : x ∈ t.nodes) : x ∈ w.mNodeLib := by
  obtain ⟨b, hb, hspans⟩ := ht.spans.eq_of_singleton
  rw [hb] at hx
  rcases List.mem_cons.mp hx with rfl | hx
  · exact hg
  · exact (h.toTree.mem_of_below hspans hx).1

/-- The calls of the nodes, without controls. -/
theorem Rooted.groupQueryTree_eq (h : Rooted w kids all) (hg : group ∈ w.mNodeLib)
    (hgroup : (w.mNode group).mIsGroup) (ht : t.Of kids [group]) (m : SynthMemory)
    (value : NodeID → ℕ → Item) :
    ∃ ops, w.groupQueryTree group = some ops ∧
      opItems ops = (t.map (w.nodeReport m false value)).spell.flatMap (nodeItems false) ∧
      opTags ops = (opItems ops).map Item.tag := by
  have hadds : ∀ x ∈ t.nodes, ∃ added,
      w.queryNode (fun child => some (w.querySynth child)) x = some added ∧
        Adds false added (w.nodeReport m false value x, (kids x).length) := by
    intro x hx
    unfold queryNode
    cases hisGroup : (w.mNode x).mIsGroup with
    | true =>
      rw [if_pos rfl]
      exact ⟨_, h.queryHead_eq (mem_nodes h hg ht hx) hisGroup, adds_group hisGroup ..⟩
    | false =>
      rw [if_neg (by simp), h.toTree.kids_eq_nil_of_synth hisGroup]
      exact ⟨_, rfl, adds_synth hisGroup⟩
  obtain ⟨head, ops, hhead, hwalk, hitems, htags⟩ := h.query_eq hg hgroup ht hadds
  refine ⟨ops, ?_, hitems, htags⟩
  unfold groupQueryTree
  rw [hhead]
  exact hwalk

/-- The calls of the nodes, with a value for each control. -/
theorem Rooted.groupQueryTreeAndControls_eq (h : Rooted w kids all) (hg : group ∈ w.mNodeLib)
    (hgroup : (w.mNode group).mIsGroup) (ht : t.Of kids [group]) (hnamed : WellNamed w m)
    (hvalues : Values w m t.nodes value) :
    ∃ ops, w.groupQueryTreeAndControls m group = some ops ∧
      opItems ops = (t.map (w.nodeReport m true value)).spell.flatMap (nodeItems true) ∧
      opTags ops = (opItems ops).map Item.tag := by
  have hadds : ∀ x ∈ t.nodes, ∃ added,
      w.queryNode (w.querySynthAndControls m) x = some added ∧
        Adds true added (w.nodeReport m true value x, (kids x).length) := by
    intro x hx
    unfold queryNode
    cases hisGroup : (w.mNode x).mIsGroup with
    | true =>
      rw [if_pos rfl]
      exact ⟨_, h.queryHead_eq (mem_nodes h hg ht hx) hisGroup, adds_group hisGroup ..⟩
    | false =>
      rw [if_neg (by simp), h.toTree.kids_eq_nil_of_synth hisGroup]
      exact adds_synthAndControls hisGroup (hnamed x (mem_nodes h hg ht hx) hisGroup)
        (hvalues x hx hisGroup)
  obtain ⟨head, ops, hhead, hwalk, hitems, htags⟩ := h.query_eq hg hgroup ht hadds
  refine ⟨ops, ?_, hitems, htags⟩
  unfold groupQueryTreeAndControls
  rw [hhead]
  exact hwalk

/-- Without a value for one of the controls there are none. -/
theorem Rooted.groupQueryTreeAndControls_none (h : Rooted w kids all) (hg : group ∈ w.mNodeLib)
    (hgroup : (w.mNode group).mIsGroup) (ht : t.Of kids [group]) (hx : x ∈ t.nodes)
    (hsynth : (w.mNode x).mIsGroup = false) {i : ℕ} (hi : i < (m.graphs x).mNumControls)
    (hnone : m.queryValue x i = none) : w.groupQueryTreeAndControls m group = none := by
  unfold groupQueryTreeAndControls
  rw [h.queryHead_eq hg hgroup]
  exact h.query_none hg hgroup ht hx hsynth (querySynthAndControls_none hi hnone) _

/-- The calls for a group: the tags are those of the items, and as many as have been counted. -/
theorem Rooted.queryTreeCalls_eq (h : Rooted w kids all) (hg : group ∈ w.mNodeLib)
    (hgroup : (w.mNode group).mIsGroup) (ht : t.Of kids [group]) (hnamed : WellNamed w m)
    (flag : Word) (hvalues : flag ≠ 0#32 → Values w m t.nodes value) :
    ∃ ops, w.queryTreeCalls m group flag =
        some (BitVec.ofNat 32 (opTags ops).length, ops) ∧
      opItems ops = .int (if flag ≠ 0#32 then 1#32 else 0#32) ::
        (t.map (w.nodeReport m (flag ≠ 0#32) value)).spell.flatMap (nodeItems (flag ≠ 0#32)) ∧
      opTags ops = chr ',' :: (opItems ops).map Item.tag := by
  by_cases hflag : flag = 0#32
  · subst hflag
    obtain ⟨ops, hquery, hitems, htags⟩ := h.groupQueryTree_eq hg hgroup ht m value
    have hcount : w.groupCountNodeTags group 2#32 =
        some (BitVec.ofNat 32 (opTags ops).length) := by
      rw [htags, List.length_map, hitems]
      exact h.countNodeTags_eq hg hgroup ht
    refine ⟨flagged 0#32 ops, ?_, ?_, opTags_flagged htags _⟩
    · unfold queryTreeCalls
      rw [length_opTags_flagged]
      simp only [ne_eq, not_true_eq_false, if_false, hcount, hquery, Option.bind_eq_bind,
        Option.bind_some]
      rfl
    · rw [opItems_flagged, hitems]
      simp
  · obtain ⟨ops, hquery, hitems, htags⟩ :=
      h.groupQueryTreeAndControls_eq hg hgroup ht hnamed (hvalues hflag)
    obtain ⟨numNodes, numControlsAndDefs, hcount, hsum⟩ :=
      h.countNodeAndControlTags_eq hg hgroup ht m value
    rw [← hitems, ← List.length_map Item.tag, ← htags] at hsum
    refine ⟨flagged 1#32 ops, ?_, ?_, opTags_flagged htags _⟩
    · unfold queryTreeCalls
      rw [length_opTags_flagged, ← hsum]
      simp only [ne_eq, hflag, not_false_eq_true, if_true, hcount, hquery, Option.bind_eq_bind,
        Option.bind_some]
      rfl
    · rw [opItems_flagged, hitems]
      simp [hflag]

/-- Without a value for one of the controls there is no reply. -/
theorem Rooted.queryTreeCalls_none (h : Rooted w kids all) (hg : group ∈ w.mNodeLib)
    (hgroup : (w.mNode group).mIsGroup) (ht : t.Of kids [group]) {flag : Word}
    (hflag : flag ≠ 0#32) (hx : x ∈ t.nodes) (hsynth : (w.mNode x).mIsGroup = false) {i : ℕ}
    (hi : i < (m.graphs x).mNumControls) (hnone : m.queryValue x i = none) :
    w.queryTreeCalls m group flag = none := by
  have hquery := h.groupQueryTreeAndControls_none hg hgroup ht hx hsynth hi hnone
  unfold queryTreeCalls
  simp only [ne_eq, hflag, not_false_eq_true, if_true, hquery, Option.bind_eq_bind,
    Option.bind_none]
  cases w.groupCountNodeAndControlTags m.graphs group (1#32, 0#32) <;> rfl

/-! ## What is read back -/

theorem cString_ne_zero (name : List Byte) : ∀ b ∈ cString name, b ≠ 0#8 := by
  intro b hb
  simpa using List.mem_takeWhile_imp hb

theorem printInt_ne_zero (i : Word) : ∀ b ∈ printInt i, b ≠ 0#8 := by
  unfold printInt
  split_ifs
  · intro b hb
    rcases List.mem_cons.mp hb with rfl | hb
    · decide
    · exact decimal_ne_zero _ b hb
  · exact decimal_ne_zero _

/-- A text that the query adds for a control is a C string. -/
theorem queryValue_ne_zero {i : ℕ} {s : List Byte} (h : m.queryValue x i = some (.string s)) :
    ∀ b ∈ s, b ≠ 0#8 := by
  simp only [queryValue] at h
  split_ifs at h
  · have hsame := Item.string.inj (Option.some.inj h)
    rw [← hsame]
    intro b hb
    rcases List.mem_cons.mp hb with rfl | hb
    · decide
    · exact printInt_ne_zero _ b hb
  · exact absurd (Option.some.inj h) nofun

theorem plain_nodeItems {withControls : Bool}
    (hvalue : withControls = true → (w.mNode x).mIsGroup = false →
      ∀ i < (m.graphs x).mNumControls, ∀ s, value x i = .string s → ∀ b ∈ s, b ≠ 0#8) (n : ℕ) :
    Plain (nodeItems withControls (w.nodeReport m withControls value x, n)) := by
  intro s hs b hb
  unfold nodeReport at hs
  cases hisGroup : (w.mNode x).mIsGroup with
  | true => simp [hisGroup, nodeItems] at hs
  | false =>
    simp only [hisGroup, Bool.false_eq_true, if_false, nodeItems, List.cons_append,
      List.nil_append, List.mem_cons, reduceCtorEq, false_or] at hs
    rcases hs with hname | hs
    · rw [Item.string.inj hname] at hb
      exact cString_ne_zero _ b hb
    · cases withControls with
      | false => simp at hs
      | true =>
        simp only [if_true, List.mem_cons, reduceCtorEq, false_or, List.mem_flatMap,
          List.mem_map, List.mem_range] at hs
        obtain ⟨c, ⟨i, hi, rfl⟩, hc⟩ := hs
        simp only [List.not_mem_nil, or_false] at hc
        rcases hc with hname | hvalue'
        · unfold queryName at hname
          split at hname
          · rw [Item.string.inj hname] at hb
            exact cString_ne_zero _ b hb
          · cases hname
        · exact hvalue rfl hisGroup i hi s hvalue'.symm b hb

def queryTreeAddress : List Byte := (CString.ofString "/g_queryTree.reply").bytes

/-- The packet has room for the address, the tags and the items. -/
def Fits (ops : List Op) : Prop :=
  addressWords queryTreeAddress + ((opTags ops).length / 4 + 1) + itemWords (opItems ops) ≤ kBufSize

instance (ops : List Op) : Decidable (Fits ops) := inferInstanceAs (Decidable (_ ≤ kBufSize))

theorem toInt_ofNat {n : ℕ} (hn : n < 2 ^ 31) : (BitVec.ofNat 32 n).toInt = n := by
  have hnat : (BitVec.ofNat 32 n).toNat = n := Nat.mod_eq_of_lt (by omega)
  rw [BitVec.toInt_eq_toNat_of_lt (by rw [hnat]; omega), hnat]

/-- The words for the tags and the NUL behind them. -/
theorem tagWords_ofNat {n : ℕ} (hn : n < 2 ^ 31 - 4) :
    tagWords (BitVec.ofNat 32 n) = (n / 4 : ℕ) + 1 := by
  have hsum : BitVec.ofNat 32 n + 4#32 = BitVec.ofNat 32 (n + 4) := (BitVec.ofNat_add ..).symm
  unfold tagWords
  rw [hsum, BitVec.toInt_sshiftRight, toInt_ofNat (by omega), Int.shiftRight_eq_div_pow]
  omega

theorem length_le_itemWords (items : List Item) : items.length ≤ itemWords items := by
  induction items with
  | nil => exact Nat.le_refl _
  | cons x items ih =>
    have hpos := x.words_pos
    rw [List.length_cons, itemWords_cons]
    omega

theorem length_le_flatMap {α β : Type} {f : α → List β} (hf : ∀ x, f x ≠ []) (l : List α) :
    l.length ≤ (l.flatMap f).length := by
  induction l with
  | nil => exact Nat.le_refl _
  | cons x l ih =>
    have hpos := List.length_pos_iff.mpr (hf x)
    rw [List.flatMap_cons, List.length_append, List.length_cons]
    omega

theorem length_le_flatMap_of_mem {α β : Type} {f : α → List β} {l : List α} {x : α} (hx : x ∈ l) :
    (f x).length ≤ (l.flatMap f).length := by
  obtain ⟨l₁, l₂, rfl⟩ := List.append_of_mem hx
  rw [List.flatMap_append, List.flatMap_cons, List.length_append, List.length_append]
  omega

/-- What fits can be counted in 32 bits. -/
theorem writable_of_fits (h : Rooted w kids all) (ht : t.Of kids [group]) {withControls : Bool}
    (hlen : ((t.map (w.nodeReport m withControls value)).spell.flatMap
      (nodeItems withControls)).length < 2 ^ 31) :
    ∀ node ∈ (t.map (w.nodeReport m withControls value)).spell, Writable withControls node := by
  intro node hnode
  have hitems := length_le_flatMap_of_mem (f := nodeItems withControls) hnode
  have hnodes := length_le_flatMap (f := nodeItems withControls)
    (fun node => by
      obtain ⟨x, items, hitems⟩ := nodeItems_ne_nil withControls node
      rw [hitems]
      exact List.cons_ne_nil _ _) (t.map (w.nodeReport m withControls value)).spell
  rw [spell_map_of ht] at hnode hnodes hlen hitems
  obtain ⟨x, hx, rfl⟩ := List.mem_map.mp hnode
  rw [List.length_map] at hnodes
  have hkids := ht.length_kids_le hx
  cases hisGroup : (w.mNode x).mIsGroup with
  | true =>
    unfold nodeReport
    rw [if_pos hisGroup]
    show (kids x).length < 2 ^ 32 - 1
    omega
  | false =>
    rw [length_nodeItems_synth hisGroup] at hitems
    rw [h.toTree.kids_eq_nil_of_synth hisGroup]
    unfold nodeReport
    rw [if_neg (by simp [hisGroup])]
    cases withControls with
    | true =>
      refine ⟨rfl, ?_, nofun⟩
      simp only [if_true, List.length_map, List.length_range] at hitems ⊢
      omega
    | false => exact ⟨rfl, by simp, fun _ => rfl⟩

/-- A reply with a value for each control is read back. -/
theorem Rooted.readTree_reply (h : Rooted w kids all) (hg : group ∈ w.mNodeLib)
    (hgroup : (w.mNode group).mIsGroup) (ht : t.Of kids [group]) (hnamed : WellNamed w m)
    (flag : Word) (hvalues : flag ≠ 0#32 → Values w m t.nodes value)
    (hfits : ∀ numtags ops, w.queryTreeCalls m group flag = some (numtags, ops) → Fits ops) :
    ∃ numtags ops, w.queryTreeCalls m group flag = some (numtags, ops) ∧
      numtags.toInt = (opTags ops).length ∧ ∀ stack, ∃ bytes,
        w.queryTreeReply m stack group flag = some (some bytes) ∧
        readTree bytes =
          some (decide (flag ≠ 0#32), t.map (w.nodeReport m (flag ≠ 0#32) value)) := by
  obtain ⟨ops, hcalls, hitems, htags⟩ := h.queryTreeCalls_eq hg hgroup ht hnamed flag hvalues
  have hfit : Fits ops := hfits _ ops hcalls
  have haddress : addressWords queryTreeAddress = 5 := by decide
  unfold Fits at hfit
  rw [haddress, kBufSize_eq] at hfit
  have hsmall : (opTags ops).length < 2 ^ 31 - 4 := by omega
  have hsent : ∀ stack, w.queryTreeReply m stack group flag =
      some (some (encode queryTreeAddress (opTags ops) (opItems ops))) := by
    intro stack
    unfold queryTreeReply
    rw [hcalls]
    refine congrArg some (beginReply_complete ?_ (tagWords_ofNat hsmall) ?_)
    · show addressWords queryTreeAddress ≤ kBufSize
      rw [haddress, kBufSize_eq]
      omega
    · show (addressWords queryTreeAddress : ℤ) + _ + _ ≤ _
      rw [haddress, kBufSize_eq, tagWords_ofNat hsmall]
      omega
  refine ⟨_, ops, hcalls, toInt_ofNat (by omega), fun stack => ⟨_, hsent stack, ?_⟩⟩
  -- the bytes are read as the items, and the items as the nodes
  have hlen := length_le_itemWords (opItems ops)
  have hshort : ((t.map (w.nodeReport m (flag ≠ 0#32) value)).spell.flatMap
      (nodeItems (flag ≠ 0#32))).length < 2 ^ 31 := by
    have hcount := congrArg List.length hitems
    rw [List.length_cons] at hcount
    omega
  have hplain : Plain (opItems ops) := by
    intro s hs
    rw [hitems, spell_map_of ht, List.flatMap_map] at hs
    rcases List.mem_cons.mp hs with hflag | hs
    · exact absurd hflag nofun
    · obtain ⟨x, hx, hs⟩ := List.mem_flatMap.mp hs
      refine plain_nodeItems (fun hasked hsynth i hi s hvalue => ?_) _ s hs
      have hsome := hvalues (by simpa using hasked) x hx hsynth i hi
      rw [hvalue] at hsome
      exact queryValue_ne_zero hsome
  have hmessage : readMessage (encode queryTreeAddress (opTags ops) (opItems ops)) =
      some (queryTreeAddress, opItems ops) := by
    rw [htags]
    exact readMessage_encode (CString.ofString "/g_queryTree.reply").ne_zero hplain
  have hroots : (t.map (w.nodeReport m (flag ≠ 0#32) value)).roots = 1 := by
    rw [Trees.roots_map, ht.roots_eq]
    rfl
  have hasked : decide ((if flag ≠ 0#32 then 1#32 else 0#32 : Word) ≠ 0#32) =
      decide (flag ≠ 0#32) := by
    split_ifs with hflag <;> simp [hflag]
  have hnodes := takeNodes_flatMap (writable_of_fits h ht hshort) _ (Nat.le_refl _)
  unfold readTree
  rw [hmessage, hitems]
  simp only [Option.bind_eq_bind, Option.bind_some, if_pos (show queryTreeAddress =
    (CString.ofString "/g_queryTree.reply").bytes from rfl), takeInt, hasked, hnodes,
    Trees.parse_spell _ hroots]
  rfl

/-- As many tags are added as have been counted, and the reply is read back as the tree, with
each control as it is. -/
def Reconstructs (w : World) (m : SynthMemory) (state : NodeID → ℕ → ControlState)
    (group : NodeID) (flag : Word) (t : Trees NodeID) : Prop :=
  ∃ numtags ops, w.queryTreeCalls m group flag = some (numtags, ops) ∧
    numtags.toInt = (opTags ops).length ∧ ∀ stack, ∃ bytes,
      w.queryTreeReply m stack group flag = some (some bytes) ∧
      readTree bytes = some (decide (flag ≠ 0#32),
        t.map (w.nodeReport m (flag ≠ 0#32) fun x i => (state x i).report))

/-- The `Graph`s hold what the states of the controls say. -/
def Shown (w : World) (m : SynthMemory) (world : NodeID → ControlWorld)
    (state : NodeID → ℕ → ControlState) : Prop :=
  ∀ x ∈ w.mNodeLib, (w.mNode x).mIsGroup = false →
    ∀ i < (m.graphs x).mNumControls, (m.graphs x).Shows (world x) i (state x i)

/-- The query can tell all controls of the tree. -/
def AllTold (w : World) (m : SynthMemory) (state : NodeID → ℕ → ControlState)
    (nodes : List NodeID) : Prop :=
  ∀ x ∈ nodes, (w.mNode x).mIsGroup = false →
    ∀ i < (m.graphs x).mNumControls, (state x i).Told

/-- What is read back as it is can be told. -/
theorem Rooted.allTold (h : Rooted w kids all) (hg : group ∈ w.mNodeLib)
    (hgroup : (w.mNode group).mIsGroup) (ht : t.Of kids [group]) (hnamed : WellNamed w m)
    {world : NodeID → ControlWorld} {state : NodeID → ℕ → ControlState}
    (hshown : Shown w m world state) {flag : Word}
    (hfits : ∀ numtags ops, w.queryTreeCalls m group flag = some (numtags, ops) → Fits ops)
    (hflag : flag ≠ 0#32) (hread : Reconstructs w m state group flag t) :
    AllTold w m state t.nodes := by
  obtain ⟨numtags, ops, hcalls, -, hread⟩ := hread
  intro x hx hsynth i hi
  -- there is a value for each control
  have hvalues : Values w m t.nodes fun x i => (m.queryValue x i).getD (.int 0#32) := by
    intro y hy hsynth' j hj
    cases hvalue : m.queryValue y j with
    | none =>
      rw [h.queryTreeCalls_none hg hgroup ht hflag hy hsynth' hj hvalue] at hcalls
      exact absurd hcalls nofun
    | some value => simp only [hvalue, Option.getD_some]
  obtain ⟨-, -, -, -, hread'⟩ := h.readTree_reply hg hgroup ht hnamed flag (fun _ => hvalues) hfits
  obtain ⟨bytes, hreply, htree⟩ := hread fun _ => 0#8
  obtain ⟨bytes', hreply', htree'⟩ := hread' fun _ => 0#8
  obtain rfl := Option.some.inj (Option.some.inj (hreply.symm.trans hreply'))
  -- it is the one that was asked for
  have hmaps := (Prod.mk.inj (Option.some.inj (htree.symm.trans htree'))).2
  have hreport := Trees.map_eq_map_iff.mp hmaps x hx
  unfold nodeReport at hreport
  simp only [hsynth, hflag, Bool.false_eq_true, if_false, ne_eq, not_false_eq_true, decide_true,
    if_true, Reported.synth.injEq, List.map_inj_left, List.mem_range, Prod.mk.injEq,
    true_and] at hreport
  rw [← queryValue_iff (hshown x (mem_nodes h hg ht hx) hsynth i hi), hreport i hi]
  exact hvalues x hx hsynth i hi

/-- A reply that fits the packet is read back as the tree exactly if it is without controls, or
can tell all of them. -/
theorem queryTree_reconstructs_iff (w : World) (m : SynthMemory) (world : NodeID → ControlWorld)
    (state : NodeID → ℕ → ControlState) (kids : NodeID → List NodeID) (all : List NodeID)
    (group : NodeID) (t : Trees NodeID) (flag : Word) (h : Rooted w kids all)
    (hg : group ∈ w.mNodeLib) (hgroup : (w.mNode group).mIsGroup) (ht : t.Of kids [group])
    (hnamed : WellNamed w m) (hshown : Shown w m world state)
    (hfits : ∀ numtags ops, w.queryTreeCalls m group flag = some (numtags, ops) → Fits ops) :
    Reconstructs w m state group flag t ↔ (flag ≠ 0#32 → AllTold w m state t.nodes) := by
  constructor
  · intro hread hflag
    exact h.allTold hg hgroup ht hnamed hshown hfits hflag hread
  · intro htold
    refine h.readTree_reply hg hgroup ht hnamed flag (fun hflag x hx hsynth i hi => ?_) hfits
    have hshows := hshown x (mem_nodes h hg ht hx) hsynth i hi
    exact (queryValue_iff hshows).mpr (htold hflag x hx hsynth i hi)

/-- Every reply of the command is that for a group of the table. -/
theorem methGQueryTree_replies {fpu : FloatUnit} {stack : ℕ → ℤ → Byte} (h : w.IsTree)
    {turns : ℕ} {msg : MsgIter} {replies : List (List Byte)} {err : SCErr}
    (hrun : w.methGQueryTree m fpu stack turns msg = some (replies, err)) :
    ∀ bytes ∈ replies, ∃ turn group flag, group ∈ w.mNodeLib ∧ (w.mNode group).mIsGroup ∧
      w.queryTreeReply m (stack turn) group flag = some (some bytes) := by
  induction turns generalizing msg replies err with
  | zero => exact absurd hrun nofun
  | succ turns ih =>
    rw [methGQueryTree] at hrun
    split_ifs at hrun with hend
    · obtain ⟨rfl, -⟩ := Prod.mk.inj (Option.some.inj hrun)
      exact fun bytes hbytes => absurd hbytes List.not_mem_nil
    · obtain ⟨⟨group, msg'⟩, hget, hrun⟩ := Option.bind_eq_some_iff.mp hrun
      cases group with
      | none =>
        obtain ⟨rfl, -⟩ := Prod.mk.inj (Option.some.inj hrun)
        exact fun bytes hbytes => absurd hbytes List.not_mem_nil
      | some group =>
        simp only [Option.bind_eq_bind, Option.bind_eq_some_iff] at hrun
        obtain ⟨⟨flag, msg₂⟩, -, sent, hsent, ⟨rest, err'⟩, hrest, hsame⟩ := hrun
        obtain ⟨rfl, -⟩ := Prod.mk.inj (Option.some.inj hsame)
        intro bytes hbytes
        rcases List.mem_append.mp hbytes with hfirst | hlater
        · obtain rfl := Option.mem_toList.mp hfirst
          have hmem := msgGetGroup_mem h hget
          exact ⟨turns, group, flag, hmem.1, hmem.2, hsent⟩
        · exact ih hrest bytes hlater

theorem Rooted.exists_tree (h : Rooted w kids all) (hg : group ∈ w.mNodeLib) :
    ∃ t : Trees NodeID, t.Of kids [group] := by
  obtain ⟨b, hb, -⟩ := h.exists_below hg
  exact Trees.exists_of_spans (.singleton hb)

theorem mem_nodes_of_kid (ht : t.Of kids [group]) (hx : x ∈ kids group) : x ∈ t.nodes :=
  ht.spans.mem_of_kid (ht.spans.mem_of_root List.mem_cons_self) hx

end World

namespace QueryExample

open World Reply

/-- The memory of a synth that has one control, with a name. -/
def oneControl (source : ControlSource) (rate : ℕ) : SynthMemory where
  graphs := fun _ => ⟨1, fun _ => 0x3f800000#32, fun _ => source, fun _ => rate⟩
  mParamSpecs := fun _ => [⟨nameOf (CString.ofString "freq").bytes, 0⟩]
  mControls := fun _ => -1024
  mAudioBus := 64
  mBufLength := 64

def sixteenBuses : ControlWorld := ⟨16, 16, 64, fun _ => none⟩

/-- The control as the state has it. -/
def memoryOf (state : ControlState) : SynthMemory :=
  oneControl (state.source sixteenBuses 0) state.rate

theorem shown_memoryOf {bus : MappedBus} (hinside : ∀ b, bus = .control b → b < 2 ^ 31) :
    Shown NOrder.oneSynth (memoryOf ⟨0x3f800000#32, some bus⟩) (fun _ => sixteenBuses)
      fun _ _ => ⟨0x3f800000#32, some bus⟩ := by
  intro x _ _ i hi
  obtain rfl : i = 0 := Nat.lt_one_iff.mp hi
  exact ⟨rfl, rfl, rfl, fun b hb => hinside b (Option.some.inj hb)⟩

theorem wellNamed_memoryOf (state : ControlState) : WellNamed NOrder.oneSynth (memoryOf state) := by
  intro x _ _ spec hspec
  rw [List.mem_singleton.mp hspec]
  exact Nat.one_pos

theorem fits_of_elim (state : ControlState)
    (h : (NOrder.oneSynth.queryTreeCalls (memoryOf state) 0#32 1#32).elim true
      (fun calls => decide (Fits calls.2)) = true) (numtags : Word) (ops : List Op)
    (hcalls : NOrder.oneSynth.queryTreeCalls (memoryOf state) 0#32 1#32 = some (numtags, ops)) :
    Fits ops := by
  rw [hcalls] at h
  exact of_decide_eq_true h

/-- The root group with its synth. -/
theorem exists_oneSynth : ∃ kids all t, Rooted NOrder.oneSynth kids all ∧
    Trees.Of kids [0#32] t ∧ 1#32 ∈ t.nodes := by
  obtain ⟨kids, all, h⟩ := NOrder.isTree_oneSynth
  obtain ⟨t, ht⟩ := h.exists_tree NOrder.root_mem_oneSynth
  have hkid : (1#32 : NodeID) ∈ kids 0#32 := h.complete 1#32 (by decide) 0#32 (by decide)
  exact ⟨kids, all, t, h, ht, mem_nodes_of_kid ht hkid⟩

/-- A synth whose control is mapped to the control bus 3. -/
theorem queryTree_reconstructs_iff_controlBus : ∃ t : Trees NodeID, 1#32 ∈ t.nodes ∧
    Reconstructs NOrder.oneSynth (memoryOf ⟨0x3f800000#32, some (.control 3)⟩)
      (fun _ _ => ⟨0x3f800000#32, some (.control 3)⟩) 0#32 1#32 t := by
  obtain ⟨kids, all, t, h, ht, hmem⟩ := exists_oneSynth
  refine ⟨t, hmem, (queryTree_reconstructs_iff NOrder.oneSynth _ (fun _ => sixteenBuses) _ kids all
    0#32 t 1#32 h NOrder.root_mem_oneSynth (by decide) ht (wellNamed_memoryOf _)
    (shown_memoryOf ?_) (fits_of_elim _ (by decide))).mpr ?_⟩
  · intro b hb
    rw [← MappedBus.control.inj hb]
    decide
  · intro _ x _ _ i _ bus hbus
    exact ⟨3, by decide, (Option.some.inj hbus).symm⟩

/-- With the audio bus 0 in its place, the client is told a control bus. -/
theorem not_reconstructs_audioBus :
    ¬ ∀ (w : World) (m : SynthMemory) (world : NodeID → ControlWorld)
      (state : NodeID → ℕ → ControlState) (kids : NodeID → List NodeID) (all : List NodeID)
      (group : NodeID) (t : Trees NodeID) (flag : Word), Rooted w kids all → group ∈ w.mNodeLib →
      (w.mNode group).mIsGroup → t.Of kids [group] → WellNamed w m → Shown w m world state →
      (∀ numtags ops, w.queryTreeCalls m group flag = some (numtags, ops) → Fits ops) →
      Reconstructs w m state group flag t := by
  intro hall
  obtain ⟨kids, all, t, h, ht, hmem⟩ := exists_oneSynth
  have hgroup : (NOrder.oneSynth.mNode 0#32).mIsGroup := by decide
  have hshown : Shown NOrder.oneSynth (memoryOf ⟨0x3f800000#32, some (.audio 0)⟩)
    (fun _ => sixteenBuses) fun _ _ => ⟨0x3f800000#32, some (.audio 0)⟩ := shown_memoryOf nofun
  have hfits := fits_of_elim ⟨0x3f800000#32, some (.audio 0)⟩ (by decide)
  have hread := hall NOrder.oneSynth _ _ _ kids all 0#32 t 1#32 h NOrder.root_mem_oneSynth hgroup
    ht (wellNamed_memoryOf _) hshown hfits
  have htold := h.allTold NOrder.root_mem_oneSynth hgroup ht (wellNamed_memoryOf _) hshown hfits
    (by decide) hread
  obtain ⟨b, -, hb⟩ := htold 1#32 hmem (by decide) 0 Nat.one_pos _ rfl
  exact absurd hb nofun

end QueryExample

end PoopWorms.Server
