import PoopWorms.Server.ControlArgsTheorems
import PoopWorms.Server.NodeFill
import PoopWorms.Server.NodeOrder

/-!
# What `/n_fill` does with its triples

The controls of a triple are set to its value, and then once more: to what stands behind the
triple, which is the key of the next one, or to zero when nothing does.
-/

namespace PoopWorms.Server

open Octets Osc Forest LinkedList

/-! ## The synths of a node -/

/-- `f` has been done to the synths in `S`, and nothing to any other. -/
def Done (f : NodeID → Controls → Controls) (S : NodeID → Prop) (graphs graphs' : Graphs) : Prop :=
  ∀ s, (S s → graphs' s = f s (graphs s)) ∧ (¬ S s → graphs' s = graphs s)

section Done

variable {f f' : NodeID → Controls → Controls} {S S' : NodeID → Prop}
  {graphs graphs₁ graphs₂ : Graphs}

theorem Done.congr (h : Done f S graphs graphs₁) (hS : ∀ s, S' s ↔ S s) :
    Done f S' graphs graphs₁ := by
  intro s
  rw [hS s]
  exact h s

theorem Done.none (hS : ∀ s, ¬ S s) : Done f S graphs graphs :=
  fun s => ⟨fun hs => absurd hs (hS s), fun _ => rfl⟩

theorem Done.one (s : NodeID) :
    Done f (· = s) graphs (Function.update graphs s (f s (graphs s))) := by
  intro s'
  constructor
  · rintro rfl
    exact Function.update_self ..
  · exact fun hne => Function.update_of_ne hne ..

/-- The same to some synths, and then to others. -/
theorem Done.append (h : Done f S graphs graphs₁) (h' : Done f S' graphs₁ graphs₂)
    (hdisjoint : ∀ s, S s → ¬ S' s) : Done f (fun s => S s ∨ S' s) graphs graphs₂ := by
  intro s
  constructor
  · rintro (hs | hs)
    · rw [(h' s).2 (hdisjoint s hs), (h s).1 hs]
    · rw [(h' s).1 hs, (h s).2 fun hs' => hdisjoint s hs' hs]
  · intro hs
    rw [not_or] at hs
    rw [(h' s).2 hs.2, (h s).2 hs.1]

/-- One thing to all of the synths, and then another. -/
theorem Done.trans (h : Done f S graphs graphs₁) (h' : Done f' S graphs₁ graphs₂) :
    Done (fun s g => f' s (f s g)) S graphs graphs₂ := by
  intro s
  constructor
  · intro hs
    rw [(h' s).1 hs, (h s).1 hs]
  · intro hs
    rw [(h' s).2 hs, (h s).2 hs]

end Done

namespace World

variable {w : World} {kids : NodeID → List NodeID} {all b l : List NodeID} {node : NodeID}
  {f : NodeID → Controls → Controls}

/-- A synth that is the node, or below it. -/
def SynthOf (w : World) (node s : NodeID) : Prop :=
  s ∈ w.mNodeLib ∧ (w.mNode s).mIsGroup = false ∧ w.Within node s

/-- The walk over the roots of a forest reaches each synth in it once. -/
theorem Tree.eachGraphFrom_done (h : Tree w kids) (hspans : Spans kids l b) {prev : Option NodeID}
    (hlinked : Linked (fun n => (w.mNode n).mPrev) (fun n => (w.mNode n).mNext) prev l none)
    (hlib : ∀ x ∈ b, x ∈ w.mNodeLib) (hnd : b.Nodup) (fuel : ℕ) (hfuel : b.length < fuel)
    (graphs : Graphs) :
    Done f (fun s => s ∈ b ∧ (w.mNode s).mIsGroup = false) graphs
      (w.eachGraphFrom f fuel l.head? graphs) := by
  induction hspans generalizing prev fuel graphs with
  | nil =>
    cases fuel with
    | zero => simp at hfuel
    | succ fuel => exact .none fun s hs => List.not_mem_nil hs.1
  | @cons x xs below rest hbelow hrest ihbelow ihrest =>
    cases fuel with
    | zero => simp at hfuel
    | succ fuel =>
      rw [List.nodup_cons, List.nodup_append] at hnd
      obtain ⟨hx, hndBelow, hndRest, hdisjoint⟩ := hnd
      rw [List.mem_append, not_or] at hx
      rw [List.length_cons, List.length_append] at hfuel
      obtain ⟨-, hnext, hlinked'⟩ := hlinked
      have hnext' : (w.mNode x).mNext = xs.head? := by simpa using hnext
      rw [List.head?_cons, eachGraphFrom, hnext']
      cases hisGroup : (w.mNode x).mIsGroup with
      | true =>
        -- a group: its children first, and then the siblings behind it
        have hhead := (h.ends x (hlib x List.mem_cons_self) hisGroup).1
        rw [if_pos rfl, hhead]
        have hin := ihbelow (h.linked x) (fun y hy => hlib y (by simp [hy])) hndBelow fuel
          (by omega) graphs
        have hout := ihrest hlinked' (fun y hy => hlib y (by simp [hy])) hndRest fuel
          (by omega) (w.eachGraphFrom f fuel (kids x).head? graphs)
        refine (hin.append hout ?_).congr ?_
        · exact fun s hs hs' => hdisjoint s hs.1 s hs'.1 rfl
        · intro s
          by_cases hsx : s = x
          · simp [hsx, hisGroup]
          · simp [hsx, or_and_right]
      | false =>
        -- a synth has nothing below it
        rw [h.kids_eq_nil_of_synth hisGroup] at hbelow
        cases hbelow
        rw [if_neg (by simp)]
        have hout := ihrest hlinked' (fun y hy => hlib y (by simp [hy])) hndRest fuel
          (by omega) (Function.update graphs x (f x (graphs x)))
        refine ((Done.one x).append hout ?_).congr ?_
        · rintro s rfl hs
          exact hx.2 hs.1
        · intro s
          by_cases hsx : s = x
          · simp [hsx, hisGroup]
          · simp [hsx]

/-- `Node_SetControl` and its siblings reach the synths of the node. -/
theorem IsTree.eachGraph_done (h : IsTree w) (hnode : node ∈ w.mNodeLib) (graphs : Graphs) :
    Done f (w.SynthOf node) graphs (w.eachGraph f node graphs) := by
  obtain ⟨kids, all, h⟩ := h
  obtain ⟨b, hb, hnd, hnodeb⟩ := h.exists_below hnode
  have hlib : ∀ x ∈ b, x ∈ w.mNodeLib := fun x hx => (h.toTree.mem_of_below hb hx).1
  have hsynth : ∀ s, w.SynthOf node s ↔ s ∈ node :: b ∧ (w.mNode s).mIsGroup = false := by
    intro s
    constructor
    · intro hs
      exact ⟨(h.toTree.within_iff hb hs.1).mp hs.2.2, hs.2.1⟩
    · intro hs
      have hslib : s ∈ w.mNodeLib := by
        rcases List.mem_cons.mp hs.1 with rfl | hsb
        · exact hnode
        · exact hlib s hsb
      exact ⟨hslib, hs.2, (h.toTree.within_iff hb hslib).mpr hs.1⟩
  have hlen := h.toTree.length_below_le hb hnd
  unfold eachGraph
  cases hisGroup : (w.mNode node).mIsGroup with
  | true =>
    rw [if_pos rfl, (h.ends node hnode hisGroup).1]
    refine (h.toTree.eachGraphFrom_done hb (h.linked node) hlib hnd _ (by omega) graphs).congr ?_
    intro s
    rw [hsynth, List.mem_cons]
    by_cases hs : s = node
    · simp [hs, hisGroup]
    · simp [hs]
  | false =>
    rw [h.toTree.kids_eq_nil_of_synth hisGroup] at hb
    cases hb
    rw [if_neg (by simp)]
    refine (Done.one node).congr ?_
    intro s
    rw [hsynth, List.mem_singleton]
    exact ⟨fun hs => hs.1, fun hs => ⟨hs, hs ▸ hisGroup⟩⟩

end World

/-! ## A range of controls -/

/-- The control `m` is one of the `n` from the key on. -/
def ControlKey.Covers (key : ControlKey) (world : ControlWorld) (n m : ℕ) : Prop :=
  ∃ i < n, (key.at world (i : ℕ)).map BitVec.toNat = some m

instance (key : ControlKey) (world : ControlWorld) (n m : ℕ) : Decidable (key.Covers world n m) :=
  Nat.decidableExistsLT n

section Covers

variable {key : ControlKey} {world : ControlWorld} {n m : ℕ}

theorem ControlKey.covers_zero : ¬ key.Covers world 0 m := by
  rintro ⟨i, hi, -⟩
  omega

theorem ControlKey.covers_succ : key.Covers world (n + 1) m ↔
    key.Covers world n m ∨ (key.at world (n : ℕ)).map BitVec.toNat = some m := by
  constructor
  · rintro ⟨i, hi, hm⟩
    rcases Nat.lt_succ_iff_lt_or_eq.mp hi with hlt | rfl
    · exact .inl ⟨i, hlt, hm⟩
    · exact .inr hm
  · rintro (⟨i, hi, hm⟩ | hm)
    · exact ⟨i, by omega, hm⟩
    · exact ⟨n, by omega, hm⟩

end Covers

/-- The controls that there are among the `n` from the key on are set to the value, and no longer
mapped. -/
def Controls.setRange (world : ControlWorld) (key : ControlKey) (n : ℕ) (value : Word)
    (g : Controls) : Controls where
  mNumControls := g.mNumControls
  mControls m := if m < g.mNumControls ∧ key.Covers world n m then value else g.mControls m
  mMapControls m :=
    if m < g.mNumControls ∧ key.Covers world n m then .control m else g.mMapControls m
  mControlRates m := if m < g.mNumControls ∧ key.Covers world n m then 0 else g.mControlRates m

section SetRange

variable (world : ControlWorld) (key : ControlKey) (value : Word) (g : Controls)

theorem Controls.setRange_zero : g.setRange world key 0 value = g := by
  simp [setRange, ControlKey.covers_zero]

/-- One more control of the range. -/
theorem Controls.store_setRange (n : ℕ) :
    (g.setRange world key n value).store world key (n : ℕ) (.set value) =
      g.setRange world key (n + 1) value := by
  have hcovers := fun m => @ControlKey.covers_succ key world n m
  cases hat : key.at world (n : ℕ) with
  | none =>
    -- the definition has no parameter of the name
    have hsame : ∀ m, key.Covers world (n + 1) m ↔ key.Covers world n m := by
      intro m
      rw [hcovers, hat]
      simp
    simp only [store, hat, setRange, hsame]
  | some inIndex =>
    have hmore : ∀ m, key.Covers world (n + 1) m ↔
        key.Covers world n m ∨ inIndex.toNat = m := by
      intro m
      rw [hcovers, hat]
      simp
    simp only [store, hat, graphSetControl]
    by_cases hindex : (g.setRange world key n value).mNumControls ≤ inIndex.toNat
    · -- there is no such control
      have hout : ∀ m, m < g.mNumControls ∧ key.Covers world (n + 1) m ↔
          m < g.mNumControls ∧ key.Covers world n m := by
        intro m
        have hindex' : g.mNumControls ≤ inIndex.toNat := hindex
        rw [hmore]
        constructor
        · rintro ⟨hm, hc | heq⟩
          · exact ⟨hm, hc⟩
          · omega
        · exact fun hm => ⟨hm.1, .inl hm.2⟩
      rw [if_pos hindex]
      simp only [setRange, hout]
    · rw [if_neg hindex]
      have hindex' : inIndex.toNat < g.mNumControls := by
        have hnum : (g.setRange world key n value).mNumControls = g.mNumControls := rfl
        omega
      have hin : ∀ m, m < g.mNumControls ∧ key.Covers world (n + 1) m ↔
          m = inIndex.toNat ∨ m < g.mNumControls ∧ key.Covers world n m := by
        intro m
        rw [hmore]
        constructor
        · rintro ⟨hm, hc | heq⟩
          · exact .inr ⟨hm, hc⟩
          · exact .inl heq.symm
        · rintro (rfl | hm)
          · exact ⟨hindex', .inr rfl⟩
          · exact ⟨hm.1, .inl hm.2⟩
      have hupdate : ∀ {α : Type} (f : ℕ → α) (v : α) (m : ℕ),
          Function.update f inIndex.toNat v m = if m = inIndex.toNat then v else f m :=
        fun f v m => Function.update_apply f _ _ _
      simp only [setRange, Controls.mk.injEq, true_and]
      refine ⟨?_, ?_, ?_⟩ <;> ext m
      all_goals
        rw [hupdate]
        simp only [hin]
        by_cases hm : m = inIndex.toNat
        · simp [hm]
        · simp [hm]

theorem Controls.foldl_store (n : ℕ) :
    (List.range n).foldl (fun g (i : ℕ) => g.store world key i (.set value)) g =
      g.setRange world key n value := by
  induction n with
  | zero => exact (g.setRange_zero world key value).symm
  | succ n ih =>
    rw [List.range_succ, List.foldl_append, ih]
    exact store_setRange world key value g n

end SetRange

/-! ## The triples of a message -/

/-- A triple of `/n_fill`. -/
structure FillArg where
  key : ArgKey
  count : Word
  value : NumberArg

/-- The type tags of the triples. -/
def fillTags (args : List FillArg) : List Byte :=
  args.flatMap fun a => [a.key.tag, chr 'i', a.value.tag]

/-- The bytes of the triples. -/
def fillData (args : List FillArg) : List Byte :=
  args.flatMap fun a => a.key.data ++ OSCValue.beBytes a.count ++ a.value.data

/-- The controls of the triple are set to the value. -/
def Controls.fill (fpu : FloatUnit) (world : ControlWorld) (g : Controls) (a : FillArg) :
    Controls :=
  g.setRange world a.key.read a.count.toInt.toNat (a.value.read fpu)

section Turns

variable {fpu : FloatUnit} {w : World} {world : NodeID → ControlWorld} {node : NodeID}
  {tags data : List Byte} {it : MsgIter}

/-- The loop over a range sets it in each synth of the node. -/
theorem fillSet_done (h : w.IsTree) (hnode : node ∈ w.mNodeLib) (key : ControlKey)
    (n value : Word) (graphs : Graphs) :
    Done (fun s g => g.setRange (world s) key n.toInt.toNat value) (w.SynthOf node) graphs
      (fillSet w world node key n value graphs) := by
  have hrun : ∀ k : ℕ, Done
      (fun s g => (List.range k).foldl (fun g (i : ℕ) => g.store (world s) key i (.set value)) g)
      (w.SynthOf node) graphs
      ((List.range k).foldl
        (fun graphs (i : ℕ) => nodeSetControl w world node key i value graphs) graphs) := by
    intro k
    induction k with
    | zero => exact fun s => ⟨fun _ => rfl, fun _ => rfl⟩
    | succ k ih =>
      simp only [List.range_succ, List.foldl_append, List.foldl_cons, List.foldl_nil]
      exact ih.trans (h.eachGraph_done hnode _)
  have hdone := hrun n.toInt.toNat
  simp only [Controls.foldl_store] at hdone
  exact hdone

variable (fpu w world node)

/-- A turn begins by setting the controls of the triple that it is in front of. -/
theorem nFillTurn_eq (a : FillArg) (graphs : Graphs)
    (h : it.Before (fillTags [a] ++ tags) (fillData [a] ++ data)) :
    ∃ it₃ : MsgIter, it₃.Before tags data ∧ it₃.count = it.count + 3 ∧
      nFillTurn fpu w world node it graphs =
        nFillAgain fpu w world node a.key.read a.count it₃
          (fillSet w world node a.key.read a.count (a.value.read fpu) graphs) := by
  simp only [fillTags, fillData, List.flatMap_cons, List.flatMap_nil, List.append_nil,
    List.cons_append, List.nil_append, List.append_assoc] at h
  have hkey : getKey fpu it = _ := getKey_eq h
  have h₁ := h.advance
  have hcount : MsgIter.geti fpu _ 0#32 = _ := h₁.geti rfl 0#32
  rw [MsgIter.swap32_wordOf_beBytes] at hcount
  have h₂ := h₁.advance
  have hvalue : MsgIter.getf fpu _ 0#32 = _ := h₂.getf_number
  have hlen : (OSCValue.beBytes a.count).length = 4 := rfl
  rw [hlen] at hvalue
  refine ⟨_, h₂.advance, rfl, ?_⟩
  unfold nFillTurn
  simp only [Option.bind_eq_bind, Option.bind_some, hkey, hcount, hvalue]
  rfl

/-- At the end of the message the second value is the default. -/
theorem nFillAgain_last (h : it.Before [] []) (key : ControlKey) (n : Word) (graphs : Graphs) :
    nFillAgain fpu w world node key n it graphs =
      some (it, fillSet w world node key n 0#32 graphs) := by
  have htag : it.nextTagOr (chr 'f') = some 0#8 := by
    rcases h.tags with ⟨t, ht, -⟩
    unfold MsgIter.nextTagOr
    rw [ht]
    exact h.nextTag_head
  have hget : it.getf fpu 0#32 = some (0#32, it) := by
    unfold MsgIter.getf
    rw [h.remain_eq]
    exact if_pos (by simp)
  unfold nFillAgain
  rw [htag]
  simp only [Option.bind_eq_bind, Option.bind_some, hget]
  rfl

/-- Otherwise the key of the next triple is read in its place. -/
theorem nFillAgain_count {next : ArgKey} (h : it.Before (next.tag :: tags) (next.data ++ data))
    (key : ControlKey) (n : Word) (graphs : Graphs) :
    ∃ (it' : MsgIter) (graphs' : Graphs),
      nFillAgain fpu w world node key n it graphs = some (it', graphs') ∧
        it'.count = it.count + 1 := by
  unfold nFillAgain
  rw [nextTagOr_eq h]
  cases next with
  | index i =>
    have hget : it.getf fpu 0#32 = _ := MsgIter.Before.getf_int h rfl 0#32
    simp only [Option.bind_eq_bind, Option.bind_some, hget]
    exact ⟨_, _, rfl, rfl⟩
  | name string =>
    have hget := MsgIter.Before.gets string.2 h none
    simp only [Option.bind_eq_bind, Option.bind_some, hget]
    exact ⟨_, _, rfl, rfl⟩

/-- The first turn begins where the loop does. -/
theorem nFillLoop_starts {turns : ℕ} {graphs graphs' : Graphs} {starts : List ℕ}
    (h : nFillLoop fpu w world node turns it graphs = some (starts, graphs')) :
    ∀ start ∈ starts.head?, start = it.count := by
  cases turns with
  | zero => exact absurd h (by simp [nFillLoop])
  | succ turns =>
    rw [nFillLoop] at h
    split at h
    · simp only [Option.bind_eq_bind, Option.bind_eq_some_iff] at h
      obtain ⟨⟨it', graphs₁⟩, -, ⟨starts', graphs₂⟩, -, heq⟩ := h
      cases heq
      simp
    · cases h
      simp

/-- More turns do not change a result. -/
theorem nFillLoop_add {turns : ℕ} {graphs : Graphs} {result : List ℕ × Graphs}
    (h : nFillLoop fpu w world node turns it graphs = some result) (more : ℕ) :
    nFillLoop fpu w world node (turns + more) it graphs = some result := by
  induction turns generalizing it graphs result with
  | zero => exact absurd h (by simp [nFillLoop])
  | succ turns ih =>
    rw [Nat.add_right_comm, nFillLoop]
    rw [nFillLoop] at h
    by_cases hmore : 12 ≤ it.remain
    · rw [if_pos hmore] at h ⊢
      simp only [Option.bind_eq_bind, Option.bind_eq_some_iff] at h ⊢
      obtain ⟨⟨it', graphs₁⟩, hturn, rest, hrest, heq⟩ := h
      exact ⟨⟨it', graphs₁⟩, hturn, rest, ih hrest, heq⟩
    · rw [if_neg hmore] at h ⊢
      exact h

end Turns

/-! ## All triples -/

/-- The loop reads every triple at its own place, and sets its controls to its value in each
synth of the node; nothing else changes. -/
def LoopFills (fpu : FloatUnit) (w : World) (world : NodeID → ControlWorld) (node : NodeID)
    (args : List FillArg) (msg : MsgIter) (graphs : Graphs) : Prop :=
  ∃ turns graphs', nFillLoop fpu w world node turns msg graphs =
      some ((List.range args.length).map (msg.count + 3 * ·), graphs') ∧
    Done (fun s g => args.foldl (Controls.fill fpu (world s)) g) (w.SynthOf node) graphs graphs'

/-- The same of the command; the first triple is the argument `start`. -/
def FillsAll (fpu : FloatUnit) (w : World) (world : NodeID → ControlWorld) (node : NodeID)
    (args : List FillArg) (start : ℕ) (it : MsgIter) (graphs : Graphs) : Prop :=
  ∃ turns graphs', methNFill fpu w world turns it graphs =
      some ((List.range args.length).map (start + 3 * ·), graphs') ∧
    Done (fun s g => args.foldl (Controls.fill fpu (world s)) g) (w.SynthOf node) graphs graphs'

section LoopFills

variable {fpu : FloatUnit} {w : World} {world : NodeID → ControlWorld} {node : NodeID}
  {args : List FillArg} {msg : MsgIter} {graphs : Graphs}

theorem loopFills_nil (h : msg.Before [] []) : LoopFills fpu w world node [] msg graphs := by
  have hend : ¬ 12 ≤ msg.remain := by
    rw [h.remain_eq]
    exact Int.not_le.mpr (by decide)
  exact ⟨1, graphs, if_neg hend, fun s => ⟨fun _ => rfl, fun _ => rfl⟩⟩

theorem length_fillData (a : FillArg) : 12 ≤ (fillData [a]).length := by
  have hkey := a.key.four_le_length_data
  have hvalue : a.value.data.length = 4 := by cases a.value <;> rfl
  have hcount : (OSCValue.beBytes a.count).length = 4 := rfl
  simp only [fillData, List.flatMap_cons, List.flatMap_nil, List.append_nil, List.length_append]
  omega

/-- A single triple is followed by nothing, which is read as zero. -/
theorem nFillLoop_single (a : FillArg) (h : msg.Before (fillTags [a]) (fillData [a]))
    (turns : ℕ) : nFillLoop fpu w world node (turns + 2) msg graphs =
      some ([msg.count], fillSet w world node a.key.read a.count 0#32
        (fillSet w world node a.key.read a.count (a.value.read fpu) graphs)) := by
  have hmore : 12 ≤ msg.remain := by
    have hlen := length_fillData a
    rw [h.remain_eq]
    omega
  have h' : msg.Before (fillTags [a] ++ []) (fillData [a] ++ []) := by
    rw [List.append_nil, List.append_nil]
    exact h
  obtain ⟨it₃, h₃, -, hturn⟩ := nFillTurn_eq fpu w world node a graphs h'
  rw [nFillAgain_last fpu w world node h₃] at hturn
  have hend : ¬ 12 ≤ it₃.remain := by
    rw [h₃.remain_eq]
    exact Int.not_le.mpr (by decide)
  rw [nFillLoop, if_pos hmore, hturn]
  simp only [Option.bind_eq_bind, Option.bind_some]
  rw [nFillLoop, if_neg hend]
  rfl

/-- The second triple is not read at its place. -/
theorem not_loopFills_more (a b : FillArg)
    (h : msg.Before (fillTags (a :: b :: args)) (fillData (a :: b :: args))) :
    ¬ LoopFills fpu w world node (a :: b :: args) msg graphs := by
  rintro ⟨turns, graphs', hrun, -⟩
  have hmore : 12 ≤ msg.remain := by
    have hlen := length_fillData a
    have hcons : fillData (a :: b :: args) = fillData [a] ++ fillData (b :: args) := by
      simp [fillData]
    rw [h.remain_eq, hcons, List.length_append]
    omega
  have h' : msg.Before (fillTags [a] ++ (b.key.tag :: ([chr 'i', b.value.tag] ++ fillTags args)))
      (fillData [a] ++ (b.key.data ++ (OSCValue.beBytes b.count ++ (b.value.data ++
        fillData args)))) := by
    simpa [fillTags, fillData] using h
  obtain ⟨it₃, h₃, hcount, hturn⟩ := nFillTurn_eq fpu w world node a graphs h'
  obtain ⟨it₄, graphs₄, hagain, hcount₄⟩ := nFillAgain_count fpu w world node h₃ a.key.read
    a.count (fillSet w world node a.key.read a.count (a.value.read fpu) graphs)
  rw [hagain] at hturn
  cases turns with
  | zero => exact absurd hrun (by simp [nFillLoop])
  | succ turns =>
    rw [nFillLoop, if_pos hmore, hturn] at hrun
    simp only [Option.bind_eq_bind, Option.bind_some, Option.bind_eq_some_iff] at hrun
    obtain ⟨⟨starts, graphs₅⟩, hrest, heq⟩ := hrun
    have hstarts : msg.count :: starts =
        (List.range (a :: b :: args).length).map (msg.count + 3 * ·) :=
      congrArg Prod.fst (Option.some.inj heq)
    rw [List.length_cons, List.length_cons, List.range_succ_eq_map, List.range_succ_eq_map]
      at hstarts
    simp only [List.map_cons, List.map_map, List.cons.injEq] at hstarts
    -- the turn has taken four arguments and not three
    have hfour := nFillLoop_starts fpu w world node hrest (msg.count + 3) (by rw [hstarts.2]; simp)
    omega

/-- Of two values for one range, the second stays. -/
theorem Controls.setRange_setRange (world : ControlWorld) (key : ControlKey) (n : ℕ)
    (value value' : Word) (g : Controls) :
    (g.setRange world key n value).setRange world key n value' =
      g.setRange world key n value' := by
  simp only [setRange, Controls.mk.injEq, true_and]
  refine ⟨?_, ?_, ?_⟩ <;> ext m <;>
    by_cases hm : m < g.mNumControls ∧ key.Covers world n m <;> simp [hm]

/-- Two values make a difference if there is a control to be set. -/
theorem Controls.setRange_eq_iff (world : ControlWorld) (key : ControlKey) (n : ℕ)
    (value value' : Word) (g : Controls) :
    g.setRange world key n value = g.setRange world key n value' ↔
      value = value' ∨ ∀ m < g.mNumControls, ¬ key.Covers world n m := by
  constructor
  · intro heq
    by_contra hne
    rw [not_or] at hne
    push Not at hne
    obtain ⟨hvalue, m, hm, hcovers⟩ := hne
    have hat := congrFun (congrArg Controls.mControls heq) m
    simp only [setRange, if_pos (And.intro hm hcovers)] at hat
    exact hvalue hat
  · rintro (rfl | hnone)
    · rfl
    · have hout : ∀ m, ¬ (m < g.mNumControls ∧ key.Covers world n m) :=
        fun m hm => hnone m hm.1 hm.2
      simp only [setRange, if_neg (hout _)]

/-- The second value of a single triple is zero. -/
theorem loopFills_single (h : w.IsTree) (hnode : node ∈ w.mNodeLib) (a : FillArg)
    (hmsg : msg.Before (fillTags [a]) (fillData [a])) :
    LoopFills fpu w world node [a] msg graphs ↔ ∀ s, w.SynthOf node s →
      a.value.read fpu = 0#32 ∨
        ∀ m < (graphs s).mNumControls, ¬ a.key.read.Covers (world s) a.count.toInt.toNat m := by
  have hrun : nFillLoop fpu w world node 2 msg graphs = _ := nFillLoop_single a hmsg 0
  -- both loops over the range, one after the other
  have hdone : Done _ (w.SynthOf node) graphs (fillSet w world node a.key.read a.count 0#32
      (fillSet w world node a.key.read a.count (a.value.read fpu) graphs)) :=
    Done.trans (fillSet_done h hnode a.key.read a.count (a.value.read fpu) graphs)
      (fillSet_done h hnode a.key.read a.count 0#32 _)
  simp only [Controls.setRange_setRange] at hdone
  constructor
  · rintro ⟨turns, graphs', hturns, hfill⟩ s hs
    have hturns' := nFillLoop_add fpu w world node hturns 2
    have hrun' := nFillLoop_add fpu w world node hrun turns
    rw [Nat.add_comm, hturns'] at hrun'
    have hsame := congrArg Prod.snd (Option.some.inj hrun')
    apply (Controls.setRange_eq_iff ..).mp
    calc (graphs s).fill fpu (world s) a
        = graphs' s := ((hfill s).1 hs).symm
      _ = _ := congrFun hsame s
      _ = _ := (hdone s).1 hs
  · intro hall
    refine ⟨2, _, hrun, ?_⟩
    intro s
    refine ⟨fun hs => ?_, (hdone s).2⟩
    rw [(hdone s).1 hs]
    exact ((Controls.setRange_eq_iff ..).mpr (hall s hs)).symm

end LoopFills

/-- The command is the loop behind the node. -/
theorem fillsAll_iff_loop {fpu : FloatUnit} {w : World} {world : NodeID → ControlWorld}
    {node : NodeID} {args : List FillArg} {it msg : MsgIter} {graphs : Graphs}
    (hget : msgGetNode fpu w it = some (some node, msg)) :
    FillsAll fpu w world node args msg.count it graphs ↔
      LoopFills fpu w world node args msg graphs := by
  have hmeth : ∀ turns, methNFill fpu w world turns it graphs =
      nFillLoop fpu w world node turns msg graphs := by
    intro turns
    unfold methNFill
    rw [hget]
    rfl
  unfold FillsAll LoopFills
  simp only [hmeth]

/-- `/n_fill` does what its triples ask for exactly when there is at most one of them, and that
one sets its controls to zero or there are none to set. -/
theorem fillsAll_iff (fpu : FloatUnit) (w : World) (world : NodeID → ControlWorld)
    (node : NodeID) (args : List FillArg) (it msg : MsgIter) (graphs : Graphs) (h : w.IsTree)
    (hnode : node ∈ w.mNodeLib) (hget : msgGetNode fpu w it = some (some node, msg))
    (hmsg : msg.Before (fillTags args) (fillData args)) :
    FillsAll fpu w world node args msg.count it graphs ↔
      args = [] ∨ ∃ a, args = [a] ∧ ∀ s, w.SynthOf node s →
        a.value.read fpu = 0#32 ∨
          ∀ m < (graphs s).mNumControls, ¬ a.key.read.Covers (world s) a.count.toInt.toNat m := by
  rw [fillsAll_iff_loop hget]
  match args, hmsg with
  | [], hmsg => exact ⟨fun _ => .inl rfl, fun _ => loopFills_nil hmsg⟩
  | [a], hmsg =>
    rw [loopFills_single h hnode a hmsg]
    constructor
    · exact fun hall => .inr ⟨a, rfl, hall⟩
    · rintro (hnil | ⟨a', ha', hall⟩)
      · cases hnil
      · cases ha'
        exact hall
  | a :: b :: args, hmsg =>
    constructor
    · exact fun hfills => absurd hfills (not_loopFills_more a b hmsg)
    · rintro (hnil | ⟨a', ha', -⟩)
      · cases hnil
      · cases ha'

/-! ## One triple for the root group -/

/-- `/n_fill 0 0 1 n`. -/
def oneTriple (n : Word) : FillArg := ⟨.index 0#32, 1#32, .int n⟩

/-- The synths have one control, which is 1. -/
def oneControl : Graphs := fun _ => .init 1 fun _ => 0x3f800000#32

theorem reads_oneTriple (n : Word) : ∃ it msg : MsgIter,
    openMessage (packetOf "/n_fill" [.int 0#32, .int 0#32, .int 1#32, .int n]) = some it ∧
    msgGetNode zeroOne NOrder.oneSynth it = some (some 0#32, msg) ∧
    msg.Before (fillTags [oneTriple n]) (fillData [oneTriple n]) := by
  rcases openMessage_ofValues (.ofString "/n_fill") [.int 0#32, .int 0#32, .int 1#32, .int n] rfl
    with ⟨packet, it, hp, hopen, hat, -⟩
  refine ⟨it, (it.skip 4).next, ?_, ?_, ?_⟩
  · unfold packetOf
    rw [hp]
    exact hopen
  · rw [msgGetNode_at hat]
    rfl
  · exact (hat.advance (chr 'i') rfl).before

theorem fillsAll_iff_zero : ∃ it msg : MsgIter,
    openMessage (packetOf "/n_fill" [.int 0#32, .int 0#32, .int 1#32, .int 0#32]) = some it ∧
    FillsAll zeroOne NOrder.oneSynth (fun _ => wideWorld) 0#32 [oneTriple 0#32] msg.count it
      oneControl := by
  obtain ⟨it, msg, hopen, hget, hmsg⟩ := reads_oneTriple 0#32
  refine ⟨it, msg, hopen, ?_⟩
  apply (fillsAll_iff zeroOne NOrder.oneSynth (fun _ => wideWorld) 0#32 [oneTriple 0#32] it msg
    oneControl NOrder.isTree_oneSynth NOrder.root_mem_oneSynth hget hmsg).mpr
  exact .inr ⟨_, rfl, fun s _ => .inl rfl⟩

/-- The synth's control is 1, is set to 1, and ends up 0. -/
theorem not_fillsAll_one :
    ¬ ∀ (fpu : FloatUnit) (w : World) (world : NodeID → ControlWorld) (node : NodeID)
      (args : List FillArg) (it msg : MsgIter) (graphs : Graphs), w.IsTree → node ∈ w.mNodeLib →
      msgGetNode fpu w it = some (some node, msg) → msg.Before (fillTags args) (fillData args) →
      FillsAll fpu w world node args msg.count it graphs := by
  intro hall
  obtain ⟨it, msg, -, hget, hmsg⟩ := reads_oneTriple 1#32
  have hfills := hall zeroOne NOrder.oneSynth (fun _ => wideWorld) 0#32 [oneTriple 1#32] it msg
    oneControl NOrder.isTree_oneSynth NOrder.root_mem_oneSynth hget hmsg
  rw [fillsAll_iff_loop hget, loopFills_single NOrder.isTree_oneSynth NOrder.root_mem_oneSynth _
    hmsg] at hfills
  have hsynth : NOrder.oneSynth.SynthOf 0#32 1#32 :=
    ⟨by decide, by decide, .single (by decide)⟩
  rcases hfills 1#32 hsynth with hzero | hnone
  · exact absurd hzero (by decide)
  · exact hnone 0 (by decide) (by decide)

end PoopWorms.Server
