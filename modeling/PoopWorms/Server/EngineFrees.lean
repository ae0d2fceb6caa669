import PoopWorms.Server.Engine
import PoopWorms.Server.Listed

/-!
# Freeing nodes in a cycle

`Node_Delete`, `Group_DeleteAll` and `Group_DeepFreeGraphs` on a tree follow no pointer of a
node that is gone. They take a set of nodes out of the tree that has, with each node, all
below it.
-/

namespace PoopWorms.Server

open Forest LinkedList World

namespace Engine

variable {e e' e₁ e₂ : Engine} {kids : NodeID → List NodeID} {g n p s : NodeID}
  {l l₁ l₂ a all b below F F' : List NodeID}

/-- The nodes of `F` have been freed. -/
structure Freed (e : Engine) (F : List NodeID) (e' : Engine) : Prop where
  stack : e'.stack = e.stack
  table : ∀ n, n ∈ e'.world.mNodeLib ↔ n ∈ e.world.mNodeLib ∧ n ∉ F
  group : ∀ n, (e'.world.mNode n).mIsGroup = (e.world.mNode n).mIsGroup
  log : ∃ events, e'.log = e.log ++ events ∧ ∀ event, event ∈ events ↔ ∃ n ∈ F, event = .freed n
  kept : ∀ n ∉ F, e'.graph n = e.graph n
  gone : ∀ n ∈ F, e'.graph n =
    if (e.world.mNode n).mIsGroup then e.graph n else (e.graph n).graphDtor

theorem Freed.refl (e : Engine) : Freed e [] e where
  stack := rfl
  table n := by simp
  group n := rfl
  log := ⟨[], (List.append_nil _).symm, by simp⟩
  kept n _ := rfl
  gone n hn := absurd hn List.not_mem_nil

theorem Freed.congr (h : Freed e F e') (hF : ∀ n, n ∈ F ↔ n ∈ F') : Freed e F' e' where
  stack := h.stack
  table n := by rw [h.table n, hF n]
  group := h.group
  log := by
    obtain ⟨events, hlog, hevents⟩ := h.log
    refine ⟨events, hlog, fun event => ?_⟩
    rw [hevents event]
    simp only [hF]
  kept n hn := h.kept n (mt (hF n).mp hn)
  gone n hn := h.gone n ((hF n).mpr hn)

theorem Freed.trans (h₁ : Freed e F e₁) (h₂ : Freed e₁ F' e₂) (hdisjoint : ∀ n ∈ F, n ∉ F') :
    Freed e (F ++ F') e₂ where
  stack := h₂.stack.trans h₁.stack
  table n := by
    rw [h₂.table n, h₁.table n, List.mem_append, not_or, and_assoc]
  group n := (h₂.group n).trans (h₁.group n)
  log := by
    obtain ⟨events₁, hlog₁, hevents₁⟩ := h₁.log
    obtain ⟨events₂, hlog₂, hevents₂⟩ := h₂.log
    refine ⟨events₁ ++ events₂, by rw [hlog₂, hlog₁, List.append_assoc], fun event => ?_⟩
    rw [List.mem_append, hevents₁, hevents₂]
    simp only [List.mem_append, or_and_right, exists_or]
  kept n hn := by
    rw [List.mem_append, not_or] at hn
    rw [h₂.kept n hn.2, h₁.kept n hn.1]
  gone n hn := by
    by_cases hn₁ : n ∈ F
    · rw [h₂.kept n (hdisjoint n hn₁), h₁.gone n hn₁]
    · rw [h₂.gone n ((List.mem_append.mp hn).resolve_left hn₁), h₁.kept n hn₁, h₁.group n]

/-- What is done to a world on the side does not matter to those who only look at the table. -/
theorem Freed.of_world {w : World} (h : Freed { e with world := w } F e')
    (hlib : w.mNodeLib = e.world.mNodeLib)
    (hgroup : ∀ n, (w.mNode n).mIsGroup = (e.world.mNode n).mIsGroup) : Freed e F e' where
  stack := h.stack
  table n := by rw [h.table n, hlib]
  group n := (h.group n).trans (hgroup n)
  log := h.log
  kept := h.kept
  gone n hn := by rw [h.gone n hn, hgroup n]

/-! ## One node -/

theorem touch_eq (hn : n ∈ e.world.mNodeLib) : e.touch n = some (e.world.mNode n) := if_pos hn

theorem touchSome_eq {node : Option NodeID} (hnode : ∀ n, node = some n → n ∈ e.world.mNodeLib) :
    e.touchSome node = some () := by
  cases node with
  | some n =>
    show (e.touch n).map _ = _
    rw [touch_eq (hnode n rfl)]
    rfl
  | none => rfl

/-- All pointers of a node lead to nodes of the table. -/
structure Sides (w : World) (n : NodeID) : Prop where
  parent : ∀ m, (w.mNode n).mParent = some m → m ∈ w.mNodeLib
  prev : ∀ m, (w.mNode n).mPrev = some m → m ∈ w.mNodeLib
  next : ∀ m, (w.mNode n).mNext = some m → m ∈ w.mNodeLib
  head : (w.mNode n).mIsGroup → ∀ m, (w.mNode n).mHead = some m → m ∈ w.mNodeLib
  tail : (w.mNode n).mIsGroup → ∀ m, (w.mNode n).mTail = some m → m ∈ w.mNodeLib

/-- A node that has no neighbours, and no children. -/
theorem Sides.of_unlinked {w : World} (hsides : (w.mNode n).mParent = none ∧
      (w.mNode n).mPrev = none ∧ (w.mNode n).mNext = none)
    (hends : (w.mNode n).mIsGroup → (w.mNode n).mHead = none ∧ (w.mNode n).mTail = none) :
    Sides w n := by
  obtain ⟨hparent, hprev, hnext⟩ := hsides
  constructor
  · intro m hm
    rw [hparent] at hm
    cases hm
  · intro m hm
    rw [hprev] at hm
    cases hm
  · intro m hm
    rw [hnext] at hm
    cases hm
  · intro hgroup m hm
    rw [(hends hgroup).1] at hm
    cases hm
  · intro hgroup m hm
    rw [(hends hgroup).2] at hm
    cases hm

theorem Sides.of_listed {w : World} (h : Listed w kids) (hn : n ∈ w.mNodeLib) : Sides w n := by
  have hsides : ∀ m, (w.mNode n).mParent = some m ∨ (w.mNode n).mPrev = some m ∨
      (w.mNode n).mNext = some m → m ∈ w.mNodeLib := by
    intro m hm
    rcases h.cut_or_unlinked hn with ⟨p, l₁, l₂, hkids⟩ | ⟨hparent, hprev, hnext⟩
    · obtain ⟨hparent, hprev, hnext⟩ := h.toTree.neighbours hkids
      rw [hparent, hprev, hnext] at hm
      rcases hm with hm | hm | hm
      · exact Option.some.inj hm ▸ (h.group p (by simp [hkids])).1
      · exact (h.mem p m (by simp [hkids, List.mem_of_getLast? hm])).1
      · exact (h.mem p m (by simp [hkids, List.mem_of_head? hm])).1
    · rw [hparent, hprev, hnext] at hm
      simp at hm
  constructor
  · exact fun m hm => hsides m (.inl hm)
  · exact fun m hm => hsides m (.inr (.inl hm))
  · exact fun m hm => hsides m (.inr (.inr hm))
  · intro hgroup m hm
    rw [(h.ends n hn hgroup).1] at hm
    exact (h.mem n m (List.mem_of_head? hm)).1
  · intro hgroup m hm
    rw [(h.ends n hn hgroup).2] at hm
    exact (h.mem n m (List.mem_of_getLast? hm)).1

theorem nodeStateMsg_eq (hn : n ∈ e.world.mNodeLib) (hsides : Sides e.world n) :
    e.nodeStateMsg n = some () := by
  unfold nodeStateMsg
  rw [touch_eq hn]
  simp only [Option.bind_eq_bind, Option.bind_some]
  split_ifs with hnegative hgroup
  · rfl
  · rw [touchSome_eq hsides.parent, touchSome_eq hsides.prev, touchSome_eq hsides.next]
    simp only [Option.bind_some]
    rw [touchSome_eq (hsides.head hgroup), touchSome_eq (hsides.tail hgroup)]
    rfl
  · rw [touchSome_eq hsides.parent, touchSome_eq hsides.prev, touchSome_eq hsides.next]
    rfl

theorem nodeRemove_eq_some (hn : n ∈ e.world.mNodeLib) (hsides : Sides e.world n) :
    e.nodeRemove n = some { e with world := e.world.nodeRemove n } := by
  have hor : ∀ side : Option NodeID, (∀ m, side = some m → m ∈ e.world.mNodeLib) →
      ∀ m, side.or (e.world.mNode n).mParent = some m → m ∈ e.world.mNodeLib := by
    intro side hside m hm
    cases side with
    | some x => exact hside m hm
    | none => exact hsides.parent m hm
  unfold Engine.nodeRemove
  rw [touch_eq hn]
  simp only [Option.bind_eq_bind, Option.bind_some]
  rw [touchSome_eq (hor _ hsides.prev), touchSome_eq (hor _ hsides.next)]
  rfl

theorem nodeDtor_eq_some (hn : n ∈ e.world.mNodeLib) (hsides : Sides e.world n) :
    e.nodeDtor n = some ({ e with world := e.world.nodeDtor n }.record (.freed n)) := by
  unfold Engine.nodeDtor
  rw [nodeStateMsg_eq hn hsides]
  simp only [Option.bind_eq_bind, Option.bind_some]
  rw [nodeRemove_eq_some hn hsides]
  rfl

theorem freed_nodeDtor (e : Engine) (n : NodeID) (f : Graph → Graph)
    (hf : f (e.graph n) = if (e.world.mNode n).mIsGroup then e.graph n else (e.graph n).graphDtor) :
    Freed e [n] ({ e.modifyGraph n f with world := e.world.nodeDtor n }.record (.freed n)) where
  stack := rfl
  table m := by
    show m ∈ (e.world.nodeRemove n).mNodeLib.erase n ↔ _
    rw [((sameTable_refl e.world).nodeRemove n).table, Finset.mem_erase, List.mem_singleton,
      and_comm]
  group m := ((sameTable_refl e.world).nodeRemove n).group m
  log := ⟨[.freed n], rfl, by simp⟩
  kept m hm := Function.update_of_ne (by simpa using hm) ..
  gone m hm := by
    obtain rfl := List.mem_singleton.mp hm
    exact (Function.update_self ..).trans hf

/-- The end of `Group_Dtor`. -/
theorem nodeDtor_freed (hn : n ∈ e.world.mNodeLib) (hsides : Sides e.world n)
    (hgroup : (e.world.mNode n).mIsGroup) :
    ∃ e', e.nodeDtor n = some e' ∧ e'.world = e.world.nodeDtor n ∧ Freed e [n] e' := by
  have hfreed := freed_nodeDtor e n id (by rw [if_pos hgroup]; rfl)
  have hsame : e.modifyGraph n id = e := by
    unfold modifyGraph
    rw [id, Function.update_eq_self]
  rw [hsame] at hfreed
  exact ⟨_, nodeDtor_eq_some hn hsides, rfl, hfreed⟩

theorem graphDtor_freed (hn : n ∈ e.world.mNodeLib) (hsides : Sides e.world n)
    (hsynth : (e.world.mNode n).mIsGroup = false) :
    ∃ e', e.graphDtor n = some e' ∧ e'.world = e.world.nodeDtor n ∧ Freed e [n] e' :=
  ⟨_, nodeDtor_eq_some (e := e.modifyGraph n Graph.graphDtor) hn hsides, rfl,
    freed_nodeDtor e n Graph.graphDtor (by rw [if_neg (by simp [hsynth])])⟩

/-! ## All below a group -/

/-- The loop of `Group_DeleteAll` frees the forest below the children that it visits. -/
theorem deleteFrom_freed {q : Option NodeID} (hspans : Spans kids l a) (hnd : a.Nodup) (fuel : ℕ)
    (hfuel : a.length < fuel) (h0 : 0#32 ∉ a) (hlib : ∀ x ∈ a, x ∈ e.world.mNodeLib)
    (hlinked : Linked (fun n => (e.world.mNode n).mPrev) (fun n => (e.world.mNode n).mNext) q l none)
    (hgroup : ∀ x ∈ a, (e.world.mNode x).mIsGroup → (e.world.mNode x).mHead = (kids x).head? ∧
      Linked (fun n => (e.world.mNode n).mPrev) (fun n => (e.world.mNode n).mNext) none (kids x) none)
    (hsynth : ∀ x ∈ a, (e.world.mNode x).mIsGroup = false → kids x = []) :
    ∃ e', deleteFrom fuel e l.head? = some e' ∧ e'.world = e.world.freeAll a ∧ Freed e a e' := by
  induction hspans generalizing e q fuel with
  | nil =>
    cases fuel with
    | zero => simp at hfuel
    | succ fuel => exact ⟨e, rfl, (freeAll_nil _).symm, .refl e⟩
  | @cons x xs below rest hbelow hrest ihbelow ihrest =>
    cases fuel with
    | zero => simp at hfuel
    | succ fuel =>
      rw [List.nodup_cons, List.nodup_append] at hnd
      obtain ⟨hx, hndBelow, hndRest, hdisjoint⟩ := hnd
      rw [List.mem_append, not_or] at hx
      rw [List.length_cons, List.length_append] at hfuel
      obtain ⟨-, hnext, hlinkedRest⟩ := hlinked
      have hnext' : (e.world.mNode x).mNext = xs.head? := by simpa using hnext
      have hxlib := hlib x List.mem_cons_self
      have hx0 : x ≠ 0#32 := by
        rintro rfl
        exact h0 List.mem_cons_self
      have hunlink : ∀ y, ((e.world.unlink x).mNode y).mIsGroup = (e.world.mNode y).mIsGroup := by
        intro y
        exact ((sameTable_refl e.world).unlink x).group y
      -- the first child goes, with all below it
      obtain ⟨e₁, hturn, hworld₁, hfreed₁⟩ : ∃ e₁, (if (e.world.mNode x).mIsGroup then do
            let e ← deleteFrom fuel { e with world := e.world.unlink x } (e.world.mNode x).mHead
            { e with
              world := e.world.modify x fun g => { g with mHead := none, mTail := none } }.nodeDtor x
          else ({ e with world := e.world.unlink x } : Engine).graphDtor x) = some e₁ ∧
          e₁.world = e.world.freeAll (x :: below) ∧ Freed e (x :: below) e₁ := by
        cases hisGroup : (e.world.mNode x).mIsGroup with
        | true =>
          obtain ⟨hhead, hkids⟩ := hgroup x List.mem_cons_self hisGroup
          have hsub : ∀ y ∈ below, (e.world.unlink x).mNode y = e.world.mNode y := by
            intro y hy
            apply mNode_unlink_of_ne
            rintro rfl
            exact hx.1 hy
          have hkidsSub : ∀ y ∈ below, ∀ z ∈ kids y, z ∈ below :=
            fun y hy z hz => hbelow.mem_of_kid hy hz
          obtain ⟨e₂, hloop, hworld₂, hfreed₂⟩ := ihbelow
            (e := { e with world := e.world.unlink x }) (q := none) hndBelow fuel (by omega)
            (fun hmem => h0 (by simp [hmem])) (fun y hy => hlib y (by simp [hy]))
            (hkids.congr (fun y hy => by rw [hsub y (hbelow.mem_of_root hy)])
              (fun y hy => by rw [hsub y (hbelow.mem_of_root hy)]))
            (fun y hy hy' => by
              rw [hsub y hy] at hy' ⊢
              obtain ⟨hyhead, hylinked⟩ := hgroup y (by simp [hy]) hy'
              exact ⟨hyhead, hylinked.congr
                (fun z hz => by rw [hsub z (hkidsSub y hy z hz)])
                (fun z hz => by rw [hsub z (hkidsSub y hy z hz)])⟩)
            (fun y hy hy' => by
              rw [hsub y hy] at hy'
              exact hsynth y (by simp [hy]) hy')
          have hself : e₂.world.mNode x =
              { e.world.mNode x with mPrev := none, mNext := none, mParent := none } := by
            rw [hworld₂, mNode_freeAll hx.1, mNode_unlink_self]
          have hself' : (e₂.world.modify x fun g =>
              { g with mHead := none, mTail := none }).mNode x =
              { e.world.mNode x with
                mPrev := none, mNext := none, mParent := none, mHead := none, mTail := none } := by
            rw [mNode_modify, if_pos rfl, hself]
          have hxlib₂ : x ∈ e₂.world.mNodeLib := (hfreed₂.table x).mpr ⟨hxlib, hx.1⟩
          obtain ⟨e₃, hdtor, hworld₃, hfreed₃⟩ := nodeDtor_freed
            (e := { e₂ with
              world := e₂.world.modify x fun g => { g with mHead := none, mTail := none } })
            hxlib₂ (.of_unlinked (by rw [hself']; simp) (by rw [hself']; simp))
            (by rw [hself']; exact hisGroup)
          refine ⟨e₃, ?_, ?_, ?_⟩
          · rw [if_pos rfl, hhead, hloop]
            exact hdtor
          · rw [hworld₃, hworld₂]
            exact nodeDtor_group hisGroup hx.1
          · have hclear : SameTable e₂.world (e₂.world.modify x fun g =>
                { g with mHead := none, mTail := none }) := by
              apply SameTable.modify (sameTable_refl _)
              intro node
              rfl
            have hapart : ∀ y ∈ below, y ∉ [x] := by
              intro y hy
              rw [List.mem_singleton]
              rintro rfl
              exact hx.1 hy
            have hboth := hfreed₂.trans (hfreed₃.of_world hclear.table hclear.group) hapart
            apply (hboth.of_world rfl hunlink).congr
            intro y
            simp [or_comm]
        | false =>
          have hleaf := hsynth x List.mem_cons_self hisGroup
          rw [hleaf] at hbelow
          cases hbelow
          obtain ⟨e₁, hdtor, hworld₁, hfreed₁⟩ := graphDtor_freed
            (e := { e with world := e.world.unlink x }) hxlib
            (.of_unlinked (by simp [mNode_unlink_self]) (by simp [mNode_unlink_self, hisGroup]))
            ((hunlink x).trans hisGroup)
          refine ⟨e₁, ?_, ?_, hfreed₁.of_world rfl hunlink⟩
          · rw [if_neg (by simp)]
            exact hdtor
          · rw [hworld₁]
            exact nodeDtor_synth hisGroup
      -- the rest of the loop
      have hfar : ∀ y ∈ rest, e₁.world.mNode y = e.world.mNode y := by
        intro y hy
        rw [hworld₁]
        apply mNode_freeAll
        rw [List.mem_cons, not_or]
        exact ⟨fun heq => hx.2 (heq ▸ hy), fun hmem => hdisjoint y hmem y hy rfl⟩
      have hkidsRest : ∀ y ∈ rest, ∀ z ∈ kids y, z ∈ rest :=
        fun y hy z hz => hrest.mem_of_kid hy hz
      have hapart : ∀ y ∈ x :: below, y ∉ rest := by
        intro y hy hyrest
        rcases List.mem_cons.mp hy with rfl | hy
        · exact hx.2 hyrest
        · exact hdisjoint y hy y hyrest rfl
      obtain ⟨e₂, hloop, hworld₂, hfreed₂⟩ := ihrest (e := e₁) (q := some x) hndRest fuel
        (by omega) (fun hmem => h0 (by simp [hmem]))
        (fun y hy => (hfreed₁.table y).mpr ⟨hlib y (by simp [hy]), fun hmem => hapart y hmem hy⟩)
        (hlinkedRest.congr (fun y hy => by rw [hfar y (hrest.mem_of_root hy)])
          (fun y hy => by rw [hfar y (hrest.mem_of_root hy)]))
        (fun y hy hy' => by
          rw [hfar y hy] at hy' ⊢
          obtain ⟨hyhead, hylinked⟩ := hgroup y (by simp [hy]) hy'
          exact ⟨hyhead, hylinked.congr
            (fun z hz => by rw [hfar z (hkidsRest y hy z hz)])
            (fun z hz => by rw [hfar z (hkidsRest y hy z hz)])⟩)
        (fun y hy hy' => by
          rw [hfar y hy] at hy'
          exact hsynth y (by simp [hy]) hy')
      refine ⟨e₂, ?_, ?_, hfreed₁.trans hfreed₂ hapart⟩
      · rw [List.head?_cons, deleteFrom, touch_eq hxlib]
        simp only [Option.bind_eq_bind, Option.bind_some, if_neg hx0]
        simp only [Option.bind_eq_bind] at hturn
        rw [hturn, Option.bind_some, hnext', hloop]
      · rw [hworld₂, hworld₁, freeAll_freeAll, List.cons_append]

section Listed

variable (h : Listed e.world kids)

include h

theorem groupDeleteAll_freed (hg : g ∈ e.world.mNodeLib) (hgroup : (e.world.mNode g).mIsGroup)
    (hb : Spans kids (kids g) b) :
    ∃ e', e.groupDeleteAll g = some e' ∧ Freed e b e' ∧ Listed e'.world (without kids b) := by
  obtain ⟨hgb, hndb⟩ := List.nodup_cons.mp (h.toTree.nodup_below hb)
  have hlen := h.toTree.length_below_le hb hndb
  have hhead := (h.ends g hg hgroup).1
  have hbelow : ∀ x ∈ b, x ∈ e.world.mNodeLib ∧ x ≠ 0#32 := fun x hx => h.toTree.mem_of_below hb hx
  obtain ⟨e₁, hloop, hworld₁, hfreed₁⟩ := deleteFrom_freed hb hndb (2 * e.world.mNodeLib.card + 1)
    (by omega) (fun hmem => (hbelow _ hmem).2 rfl) (fun x hx => (hbelow x hx).1) (h.linked g)
    (fun x hx hxgroup => ⟨(h.ends x (hbelow x hx).1 hxgroup).1, h.linked x⟩)
    (fun x _ hsynth => h.toTree.kids_eq_nil_of_synth hsynth)
  have hg₁ : g ∈ e₁.world.mNodeLib := (hfreed₁.table g).mpr ⟨hg, hgb⟩
  have hlisted := h.groupDeleteAll hg hgroup hb
  rw [groupDeleteAll_eq_freeAll h.toTree hb hg hgroup hndb, ← hworld₁] at hlisted
  have hclear : SameTable e₁.world (e₁.world.modify g fun g =>
      { g with mHead := none, mTail := none }) := by
    apply SameTable.modify (sameTable_refl _)
    intro node
    rfl
  refine ⟨{ e₁ with world := e₁.world.modify g fun g => { g with mHead := none, mTail := none } },
    ?_, ?_, hlisted⟩
  · unfold Engine.groupDeleteAll
    rw [touch_eq hg]
    simp only [Option.bind_eq_bind, Option.bind_some]
    rw [hhead, hloop]
    simp only [Option.bind_some]
    rw [touch_eq hg₁]
    rfl
  · exact ⟨hfreed₁.stack, hfreed₁.table, fun x => (hclear.group x).trans (hfreed₁.group x),
      hfreed₁.log, hfreed₁.kept, hfreed₁.gone⟩

omit h in
/-- What `Node_Delete` takes out is a subtree. -/
theorem closed_below (hb : Spans kids (kids n) b) : Closed kids (n :: b) := by
  intro x hx y hy
  rcases List.mem_cons.mp hx with rfl | hx
  · exact List.mem_cons_of_mem _ (hb.mem_of_root hy)
  · exact List.mem_cons_of_mem _ (hb.mem_of_kid hx hy)

/-- `Node_Delete` takes a node with all that is below it out of the lists. -/
theorem nodeDelete_freed (hn : n ∈ e.world.mNodeLib) (hn0 : n ≠ 0#32)
    (hb : Spans kids (kids n) b) :
    ∃ e', e.nodeDelete n = some e' ∧ Freed e (n :: b) e' ∧
      Listed e'.world (without kids (n :: b)) := by
  have hnb := hb.notMem_below
  unfold Engine.nodeDelete
  rw [touch_eq hn]
  simp only [Option.bind_eq_bind, Option.bind_some, if_neg hn0]
  cases hgroup : (e.world.mNode n).mIsGroup with
  | false =>
    have hleaf := h.toTree.kids_eq_nil_of_synth hgroup
    obtain rfl := hb.unique (show Spans kids (kids n) [] by rw [hleaf]; exact .nil)
    obtain ⟨e', hdtor, hworld, hfreed⟩ := graphDtor_freed hn (.of_listed h hn) hgroup
    refine ⟨e', by rw [if_neg (by simp)]; exact hdtor, hfreed, ?_⟩
    rw [hworld]
    exact h.nodeDtor hn hn0 hleaf
  | true =>
    obtain ⟨e₁, hdelete, hfreed₁, h₁⟩ := groupDeleteAll_freed h hn hgroup hb
    have hn₁ : n ∈ e₁.world.mNodeLib := (hfreed₁.table n).mpr ⟨hn, hnb⟩
    have hgroup₁ := (hfreed₁.group n).trans hgroup
    obtain ⟨e₂, hdtor, hworld₂, hfreed₂⟩ := nodeDtor_freed hn₁ (.of_listed h₁ hn₁) hgroup₁
    -- the group is a leaf now
    have hleaf₁ : without kids b n = [] := by
      rw [without_of_notMem hnb, List.filter_eq_nil_iff]
      intro y hy
      simpa using hb.mem_of_root hy
    have hmem : ∀ y, y ∈ b ++ [n] ↔ y ∈ n :: b := by
      intro y
      simp [or_comm]
    refine ⟨e₂, ?_, ?_, ?_⟩
    · rw [if_pos rfl, hdelete, Option.bind_some, hdtor]
    · apply (hfreed₁.trans hfreed₂ _).congr hmem
      intro y hy
      rw [List.mem_singleton]
      rintro rfl
      exact hnb hy
    · rw [hworld₂, ← without_congr kids hmem, ← without_without]
      exact h₁.nodeDtor hn₁ hn0 hleaf₁

/-- A synth leaves its group and the table in one turn of `Group_DeepFreeGraphs`. -/
theorem removeDelete_freed (hkids : kids p = l₁ ++ s :: l₂)
    (hsynth : (e.world.mNode s).mIsGroup = false) :
    ∃ e', ((e.nodeRemove s).bind fun e => e.nodeDelete s) = some e' ∧ Freed e [s] e' ∧
      Listed e'.world (without kids [s]) := by
  obtain ⟨hs, hs0, -⟩ := h.mem p s (by simp [hkids])
  have hremove := (sameTable_refl e.world).nodeRemove s
  have hself : ((e.world.nodeRemove s).mNode s).mParent = none ∧
      ((e.world.nodeRemove s).mNode s).mPrev = none ∧
      ((e.world.nodeRemove s).mNode s).mNext = none := by
    rw [nodeRemove_eq h.toTree hkids]
    simp [World.eraseAt]
  have hs₁ : s ∈ (e.world.nodeRemove s).mNodeLib := by
    rw [hremove.table]
    exact hs
  have hsynth₁ : ((e.world.nodeRemove s).mNode s).mIsGroup = false :=
    (hremove.group s).trans hsynth
  obtain ⟨e', hdtor, hworld, hfreed⟩ := graphDtor_freed
    (e := { e with world := e.world.nodeRemove s }) hs₁
    (.of_unlinked hself (by simp [hsynth₁])) hsynth₁
  refine ⟨e', ?_, hfreed.of_world hremove.table hremove.group, ?_⟩
  · rw [nodeRemove_eq_some hs (.of_listed h hs), Option.bind_some]
    unfold Engine.nodeDelete
    rw [touch_eq hs₁]
    simp only [Option.bind_eq_bind, Option.bind_some, if_neg hs0]
    rw [hsynth₁, if_neg (by simp), hdtor]
  · rw [hworld, nodeDtor_of_unlinked hself.1 hself.2.1 hself.2.2]
    exact h.nodeDtor hs hs0 (h.toTree.kids_eq_nil_of_synth hsynth)

end Listed

/-- What the loop of `Group_DeepFreeGraphs` takes out: the synths below the children that it
visits. -/
theorem deepFreeFrom_freed {kids₀ : NodeID → List NodeID} (hspans : Spans kids₀ l a)
    (hnd : a.Nodup) {done : List NodeID} (fuel : ℕ) (hfuel : a.length < fuel)
    (h : Listed e.world kids) (hsame : ∀ x ∈ a, kids x = kids₀ x) (hkids : kids g = done ++ l)
    (hga : g ∉ a) :
    ∃ e', deepFreeFrom fuel e l.head? = some e' ∧
      Freed e (a.filter fun x => !(e.world.mNode x).mIsGroup) e' ∧
      Listed e'.world (without kids (a.filter fun x => !(e.world.mNode x).mIsGroup)) := by
  induction hspans generalizing e kids g done fuel with
  | nil =>
    cases fuel with
    | zero => simp at hfuel
    | succ fuel =>
      refine ⟨e, rfl, .refl e, ?_⟩
      rw [List.filter_nil, without_nil]
      exact h
  | @cons x xs below rest hbelow hrest ihbelow ihrest =>
    cases fuel with
    | zero => simp at hfuel
    | succ fuel =>
      rw [List.nodup_cons, List.nodup_append] at hnd
      obtain ⟨hx, hndBelow, hndRest, hdisjoint⟩ := hnd
      rw [List.mem_append, not_or] at hx
      rw [List.mem_cons, List.mem_append, not_or, not_or] at hga
      rw [List.length_cons, List.length_append] at hfuel
      have hnext := (h.toTree.neighbours hkids).2.2
      have hxlib := (h.mem g x (by simp [hkids])).1
      have hrestKid : ∀ y ∈ rest, ∀ z ∈ kids y, z ∈ rest := by
        intro y hy z hz
        rw [hsame y (by simp [hy])] at hz
        exact hrest.mem_of_kid hy hz
      rw [List.head?_cons, deepFreeFrom, touch_eq hxlib]
      simp only [Option.bind_eq_bind, Option.bind_some]
      rw [hnext]
      cases hisGroup : (e.world.mNode x).mIsGroup with
      | true =>
        -- a group stays, and what is below it is treated alike
        have hhead := (h.ends x hxlib hisGroup).1
        have hsamex := hsame x List.mem_cons_self
        have hbelow' : Spans kids (kids x) below := by
          rw [hsamex]
          exact hbelow.congr fun y hy => hsame y (by simp [hy])
        obtain ⟨e₁, hloop₁, hfreed₁, h₁⟩ := ihbelow hndBelow (g := x) fuel (by omega) h
          (fun y hy => hsame y (by simp [hy])) (hsamex.trans (List.nil_append _).symm) hx.1
        have hfar : ∀ y, y ≠ x → y ∉ below →
            without kids (below.filter fun x => !(e.world.mNode x).mIsGroup) y = kids y := by
          intro y hyx hyb
          apply without_eq_self
          · exact fun hmem => hyb (List.mem_of_mem_filter hmem)
          · intro z hz hmem
            exact h.toTree.not_below_of_kid hbelow' hyx hyb hz (List.mem_of_mem_filter hmem)
        obtain ⟨e₂, hloop₂, hfreed₂, h₂⟩ := ihrest hndRest (g := g) fuel (by omega) h₁
          (fun y hy => by
            rw [hfar y _ fun hmem => hdisjoint y hmem y hy rfl, hsame y (by simp [hy])]
            rintro rfl
            exact hx.2 hy)
          (show _ = (done ++ [x]) ++ xs by rw [hfar g hga.1 hga.2.1, hkids]; simp) hga.2.2
        have hfilter : ∀ m : List NodeID, m.filter (fun y => !(e₁.world.mNode y).mIsGroup) =
            m.filter fun y => !(e.world.mNode y).mIsGroup := by
          intro m
          simp only [hfreed₁.group]
        rw [hfilter] at hfreed₂ h₂
        rw [without_without] at h₂
        rw [List.filter_cons_of_neg (by simp [hisGroup]), List.filter_append]
        refine ⟨e₂, ?_, hfreed₁.trans hfreed₂ ?_, h₂⟩
        · rw [if_pos rfl, hhead, hsamex, hloop₁, Option.bind_some, hloop₂]
        · intro y hy hy'
          exact hdisjoint y (List.mem_of_mem_filter hy) y (List.mem_of_mem_filter hy') rfl
      | false =>
        obtain ⟨e₁, hturn, hfreed₁, h₁⟩ := removeDelete_freed h hkids hisGroup
        have hkids₁ : without kids [x] g = done ++ xs := by
          have hnd := h.nodup g
          rw [hkids, List.nodup_append, List.nodup_cons] at hnd
          have hcut : done ++ xs = (done ++ x :: xs).filter fun y => !([x] : List NodeID).contains y := by
            rw [List.filter_append, List.filter_cons_of_neg (by simp), ← List.filter_append,
              filter_eq_self_of_notMem]
            intro y hy
            rw [List.mem_singleton]
            rintro rfl
            rcases List.mem_append.mp hy with hy | hy
            · exact hnd.2.2 y hy y List.mem_cons_self rfl
            · exact hnd.2.1.1 hy
          rw [without_of_notMem (by simpa using hga.1), hkids, hcut]
        obtain ⟨e₂, hloop₂, hfreed₂, h₂⟩ := ihrest hndRest (g := g) fuel (by omega) h₁
          (fun y hy => by
            rw [without_eq_self, hsame y (by simp [hy])]
            · rw [List.mem_singleton]
              rintro rfl
              exact hx.2 hy
            · intro z hz
              rw [List.mem_singleton]
              rintro rfl
              exact hx.2 (hrestKid y hy z hz))
          hkids₁ hga.2.2
        have hfilter : ∀ m : List NodeID, m.filter (fun y => !(e₁.world.mNode y).mIsGroup) =
            m.filter fun y => !(e.world.mNode y).mIsGroup := by
          intro m
          simp only [hfreed₁.group]
        have hleaf := h.toTree.kids_eq_nil_of_synth hisGroup
        rw [← hsame x List.mem_cons_self, hleaf] at hbelow
        cases hbelow
        rw [hfilter] at hfreed₂ h₂
        rw [without_without] at h₂
        rw [List.filter_cons_of_pos (by simp [hisGroup]), List.nil_append]
        refine ⟨e₂, ?_, hfreed₁.trans hfreed₂ ?_, h₂⟩
        · rw [if_neg (by simp), hturn, Option.bind_some, hloop₂]
        · intro y hy hy'
          rw [List.mem_singleton] at hy
          subst hy
          exact hx.2 (List.mem_of_mem_filter hy')

/-- `Group_DeepFreeGraphs` takes the synths below the group out. -/
theorem groupDeepFreeGraphs_freed (h : Listed e.world kids) (hg : g ∈ e.world.mNodeLib)
    (hgroup : (e.world.mNode g).mIsGroup) (hb : Spans kids (kids g) b) :
    ∃ e', e.groupDeepFreeGraphs g = some e' ∧
      Freed e (b.filter fun x => !(e.world.mNode x).mIsGroup) e' ∧
      Listed e'.world (without kids (b.filter fun x => !(e.world.mNode x).mIsGroup)) := by
  obtain ⟨hgb, hndb⟩ := List.nodup_cons.mp (h.toTree.nodup_below hb)
  have hlen := h.toTree.length_below_le hb hndb
  unfold Engine.groupDeepFreeGraphs
  rw [touch_eq hg]
  simp only [Option.bind_eq_bind, Option.bind_some]
  rw [(h.ends g hg hgroup).1]
  exact deepFreeFrom_freed hb hndb _ (by omega) h (fun _ _ => rfl) (List.nil_append _).symm hgb

end Engine

end PoopWorms.Server
