import PoopWorms.Server.ArgumentLoopsTheorems

/-!
# The formats of the other argument loops

`/s_new` and `/n_set` with bracketed values, the channels of `/b_allocReadChannel` and
`/b_readChannel` with a completion message behind them, and the dumper.
-/

namespace PoopWorms.Server

open Octets Osc

/-! ## Headers -/

/-- A word argument, of which `geti` reads four bytes. -/
def ArgItem.IsWord : ArgItem → Prop
  | .int _ | .float _ => True
  | .string _ | .mark .. => False

/-- A word in front of `tags` and `data`, or the end of the message. -/
inductive WordArg : List ArgItem → List Byte → List Byte → Prop
  | word {x : ArgItem} (hx : x.IsWord) (tags data : List Byte) : WordArg [x] tags data
  | none : WordArg [] [] []

/-- `n` words, one after the other, unless the message ends first. -/
inductive WordArgs (tags data : List Byte) : ℕ → List ArgItem → Prop
  | zero : WordArgs tags data 0 []
  | succ {n : ℕ} {x items : List ArgItem}
      (hx : WordArg x (itemTags items ++ tags) (itemData items ++ data))
      (h : WordArgs tags data n items) : WordArgs tags data (n + 1) (x ++ items)

/-- How a message names a node: with a number, or with a path and a number. -/
inductive NodeRef (tags data : List Byte) : List ArgItem → Prop
  | id {items : List ArgItem} (h : WordArg items tags data) : NodeRef tags data items
  | path (s : OscString) {items : List ArgItem} (h : WordArg items tags data) :
    NodeRef tags data (.string s :: items)

theorem itemTags_append (xs ys : List ArgItem) : itemTags (xs ++ ys) = itemTags xs ++ itemTags ys :=
  List.map_append

theorem itemData_append (xs ys : List ArgItem) : itemData (xs ++ ys) = itemData xs ++ itemData ys :=
  List.flatMap_append

section Header

variable {fpu : FloatUnit} {W σ : Type} {e : Effects W} {it it₁ : MsgIter}
  {items : List ArgItem} {tags data : List Byte} {P Q : MsgIter → Prop}

theorem WordArg.geti (hword : WordArg items tags data)
    (h : it.Before (itemTags items ++ tags) (itemData items ++ data)) (d : Word) :
    ∃ n it', it.geti fpu d = some (n, it') ∧ it'.Before tags data := by
  cases hword with
  | @word x hx =>
    have hx' : it.Before (x.tag :: tags) (x.data ++ data) := by
      simpa [itemTags, itemData] using h
    have hdata : 0 < x.data.length := by
      cases x with
      | int n => exact Nat.zero_lt_succ 3
      | float bits => exact Nat.zero_lt_succ 3
      | string s => exact absurd hx id
      | mark tag hmark => exact absurd hx id
    have hpos := hx'.remain_pos hdata
    obtain ⟨n, hn⟩ := @MsgIter.Before.geti_item fpu _ _ _ _ hx' (by omega) d
    exact ⟨n, _, hn, hx'.advance⟩
  | none =>
    have hend : it.remain ≤ 0 := by
      rw [h.remain_eq]
      exact Int.le_refl 0
    exact ⟨d, it, if_pos hend, h⟩

/-- The iterator stands in front of `n` words, and then `tags` and `data`. -/
def AtWords (tags data : List Byte) (n : ℕ) (it : MsgIter) : Prop :=
  ∃ items, WordArgs tags data n items ∧
    it.Before (itemTags items ++ tags) (itemData items ++ data)

theorem AtWords.geti {n : ℕ} (h : AtWords tags data (n + 1) it) (d : Word) :
    ∃ v it', it.geti fpu d = some (v, it') ∧ AtWords tags data n it' := by
  obtain ⟨_, hwords, hit⟩ := h
  cases hwords with
  | @succ _ x items hx hwords =>
    have hx' : it.Before (itemTags x ++ (itemTags items ++ tags))
        (itemData x ++ (itemData items ++ data)) := by
      rw [← List.append_assoc, ← List.append_assoc, ← itemTags_append, ← itemData_append]
      exact hit
    obtain ⟨v, it', hv, h'⟩ := @WordArg.geti fpu it x _ _ hx hx' d
    exact ⟨v, it', hv, items, hwords, h'⟩

theorem AtWords.before (h : AtWords tags data 0 it) : it.Before tags data := by
  obtain ⟨_, hwords, hit⟩ := h
  cases hwords
  exact hit

theorem WordArg.nextTagOr_ne (hword : WordArg items tags data)
    (h : it.Before (itemTags items ++ tags) (itemData items ++ data)) :
    ∃ tag, it.nextTagOr (chr 'i') = some tag ∧ tag ≠ chr 's' := by
  cases hword with
  | @word x hx =>
    have hx' : it.Before (x.tag :: tags) (x.data ++ data) := by
      simpa [itemTags, itemData] using h
    refine ⟨x.tag, nextTagOr_eq hx' _, ?_⟩
    intro hs
    obtain ⟨s, rfl⟩ := ArgItem.eq_string hs
    exact hx
  | none => exact ⟨0#8, h.nextTagOr_head, by decide⟩

/-- The reads end before the loop, or they leave the iterator as `P` says. -/
def Opens (fpu : FloatUnit) (r : Reads σ) (it : MsgIter) (P : MsgIter → Prop) : Prop :=
  ∃ it' t, r.exec fpu it = some (it', t) ∧ ∀ s, t = .again s → P it'

theorem opens_again {s : σ} (h : P it) : Opens fpu (.again s) it P :=
  ⟨it, .again s, rfl, fun _ _ => h⟩

theorem opens_elim {o : Option W} {k : W → Reads σ} (h : ∀ w, Opens fpu (k w) it P) :
    Opens fpu (o.elim .leave k) it P := by
  cases o with
  | none => exact ⟨it, .left, rfl, nofun⟩
  | some w => exact h w

theorem opens_geti {d : Word} {k : Word → Reads σ}
    (hget : ∃ n it', it.geti fpu d = some (n, it') ∧ Q it')
    (hk : ∀ n it', Q it' → Opens fpu (k n) it' P) : Opens fpu (.geti d k) it P := by
  obtain ⟨n, it₁, hn, h₁⟩ := hget
  obtain ⟨it', t, hexec, hend⟩ := hk n it₁ h₁
  refine ⟨it', t, ?_, hend⟩
  rw [Reads.exec, hn]
  exact hexec

theorem opens_gets {k : Option (List Byte) → Reads σ} {s : Option (List Byte)}
    (hget : it.gets none = some (s, it₁)) (hk : Opens fpu (k s) it₁ P) :
    Opens fpu (.gets k) it P := by
  obtain ⟨it', t, hexec, hend⟩ := hk
  refine ⟨it', t, ?_, hend⟩
  rw [Reads.exec, hget]
  exact hexec

theorem opens_readInt {w : W} {k : W → Reads σ}
    (hget : ∃ n it', it.geti fpu 0#32 = some (n, it') ∧ Q it')
    (hk : ∀ w it', Q it' → Opens fpu (k w) it' P) : Opens fpu (readInt e w k) it P :=
  opens_geti hget fun _ it' h' => opens_elim fun w => hk w it' h'

theorem opens_readString {w : W} {k : W → Reads σ} {s : List Byte}
    (hget : it.gets none = some (some s, it₁)) (hk : ∀ w, Opens fpu (k w) it₁ P) :
    Opens fpu (readString e w k) it P := by
  have hopens : Opens fpu ((e.act w (.string s)).elim .leave k) it₁ P := opens_elim hk
  exact opens_gets hget hopens

theorem opens_leave : Opens fpu (Reads.leave : Reads σ) it P := ⟨it, .left, rfl, nofun⟩

/-- Without a string in front of it, or without bytes, `gets` gives a null pointer. -/
theorem gets_none (h : it.Before tags data) (hno : tags.headD 0#8 ≠ chr 's' ∨ data = []) :
    ∃ it', it.gets none = some (none, it') := by
  unfold MsgIter.gets
  by_cases hend : it.remain ≤ 0
  · exact ⟨it, if_pos hend⟩
  · have hne : tags.headD 0#8 ≠ chr 's' := by
      apply hno.resolve_right
      intro hnil
      rw [h.remain_eq, hnil] at hend
      exact hend (Int.le_refl 0)
    refine ⟨it.next, ?_⟩
    rw [if_neg hend, if_pos h.isSome_tags, h.nextTag_head]
    exact if_neg hne

theorem opens_readNode (href : NodeRef tags data items)
    (h : it.Before (itemTags items ++ tags) (itemData items ++ data)) {w : W} {k : W → Reads σ}
    (hk : ∀ w it', it'.Before tags data → Opens fpu (k w) it' P) :
    Opens fpu (readNode e w k) it P := by
  cases href with
  | id hword =>
    obtain ⟨tag, htag, hne⟩ := hword.nextTagOr_ne h
    have hopens : Opens fpu (readInt e w k) it P :=
      opens_readInt (hword.geti h 0#32) hk
    obtain ⟨it', t, hexec, hend⟩ := hopens
    refine ⟨it', t, ?_, hend⟩
    rw [readNode, Reads.exec, htag]
    simp only [Option.bind_eq_bind, Option.bind_some, if_neg hne]
    exact hexec
  | @path s items hword =>
    have hs : it.Before (chr 's' :: (itemTags items ++ tags))
        (padded s.1 ++ (itemData items ++ data)) := by
      simpa [itemTags, itemData, ArgItem.tag, ArgItem.data] using h
    have hopens : Opens fpu (.geti 0#32 fun n =>
        ((e.act w (.string s.1)).bind fun w => e.act w (.int n)).elim .leave k)
        ((it.skip (padded s.1).length).next) P :=
      opens_geti (hword.geti hs.advance 0#32) fun _ it' h' => opens_elim fun w => hk w it' h'
    obtain ⟨it', t, hexec, hend⟩ := hopens
    refine ⟨it', t, ?_, hend⟩
    rw [readNode, Reads.exec, nextTagOr_eq hs]
    simp only [Option.bind_eq_bind, Option.bind_some, if_true, hs.gets s.2 none]
    exact hexec

end Header

/-! ## Without type tags -/

section Untagged

variable {fpu : FloatUnit} {σ : Type} {it it' : MsgIter}

theorem geti_tags (htags : it.tags = none) {d v : Word} (h : it.geti fpu d = some (v, it')) :
    it'.tags = none := by
  unfold MsgIter.geti at h
  simp only [htags, Option.isSome_none, Bool.false_eq_true, if_false] at h
  split_ifs at h with hend
  · cases h
    exact htags
  · obtain ⟨value, -, hvalue⟩ := Option.bind_eq_some_iff.mp h
    cases hvalue
    exact htags

theorem getf_tags (htags : it.tags = none) {d v : Word} (h : it.getf fpu d = some (v, it')) :
    it'.tags = none := by
  unfold MsgIter.getf at h
  simp only [htags, Option.isSome_none, Bool.false_eq_true, if_false] at h
  split_ifs at h with hend
  · cases h
    exact htags
  · obtain ⟨value, -, hvalue⟩ := Option.bind_eq_some_iff.mp h
    cases hvalue
    exact htags

theorem gets_tags (htags : it.tags = none) {d s : Option (List Byte)}
    (h : it.gets d = some (s, it')) : it'.tags = none := by
  unfold MsgIter.gets at h
  simp only [htags, Option.isSome_none, Bool.false_eq_true, if_false] at h
  split_ifs at h with hend
  · cases h
    exact htags
  · obtain ⟨value, -, hvalue⟩ := Option.bind_eq_some_iff.mp h
    cases hvalue
    exact htags

/-- No read makes type tags. -/
theorem Reads.exec_tags : ∀ (r : Reads σ) {it it' : MsgIter} {e : TurnEnd σ}, it.tags = none →
    r.exec fpu it = some (it', e) → it'.tags = none
  | leave, it, it', e, htags, h | ended, it, it', e, htags, h | again s, it, it', e, htags, h => by
    cases h
    exact htags
  | geti d k, it, it', e, htags, h => by
    obtain ⟨⟨v, it₁⟩, hget, hk⟩ := Option.bind_eq_some_iff.mp h
    exact exec_tags (k v) (geti_tags htags hget) hk
  | getf k, it, it', e, htags, h => by
    obtain ⟨⟨v, it₁⟩, hget, hk⟩ := Option.bind_eq_some_iff.mp h
    exact exec_tags (k v) (getf_tags htags hget) hk
  | gets k, it, it', e, htags, h => by
    obtain ⟨⟨s, it₁⟩, hget, hk⟩ := Option.bind_eq_some_iff.mp h
    exact exec_tags (k s) (gets_tags htags hget) hk
  | ifString yes no, it, it', e, htags, h => by
    have hne : chr 'i' ≠ chr 's' := by decide
    have htag : it.nextTagOr (chr 'i') = some (chr 'i') := by
      unfold MsgIter.nextTagOr
      rw [htags]
    rw [exec, htag] at h
    simp only [Option.bind_eq_bind, Option.bind_some, if_neg hne] at h
    exact exec_tags no htags h
  | remain k, it, it', e, htags, h => exec_tags (k it.remain) htags h

/-- A word is read. -/
theorem getter_untagged {get : MsgIter → Option (Word × MsgIter)} (hget : Getter get)
    {data : List Byte} (h : it.Untagged data) (hlen : data.length % 4 = 0) :
    ∃ v it', get it = some (v, it') ∧ it'.Untagged (data.drop 4) := by
  by_cases hmore : 4 ≤ data.length
  · obtain ⟨v, hv⟩ := hget.word h hmore
    exact ⟨v, _, hv, h.skip hmore⟩
  · have hnil : data = [] := List.eq_nil_of_length_eq_zero (by omega)
    have hend : it.remain ≤ 0 := by
      rw [h.remain_eq, hnil]
      exact Int.le_refl 0
    obtain ⟨v, hv⟩ := hget.atEnd hend
    refine ⟨v, it, hv, ?_⟩
    rw [hnil] at h ⊢
    exact h

/-- Words are keys and values in turn. -/
theorem argLoop_untagged (world : ControlWorld) (extra : ℕ) : ∀ (turns : ℕ) {it : MsgIter}
    (g : Controls) {data : List Byte}, it.Untagged data → data.length % 4 = 0 →
    data.length < turns → (argLoop fpu (valueTurn fpu world extra) turns it g).isSome
  | turns + 1, it, g, data, h, hlen, hturns => by
    have hremain := h.remain_eq
    rw [argLoop]
    by_cases hmore : 8 ≤ it.remain
    · obtain ⟨index, it₁, hindex, h₁⟩ := getter_untagged (@getter_geti fpu 0#32) h hlen
      have hlen₁ : (data.drop 4).length % 4 = 0 := by
        rw [List.length_drop]
        omega
      obtain ⟨value, it₂, hvalue, h₂⟩ := getter_untagged (@getter_getf fpu 0#32) h₁ hlen₁
      have hkey : getKey fpu it = some (.index index, it₁) := by
        unfold getKey
        rw [h.nextTagOr_eq]
        simp only [Option.bind_eq_bind, Option.bind_some]
        rw [if_neg (by decide), hindex]
        rfl
      have hturn : valueTurn fpu world extra (.index index) ⟨it₁, 0, 0, g⟩ =
          some ⟨it₂, 1, 0, g.store world (.index index) 0 (.set value)⟩ := by
        unfold valueTurn
        rw [h₁.nextTagOr_eq]
        simp only [Option.bind_eq_bind, Option.bind_some, true_or, if_true, hvalue]
        rfl
      obtain ⟨k, rfl⟩ : ∃ k, turns = k + 1 := ⟨turns - 1, by omega⟩
      have hloop := doWhileLoop_last hturn rfl k
      rw [if_pos hmore, hkey]
      simp only [Option.bind_eq_bind, Option.bind_some, hloop]
      have hlen₂ : ((data.drop 4).drop 4).length + 8 = data.length := by
        rw [List.length_drop, List.length_drop]
        omega
      exact argLoop_untagged world extra (k + 1) _ h₂ (by omega) (by omega)
    · rw [if_neg hmore]
      rfl

end Untagged

/-! ## `/n_set` and `/s_new` -/

/-- What `/s_new` reads in front of `tags` and `data`: a name, two numbers and a node. Without a
name it returns. -/
inductive NewHeader (tags data : List Byte) : List ArgItem → Prop
  | name (s : OscString) {words ref : List ArgItem}
      (hwords : WordArgs (itemTags ref ++ tags) (itemData ref ++ data) 2 words)
      (href : NodeRef tags data ref) : NewHeader tags data (.string s :: (words ++ ref))
  | noName (hno : tags.headD 0#8 ≠ chr 's' ∨ data = []) : NewHeader tags data []

/-- A header, and then the arguments; fewer than eight bytes may follow. -/
def TaggedControls (header : List Byte → List Byte → List ArgItem → Prop)
    (payload : List Byte) : Prop :=
  ∃ items args tags data, header (argTags args ++ tags) (argData args ++ data) items ∧
    (∀ b ∈ tags, b ≠ 0#8) ∧ data.length < 8 ∧
    payload = taggedPayload (itemTags items ++ (argTags args ++ tags))
      (itemData items ++ (argData args ++ data))

theorem argTags_ne_zero (args : List ControlArg) : ∀ b ∈ argTags args, b ≠ 0#8 := by
  intro b hb
  obtain ⟨a, -, hb⟩ := List.mem_flatMap.mp hb
  rcases List.mem_cons.mp hb with rfl | hb
  · cases a.key with
    | index n => exact (by decide : chr 'i' ≠ 0#8)
    | name s => exact (by decide : chr 's' ≠ 0#8)
  · exact a.value.tags_ne_zero b hb

section ControlArgs

variable {fpu : FloatUnit} {W : Type} {payload : List Byte} {start : Reads W}

/-- Behind its start, a command goes on with its argument loop. -/
theorem performControlArgs_isSome {turn : ControlKey → ValueLoop → Option ValueLoop} {g : Controls}
    {it it₁ : MsgIter} {e : TurnEnd W} (hinit : MsgIter.init payload.length payload = some it)
    (hexec : start.exec fpu it = some (it₁, e)) (enough : ℕ)
    (hloop : ∀ s, e = .again s → ∀ turns, enough ≤ turns →
      (argLoop fpu turn turns it₁ g).isSome) :
    ∃ enough, ∀ turns, enough ≤ turns →
      (performControlArgs fpu turn turns g payload start).isSome := by
  refine ⟨enough, fun turns hturns => ?_⟩
  rw [performControlArgs, hinit]
  simp only [Option.bind_eq_bind, Option.bind_some, hexec]
  cases e with
  | left => rfl
  | ended => rfl
  | again s =>
    obtain ⟨r, hr⟩ := Option.isSome_iff_exists.mp (hloop s rfl turns hturns)
    simp only [hr, Option.bind_some]
    rfl

theorem performControlArgs_tagged {header : List Byte → List Byte → List ArgItem → Prop}
    (h : TaggedControls header payload)
    (hstart : ∀ {items : List ArgItem} {it : MsgIter} {tags data : List Byte},
      header tags data items → it.Before (itemTags items ++ tags) (itemData items ++ data) →
      Opens fpu start it (·.Before tags data))
    (world : ControlWorld) (extra : ℕ) (g : Controls) :
    ∃ enough, ∀ turns, enough ≤ turns →
      (performControlArgs fpu (valueTurn fpu world extra) turns g payload start).isSome := by
  obtain ⟨items, args, tags, data, hheader, htags, hdata, rfl⟩ := h
  have hnz : ∀ b ∈ itemTags items ++ (argTags args ++ tags), b ≠ 0#8 := by
    intro b hb
    rw [List.mem_append, List.mem_append] at hb
    rcases hb with hb | hb | hb
    · exact itemTags_ne_zero items b hb
    · exact argTags_ne_zero args b hb
    · exact htags b hb
  obtain ⟨it, hinit, hit⟩ := init_taggedPayload hnz (itemData items ++ (argData args ++ data))
  obtain ⟨it₁, e, hexec, hend⟩ := hstart hheader hit
  apply performControlArgs_isSome hinit hexec ((argTags args).length + 1)
  intro s hs turns hturns
  obtain ⟨it₂, hloop⟩ := argLoop_append fpu world extra hdata args g (hend s hs) turns hturns
  rw [hloop]
  rfl

theorem performControlArgs_untagged (h : UntaggedArgs payload)
    (hstart : ∀ {it : MsgIter} {n : ℕ}, it.Untagged payload → Stands false it n →
      start.Reaches fpu false it n)
    (world : ControlWorld) (extra : ℕ) (g : Controls) :
    ∃ enough, ∀ turns, enough ≤ turns →
      (performControlArgs fpu (valueTurn fpu world extra) turns g payload start).isSome := by
  obtain ⟨it, hinit, hit⟩ := h.init
  obtain ⟨it₁, e, hexec, hend⟩ := hstart hit (h.stands hit nofun)
  have htags := Reads.exec_tags start hit.tags hexec
  apply performControlArgs_isSome hinit hexec (payload.length + 1)
  intro s hs turns hturns
  obtain ⟨m, hm, hle, -⟩ := hend s hs
  cases hm with
  | tagged items tail htail hbefore =>
    exact absurd htags (Option.isSome_iff_ne_none.mp hbefore.isSome_tags)
  | untagged _ data hwords hlen hlast =>
    exact argLoop_untagged world extra turns g hwords (by omega) (by omega)

theorem opens_nSetStart {e : Effects W} {w : W} {items : List ArgItem} {it : MsgIter}
    {tags data : List Byte} (hitems : NodeRef tags data items)
    (h : it.Before (itemTags items ++ tags) (itemData items ++ data)) :
    Opens fpu (nSetStart e w) it (·.Before tags data) :=
  opens_readNode hitems h fun _ _ h' => opens_again h'

theorem opens_sNewStart {e : Effects W} {w : W} {items : List ArgItem} {it : MsgIter}
    {tags data : List Byte} (hitems : NewHeader tags data items)
    (h : it.Before (itemTags items ++ tags) (itemData items ++ data)) :
    Opens fpu (sNewStart e w) it (·.Before tags data) := by
  cases hitems with
  | @name s words ref hwords href =>
    have hname : it.Before (chr 's' :: (itemTags words ++ (itemTags ref ++ tags)))
        (padded s.1 ++ (itemData words ++ (itemData ref ++ data))) := by
      simpa [itemTags, itemData, ArgItem.tag, ArgItem.data] using h
    have h₀ : AtWords (itemTags ref ++ tags) (itemData ref ++ data) 2
        ((it.skip (padded s.1).length).next) := ⟨words, hwords, hname.advance⟩
    apply opens_readString (hname.gets s.2 none)
    intro w
    apply opens_readInt (h₀.geti 0#32)
    intro w it₁ h₁
    apply opens_readInt (h₁.geti 0#32)
    intro w it₂ h₂
    exact opens_readNode href h₂.before fun _ _ h' => opens_again h'
  | noName hno =>
    obtain ⟨it', hgets⟩ := gets_none h hno
    exact opens_gets hgets opens_leave

/-- What `/n_set` reads without running out of it or getting stuck. -/
def NSetReadable (payload : List Byte) : Prop :=
  TaggedControls NodeRef payload ∨ UntaggedArgs payload

/-- What `/s_new` reads without running out of it or getting stuck. -/
def SNewReadable (payload : List Byte) : Prop :=
  TaggedControls NewHeader payload ∨ UntaggedArgs payload ∧ (oscStrskip payload).isSome

theorem performNSet_isSome (h : NSetReadable payload) (e : Effects W) (w : W)
    (world : ControlWorld) (g : Controls) :
    ∃ enough, ∀ turns, enough ≤ turns →
      (performControlArgs fpu (nSetTurn fpu world) turns g payload (nSetStart e w)).isSome := by
  rw [nSetTurn_eq]
  rcases h with htagged | hwords
  · exact performControlArgs_tagged htagged opens_nSetStart world 0 g
  · apply performControlArgs_untagged hwords _ world 0 g
    intro it n _ hit
    have hok : (nSetStart e w).Ok false := by simp [nSetStart]
    exact Reads.reaches_of_ok _ hok hit

theorem performSNew_isSome (h : SNewReadable payload) (e : Effects W) (w : W)
    (world : ControlWorld) (g : Controls) :
    ∃ enough, ∀ turns, enough ≤ turns →
      (performControlArgs fpu (ctorTurn fpu world) turns g payload (sNewStart e w)).isSome := by
  rw [ctorTurn_eq]
  rcases h with htagged | ⟨hwords, hname⟩
  · exact performControlArgs_tagged htagged opens_sNewStart world 1 g
  · apply performControlArgs_untagged hwords _ world 1 g
    intro it n hpayload hit
    apply reaches_readString (by simp) hit
    intro _ _
    rw [hpayload.data]
    exact hname

end ControlArgs

/-! ## `/b_allocReadChannel` and `/b_readChannel` -/

/-- The bytes of a completion message are there. -/
def CompletionFits (data : List Byte) : Prop :=
  ∃ len, oscInt data = some len ∧ 4 + (len.signExtend 64).toNat ≤ data.length

/-- What stands in front of the channels: a number, a file name and `n` more numbers. Without a
file name the command returns. -/
inductive ChannelHeader (n : ℕ) (tags data : List Byte) : List ArgItem → Prop
  | file {bufnum : ArgItem} (hbufnum : bufnum.IsWord) (s : OscString) {words : List ArgItem}
      (hwords : WordArgs tags data n words) : ChannelHeader n tags data (bufnum :: .string s :: words)
  | noFile {items : List ArgItem} (hitems : WordArg items tags data)
      (hno : tags.headD 0#8 ≠ chr 's' ∨ data = []) : ChannelHeader n tags data items

def channelItems (channels : List Word) : List ArgItem := channels.map .int

/-- A header, the channels, and then a completion message, or no more integers. -/
def TaggedChannels (n : ℕ) (payload : List Byte) : Prop :=
  ∃ items channels tags data,
    ChannelHeader n (itemTags (channelItems channels) ++ tags)
      (itemData (channelItems channels) ++ data) items ∧
    (∀ b ∈ tags, b ≠ 0#8) ∧ tags.headD 0#8 ≠ chr 'i' ∧
    (tags.headD 0#8 = chr 'b' → data ≠ [] → CompletionFits data) ∧
    payload = taggedPayload (itemTags items ++ (itemTags (channelItems channels) ++ tags))
      (itemData items ++ (itemData (channelItems channels) ++ data))

/-- Words without type tags, and in them a file name and perhaps a completion message. -/
def UntaggedChannels (n : ℕ) (payload : List Byte) : Prop :=
  UntaggedArgs payload ∧ (payload.drop 4 = [] ∨
    ∃ m, oscStrskip (payload.drop 4) = some m ∧
      (((payload.drop 4).drop m).drop (4 * n) = [] ∨
        CompletionFits (((payload.drop 4).drop m).drop (4 * n))))

section Channels

variable {fpu : FloatUnit} {payload : List Byte} {n : ℕ}

/-- The loop takes the channels. -/
theorem initChannels_tagged {tags data : List Byte} (htags : tags.headD 0#8 ≠ chr 'i') :
    ∀ (channels : List Word) {it : MsgIter},
    it.Before (itemTags (channelItems channels) ++ tags)
      (itemData (channelItems channels) ++ data) → ∀ turns, channels.length < turns →
    ∃ it', initChannels fpu turns it = some it' ∧ it'.Before tags data
  | [], it, h, turns + 1, hturns => by
    refine ⟨it, ?_, h⟩
    have hend : it.Before tags data := h
    rw [initChannels, hend.nextTagOr_head]
    exact if_neg htags
  | c :: channels, it, h, turns + 1, hturns => by
    have hint : it.Before (chr 'i' :: (itemTags (channelItems channels) ++ tags))
        (OSCValue.beBytes c ++ (itemData (channelItems channels) ++ data)) := by
      simpa [channelItems, itemTags, itemData, ArgItem.tag, ArgItem.data] using h
    obtain ⟨it', hrest, h'⟩ := initChannels_tagged htags channels hint.advance turns
      (Nat.lt_of_succ_lt_succ hturns)
    refine ⟨it', ?_, h'⟩
    have hgeti : it.geti fpu 0#32 = some (_, (it.skip 4).next) := MsgIter.Before.geti hint rfl 0#32
    rw [initChannels, nextTagOr_eq hint]
    simp only [Option.bind_eq_bind, Option.bind_some, if_true, hgeti]
    exact hrest

theorem getCompletionMsg_isSome {it : MsgIter} {data : List Byte} {tag : Byte}
    (hdata : it.rest = data) (hremain : it.remain = data.length)
    (htag : it.nextTagOr 0#8 = some tag)
    (hfits : (it.tags.isSome = true → tag = chr 'b') → data ≠ [] → CompletionFits data) :
    (getCompletionMsg it).isSome := by
  have hnone : it.getbsize = some 0 → (getCompletionMsg it).isSome := by
    intro hsize
    rw [getCompletionMsg, hsize]
    rfl
  by_cases hend : it.remain ≤ 0
  · exact hnone (if_pos hend)
  · have hne : data ≠ [] := by
      intro hnil
      rw [hremain, hnil] at hend
      exact hend (Int.le_refl 0)
    by_cases hblob : it.tags.isSome = true ∧ tag ≠ chr 'b'
    · apply hnone
      unfold MsgIter.getbsize
      rw [if_neg hend, htag]
      exact if_pos hblob
    · obtain ⟨len, hlen, hle⟩ := hfits (fun hsome => by_contra fun hb => hblob ⟨hsome, hb⟩) hne
      have hsize : it.getbsize = some (len.signExtend 64).toNat := by
        unfold MsgIter.getbsize
        rw [if_neg hend, htag]
        simp only [Option.bind_eq_bind, Option.bind_some]
        rw [if_neg hblob, hdata, hlen]
        rfl
      rw [getCompletionMsg, hsize]
      simp only [Option.bind_eq_bind, Option.bind_some]
      split_ifs with hzero
      · rfl
      · unfold MsgIter.getb
        rw [hdata, hlen]
        simp only [Option.bind_eq_bind, Option.bind_some, Nat.lt_irrefl, if_false]
        rw [if_neg (Nat.not_lt.mpr hle)]
        rfl

/-- A number is read, and then no file name, or one that leaves the iterator as `P` says. -/
def FileAt (fpu : FloatUnit) (it : MsgIter) (P : MsgIter → Prop) : Prop :=
  ∃ v it₁, it.geti fpu 0#32 = some (v, it₁) ∧
    ((∃ it₂, it₁.gets none = some (none, it₂)) ∨
      ∃ s it₂, it₁.gets none = some (some s, it₂) ∧ P it₂)

theorem FileAt.opens {it : MsgIter} {P Q : MsgIter → Prop} (h : FileAt fpu it Q)
    {body : Reads Unit} (hbody : ∀ it', Q it' → Opens fpu body it' P) :
    Opens fpu (.geti 0#32 fun _ => .gets fun filename => filename.elim .leave fun _ => body) it
      P := by
  obtain ⟨v, it₁, hget, hfile⟩ := h
  have hsecond : Opens fpu (.gets fun filename => filename.elim .leave fun _ => body) it₁ P := by
    rcases hfile with ⟨it₂, hgets⟩ | ⟨s, it₂, hgets, h₂⟩
    · exact opens_gets hgets opens_leave
    · exact opens_gets hgets (hbody it₂ h₂)
  have hfirst : ∃ n it', it.geti fpu 0#32 = some (n, it') ∧ it' = it₁ := ⟨v, it₁, hget, rfl⟩
  apply opens_geti hfirst
  rintro _ _ rfl
  exact hsecond

/-- `n` reads take the words that `Q` counts. -/
def Takes (fpu : FloatUnit) (Q : ℕ → MsgIter → Prop) : Prop :=
  ∀ n it, Q (n + 1) it → ∀ d, ∃ v it', it.geti fpu d = some (v, it') ∧ Q n it'

theorem opens_bufAllocReadChannelStart {Q : ℕ → MsgIter → Prop} (hQ : Takes fpu Q)
    {it : MsgIter} (h : FileAt fpu it (Q 2)) : Opens fpu bufAllocReadChannelStart it (Q 0) := by
  apply h.opens
  intro it₂ h₂
  apply opens_geti (hQ 1 it₂ h₂ 0#32)
  intro _ it₁ h₁
  apply opens_geti (hQ 0 it₁ h₁ 0#32)
  intro _ it₀ h₀
  exact opens_again h₀

theorem opens_bufReadChannelStart {Q : ℕ → MsgIter → Prop} (hQ : Takes fpu Q)
    {it : MsgIter} (h : FileAt fpu it (Q 4)) : Opens fpu bufReadChannelStart it (Q 0) := by
  apply h.opens
  intro it₄ h₄
  apply opens_geti (hQ 3 it₄ h₄ 0#32)
  intro _ it₃ h₃
  apply opens_geti (hQ 2 it₃ h₃ (-1#32))
  intro _ it₂ h₂
  apply opens_geti (hQ 1 it₂ h₂ 0#32)
  intro _ it₁ h₁
  apply opens_geti (hQ 0 it₁ h₁ 0#32)
  intro _ it₀ h₀
  exact opens_again h₀

theorem performReadChannels_isSome {start : Reads Unit} {it : MsgIter} {P : MsgIter → Prop}
    (hinit : MsgIter.init payload.length payload = some it) (hstart : Opens fpu start it P)
    (enough : ℕ) (hrest : ∀ it, P it → ∀ turns, enough ≤ turns →
      ∃ it', initChannels fpu turns it = some it' ∧ (getCompletionMsg it').isSome) :
    ∃ enough, ∀ turns, enough ≤ turns → (performReadChannels fpu turns payload start).isSome := by
  obtain ⟨it₁, e, hexec, hend⟩ := hstart
  refine ⟨enough, fun turns hturns => ?_⟩
  rw [performReadChannels, hinit]
  simp only [Option.bind_eq_bind, Option.bind_some, hexec]
  cases e with
  | left => rfl
  | ended => rfl
  | again s =>
    obtain ⟨it₂, hchannels, hmsg⟩ := hrest it₁ (hend s rfl) turns hturns
    obtain ⟨it₃, hmsg⟩ := Option.isSome_iff_exists.mp hmsg
    simp only [hchannels, Option.bind_some, hmsg]
    rfl

theorem performReadChannels_tagged (h : TaggedChannels n payload) {start : Reads Unit}
    (hstart : ∀ Q it, Takes fpu Q → FileAt fpu it (Q n) → Opens fpu start it (Q 0)) :
    ∃ enough, ∀ turns, enough ≤ turns → (performReadChannels fpu turns payload start).isSome := by
  obtain ⟨items, channels, tags, data, hheader, hnz, hint, hfits, rfl⟩ := h
  have htags : ∀ b ∈ itemTags items ++ (itemTags (channelItems channels) ++ tags), b ≠ 0#8 := by
    intro b hb
    rw [List.mem_append, List.mem_append] at hb
    rcases hb with hb | hb | hb
    · exact itemTags_ne_zero items b hb
    · exact itemTags_ne_zero _ b hb
    · exact hnz b hb
  obtain ⟨it, hinit, hit⟩ := init_taggedPayload htags
    (itemData items ++ (itemData (channelItems channels) ++ data))
  have hfile : FileAt fpu it (AtWords (itemTags (channelItems channels) ++ tags)
      (itemData (channelItems channels) ++ data) n) := by
    cases hheader with
    | @file bufnum hbufnum s words hwords =>
      have hit' : it.Before (itemTags [bufnum] ++ (chr 's' :: (itemTags words ++
          (itemTags (channelItems channels) ++ tags)))) (itemData [bufnum] ++ (padded s.1 ++
          (itemData words ++ (itemData (channelItems channels) ++ data)))) := by
        simpa [itemTags, itemData, ArgItem.tag, ArgItem.data] using hit
      obtain ⟨v, it₁, hget, h₁⟩ := @WordArg.geti fpu it _ _ _ (.word hbufnum _ _) hit' 0#32
      exact ⟨v, it₁, hget, .inr ⟨s.1, _, h₁.gets s.2 none, words, hwords, h₁.advance⟩⟩
    | noFile hitems hno =>
      obtain ⟨v, it₁, hget, h₁⟩ := @WordArg.geti fpu it _ _ _ hitems hit 0#32
      exact ⟨v, it₁, hget, .inl (gets_none h₁ hno)⟩
  have hopens := hstart _ it (fun n it h => h.geti) hfile
  apply performReadChannels_isSome hinit hopens (channels.length + 1)
  intro it₁ h₁ turns hturns
  obtain ⟨it₂, hchannels, h₂⟩ := initChannels_tagged hint channels h₁.before turns hturns
  refine ⟨it₂, hchannels, ?_⟩
  apply getCompletionMsg_isSome h₂.data h₂.remain_eq h₂.nextTagOr_head
  intro htag hne
  exact hfits (htag h₂.isSome_tags) hne

theorem performReadChannels_untagged (h : UntaggedChannels n payload) {start : Reads Unit}
    (hstart : ∀ Q it, Takes fpu Q → FileAt fpu it (Q n) → Opens fpu start it (Q 0)) :
    ∃ enough, ∀ turns, enough ≤ turns → (performReadChannels fpu turns payload start).isSome := by
  obtain ⟨hwords, hfile⟩ := h
  obtain ⟨it, hinit, hit⟩ := hwords.init
  let Q : ℕ → MsgIter → Prop := fun n it => ∃ data, it.Untagged data ∧ data.length % 4 = 0 ∧
    (data.drop (4 * n) = [] ∨ CompletionFits (data.drop (4 * n)))
  have hQ : Takes fpu Q := by
    rintro n it ⟨data, h, hlen, hdata⟩ d
    obtain ⟨v, it', hget, h'⟩ := getter_untagged (@getter_geti fpu d) h hlen
    refine ⟨v, it', hget, data.drop 4, h', ?_, ?_⟩
    · rw [List.length_drop]
      omega
    · have hdrop : 4 + 4 * n = 4 * (n + 1) := by omega
      rw [List.drop_drop, hdrop]
      exact hdata
  have hfileAt : FileAt fpu it (Q n) := by
    obtain ⟨v, it₁, hget, h₁⟩ := getter_untagged (@getter_geti fpu 0#32) hit hwords.2
    refine ⟨v, it₁, hget, ?_⟩
    rcases hfile with hnil | ⟨m, hskip, hrest⟩
    · refine .inl ⟨it₁, ?_⟩
      have hend : it₁.remain ≤ 0 := by
        rw [h₁.remain_eq, hnil]
        exact Int.le_refl 0
      exact if_pos hend
    · obtain ⟨j, hm, hj, hle⟩ := oscStrskip_eq_some hskip
      have hlen₁ := hwords.2
      have hremain := h₁.remain_eq
      refine .inr ⟨it₁.cString, (it₁.skip m).next, ?_, (payload.drop 4).drop m, h₁.skip hle, ?_,
        hrest⟩
      · unfold MsgIter.gets
        rw [if_neg (by omega), if_neg h₁.isSome_tags, h₁.data, hskip]
        rfl
      · simp only [List.length_drop] at hle ⊢
        omega
  apply performReadChannels_isSome hinit (hstart Q it hQ hfileAt) 1
  intro it₁ hend turns hturns
  obtain ⟨data, h₁, hlen, hdata⟩ := hend
  obtain ⟨k, rfl⟩ := Nat.exists_eq_add_of_le' hturns
  refine ⟨it₁, ?_, ?_⟩
  · rw [initChannels, h₁.nextTagOr_eq]
    rfl
  · apply getCompletionMsg_isSome h₁.data h₁.remain_eq (h₁.nextTagOr_eq 0#8)
    intro _ hne
    exact hdata.resolve_left hne

end Channels

/-! ## The dumper -/

/-- An argument that the dumper prints. -/
inductive DumpItem
  | int (n : Word)
  | float (bits : Word)
  | double (hi lo : Word)
  | string (s : OscString)
  | blob (len : ℕ) (body : List Byte) (hlen : len < 2 ^ 31) (hbody : body.length = (len + 3) / 4 * 4)
  | opening
  | closing

namespace DumpItem

def tag : DumpItem → Byte
  | int _ => chr 'i'
  | float _ => chr 'f'
  | double _ _ => chr 'd'
  | string _ => chr 's'
  | blob _ _ _ _ => chr 'b'
  | opening => chr '['
  | closing => chr ']'

def data : DumpItem → List Byte
  | int n => OSCValue.beBytes n
  | float bits => OSCValue.beBytes bits
  | double hi lo => OSCValue.beBytes hi ++ OSCValue.beBytes lo
  | string s => padded s.1
  | blob len body _ _ => OSCValue.beBytes (BitVec.ofNat 32 len) ++ body
  | opening | closing => []

theorem tag_ne_zero (x : DumpItem) : x.tag ≠ 0#8 := by
  cases x with
  | int n => exact (by decide : chr 'i' ≠ 0#8)
  | float bits => exact (by decide : chr 'f' ≠ 0#8)
  | double hi lo => exact (by decide : chr 'd' ≠ 0#8)
  | string s => exact (by decide : chr 's' ≠ 0#8)
  | blob len body hlen hbody => exact (by decide : chr 'b' ≠ 0#8)
  | opening => exact (by decide : chr '[' ≠ 0#8)
  | closing => exact (by decide : chr ']' ≠ 0#8)

end DumpItem

def dumpTags (items : List DumpItem) : List Byte := items.map DumpItem.tag

def dumpData (items : List DumpItem) : List Byte := items.flatMap DumpItem.data

/-- The arguments end with the bytes, or a tag follows that the dumper leaves at. -/
def TaggedDump (payload : List Byte) : Prop :=
  ∃ items tags data, (∀ b ∈ tags, b ≠ 0#8) ∧
    (data = [] ∨
      tags.headD 0#8 ∉ [chr 'i', chr 'f', chr 'd', chr 's', chr 'b', chr '[', chr ']']) ∧
    payload = taggedPayload (dumpTags items ++ tags) (dumpData items ++ data)

/-- An address, or four bytes in its place, and then the arguments. -/
def DumpReadable (packet : List Byte) : Prop :=
  ∃ address payload, packet = address ++ payload ∧
    ((∃ s : OscString, s.1 ≠ [] ∧ address = padded s.1) ∨
      address.length = 4 ∧ address.head? = some 0#8) ∧
    (TaggedDump payload ∨ UntaggedArgs payload)

theorem and_neg_four (x : BitVec 64) : x &&& (-4#64) = (x >>> 2) <<< 2 := by
  have hmask : ∀ i : Fin 64, (-4#64 : BitVec 64).getLsbD i = decide (2 ≤ i.val) := by decide
  ext i hi
  have hbit := hmask ⟨i, hi⟩
  simp only [BitVec.getLsbD_eq_getElem hi] at hbit
  rw [BitVec.getElem_and, hbit, BitVec.getElem_shiftLeft]
  by_cases h2 : i < 2
  · simp [h2]
  · have hback : 2 + (i - 2) = i := by omega
    simp [h2, hback, BitVec.getLsbD_eq_getElem hi, Nat.not_lt.mp h2]

/-- A length that is not negative is rounded up to whole words. -/
theorem toInt_roundUp {n : ℕ} (h : n < 2 ^ 31) :
    (((BitVec.ofNat 32 n).signExtend 64 + 3#64) &&& (-4#64)).toInt = ((n + 3) / 4 * 4 : ℕ) := by
  have hmsb : (BitVec.ofNat 32 n).msb = false := by
    rw [BitVec.msb_eq_decide]
    simp
    omega
  rw [and_neg_four, BitVec.signExtend_eq_setWidth_of_msb_false hmsb]
  have hnat : ((((BitVec.ofNat 32 n).setWidth 64 + 3#64) >>> 2) <<< 2).toNat =
      (n + 3) / 4 * 4 := by
    simp only [BitVec.toNat_shiftLeft, BitVec.toNat_ushiftRight, BitVec.toNat_add,
      BitVec.toNat_setWidth, BitVec.toNat_ofNat, Nat.shiftLeft_eq, Nat.shiftRight_eq_div_pow]
    omega
  rw [BitVec.toInt_eq_toNat_of_lt, hnat]
  rw [hnat]
  omega

section Dump

variable {fpu : FloatUnit} {it : MsgIter} {tags data : List Byte}

theorem skipb_blob {len : ℕ} {body : List Byte} (hlen : len < 2 ^ 31)
    (hbody : body.length = (len + 3) / 4 * 4)
    (h : it.Before (chr 'b' :: tags) (OSCValue.beBytes (BitVec.ofNat 32 len) ++ body ++ data)) :
    ∃ it', it.skipb = some it' ∧ it'.Before tags data := by
  have hlength : (OSCValue.beBytes (BitVec.ofNat 32 len) ++ body).length = 4 + body.length := by
    rw [List.length_append]
    rfl
  have hint : oscInt it.rest = some (BitVec.ofNat 32 len) := by
    rw [h.data, List.append_assoc, oscInt_append rfl, MsgIter.swap32_wordOf_beBytes]
  refine ⟨_, ?_, h.advance⟩
  unfold MsgIter.skipb
  rw [hint]
  simp only [Option.bind_eq_bind, Option.bind_some]
  rw [toInt_roundUp hlen, if_neg (by omega), hlength, hbody]
  have hmove : ((it.rdpos : ℤ) + 4 + ((len + 3) / 4 * 4 : ℕ)).toNat =
      it.rdpos + (4 + (len + 3) / 4 * 4) := by omega
  rw [hmove]
  rfl

/-- A turn takes an argument. -/
theorem dumpTurn_item (x : DumpItem) (h : it.Before (x.tag :: tags) (x.data ++ data))
    (hmore : it.remain ≠ 0) : ∃ it', dumpTurn fpu it = some (some it') ∧ it'.Before tags data := by
  have htag : it.nextTagOr (chr 'i') = some x.tag := h.nextTagOr_head
  have hpos : ¬ it.remain ≤ 0 := by
    have hremain := h.remain_eq
    omega
  unfold dumpTurn
  rw [htag]
  cases x with
  | int n =>
    have hgeti : it.geti fpu 0#32 = some (_, (it.skip 4).next) := MsgIter.Before.geti h rfl 0#32
    refine ⟨_, ?_, h.advance⟩
    show ((it.geti fpu 0#32).bind fun r => some (some r.2)) = _
    rw [hgeti]
    rfl
  | float bits =>
    have hgetf : it.getf fpu 0#32 = some (_, (it.skip 4).next) := MsgIter.Before.getf h rfl 0#32
    refine ⟨_, ?_, h.advance⟩
    show ((it.getf fpu 0#32).bind fun r => some (some r.2)) = _
    rw [hgetf]
    rfl
  | double hi lo =>
    have hdouble : ∃ v, oscDouble it.rest = some v := by
      rw [h.data]
      exact ⟨_, rfl⟩
    obtain ⟨v, hv⟩ := hdouble
    have hgetd : it.getd = some ((it.skip 8).next) := by
      unfold MsgIter.getd
      rw [if_neg hpos, if_pos h.isSome_tags, h.nextTag_eq, hv]
      rfl
    refine ⟨_, ?_, h.advance⟩
    show (it.getd.bind fun r => some (some r)) = _
    rw [hgetd]
    rfl
  | string s =>
    have hgets := MsgIter.Before.gets s.2 h none
    refine ⟨_, ?_, h.advance⟩
    show ((it.gets none).bind fun r => r.1.bind fun _ => some (some r.2)) = _
    rw [hgets]
    rfl
  | blob len body hlen hbody =>
    obtain ⟨it', hskip, h'⟩ := skipb_blob hlen hbody h
    have hsize : ∃ size, it.getbsize = some size := by
      have hint : oscInt it.rest = some (BitVec.ofNat 32 len) := by
        rw [h.data, DumpItem.data, List.append_assoc, oscInt_append rfl,
          MsgIter.swap32_wordOf_beBytes]
      refine ⟨((BitVec.ofNat 32 len).signExtend 64).toNat, ?_⟩
      have hblob : it.nextTagOr 0#8 = some (chr 'b') := h.nextTagOr_head
      unfold MsgIter.getbsize
      rw [if_neg hpos, hblob, hint]
      simp
    obtain ⟨size, hsize⟩ := hsize
    refine ⟨it', ?_, h'⟩
    show (it.getbsize.bind fun _ => it.skipb.bind fun r => some (some r)) = _
    rw [hsize, hskip]
    rfl
  | opening => exact ⟨it.next, rfl, h.next⟩
  | closing => exact ⟨it.next, rfl, h.next⟩

/-- The dumper takes the arguments one by one. -/
theorem dumpLoop_isSome (hdata : data = [] ∨
    tags.headD 0#8 ∉ [chr 'i', chr 'f', chr 'd', chr 's', chr 'b', chr '[', chr ']']) :
    ∀ (items : List DumpItem) {it : MsgIter},
    it.Before (dumpTags items ++ tags) (dumpData items ++ data) → ∀ turns, items.length < turns →
    (dumpLoop fpu turns it).isSome
  | items, it, h, turns + 1, hturns => by
    rw [dumpLoop]
    by_cases hmore : it.remain = 0
    · rw [if_pos hmore]
      rfl
    · rw [if_neg hmore]
      cases items with
      | nil =>
        have hend : it.Before tags data := h
        have hunknown := hdata.resolve_left fun hnil => by
          rw [hend.remain_eq, hnil] at hmore
          exact hmore rfl
        have hturn : dumpTurn fpu it = some none := by
          unfold dumpTurn
          rw [hend.nextTagOr_head]
          simp only [List.mem_cons, List.not_mem_nil, or_false, not_or] at hunknown
          simp only [Option.bind_eq_bind, Option.bind_some, hunknown, or_self, if_false]
          rfl
        rw [hturn]
        rfl
      | cons x items =>
        have hitem : it.Before (x.tag :: (dumpTags items ++ tags))
            (x.data ++ (dumpData items ++ data)) := by
          simpa [dumpTags, dumpData] using h
        obtain ⟨it', hturn, h'⟩ := @dumpTurn_item fpu it _ _ x hitem hmore
        rw [hturn]
        exact dumpLoop_isSome hdata items h' turns (Nat.lt_of_succ_lt_succ hturns)

/-- Words without type tags are printed one by one. -/
theorem dumpLoop_untagged : ∀ (turns : ℕ) {it : MsgIter} {data : List Byte}, it.Untagged data →
    data.length % 4 = 0 → data.length < turns → (dumpLoop fpu turns it).isSome
  | turns + 1, it, data, h, hlen, hturns => by
    rw [dumpLoop]
    by_cases hmore : it.remain = 0
    · rw [if_pos hmore]
      rfl
    · have hremain := h.remain_eq
      obtain ⟨v, it', hget, h'⟩ := getter_untagged (@getter_geti fpu 0#32) h hlen
      have hturn : dumpTurn fpu it = some (some it') := by
        unfold dumpTurn
        rw [h.nextTagOr_eq]
        simp only [Option.bind_eq_bind, Option.bind_some, if_true, hget]
        rfl
      rw [if_neg hmore, hturn]
      have hdrop : (data.drop 4).length + 4 = data.length := by
        rw [List.length_drop]
        omega
      exact dumpLoop_untagged turns h' (by omega) (by omega)

/-- The loop behind the address ends. -/
theorem dumpLoop_payload {payload : List Byte} (h : TaggedDump payload ∨ UntaggedArgs payload) :
    ∃ it, MsgIter.init payload.length payload = some it ∧
      ∃ enough, ∀ turns, enough ≤ turns → (dumpLoop fpu turns it).isSome := by
  rcases h with ⟨items, tags, data, hnz, hdata, rfl⟩ | hwords
  · have htags : ∀ b ∈ dumpTags items ++ tags, b ≠ 0#8 := by
      intro b hb
      rcases List.mem_append.mp hb with hb | hb
      · obtain ⟨x, -, rfl⟩ := List.mem_map.mp hb
        exact x.tag_ne_zero
      · exact hnz b hb
    obtain ⟨it, hinit, hit⟩ := init_taggedPayload htags (dumpData items ++ data)
    exact ⟨it, hinit, items.length + 1, fun turns => dumpLoop_isSome hdata items hit turns⟩
  · obtain ⟨it, hinit, hit⟩ := hwords.init
    exact ⟨it, hinit, payload.length + 1, fun turns => dumpLoop_untagged turns hit hwords.2⟩

theorem dumpOSCmsg_isSome {packet : List Byte} (h : DumpReadable packet) :
    ∃ enough, ∀ turns, enough ≤ turns → (dumpOSCmsg fpu turns packet).isSome := by
  obtain ⟨address, payload, rfl, haddress, hpayload⟩ := h
  obtain ⟨it, hinit, enough, hloop⟩ := @dumpLoop_payload fpu payload hpayload
  refine ⟨enough, fun turns hturns => ?_⟩
  rcases haddress with ⟨s, hs, rfl⟩ | ⟨hlen, hhead⟩
  · obtain ⟨first, hfirst, hne⟩ : ∃ first, (padded s.1 ++ payload).head? = some first ∧
        first ≠ 0#8 := by
      cases hlist : s.1 with
      | nil => exact absurd hlist hs
      | cons b bs => exact ⟨b, rfl, s.2 b (hlist ▸ List.mem_cons_self)⟩
    rw [dumpOSCmsg, hfirst]
    simp only [Option.bind_eq_bind, Option.bind_some, if_pos hne, oscStrskip_padded s.2,
      List.length_append, Nat.add_sub_cancel_left, List.drop_left, hinit]
    exact hloop turns hturns
  · have hfirst : (address ++ payload).head? = some 0#8 := by
      rw [List.head?_append, hhead]
      rfl
    have hint := oscInt_append hlen payload
    have hdrop : (address ++ payload).drop 4 = payload := by
      rw [← hlen, List.drop_left]
    rw [dumpOSCmsg, hfirst]
    simp only [Option.bind_eq_bind, Option.bind_some, ne_eq, not_true, if_false, hint, hdrop,
      List.length_append, hlen, Nat.add_sub_cancel_left, hinit]
    exact hloop turns hturns

end Dump

/-! ## All of them -/

/-- A payload that a command reads to its end. -/
def ArgCommand.Readable (payload : List Byte) : ArgCommand → Prop
  | loops c => c.Readable payload
  | nSet => NSetReadable payload
  | sNew => SNewReadable payload
  | bAllocReadChannel => TaggedChannels 2 payload ∨ UntaggedChannels 2 payload
  | bReadChannel => TaggedChannels 4 payload ∨ UntaggedChannels 4 payload
  | dumpOSC => DumpReadable payload

/-- The loops of a command end, and it reads within its payload. -/
def ArgCommand.Terminates {W : Type} (fpu : FloatUnit) (e : Effects W) (w : W)
    (world : ControlWorld) (g : Controls) (payload : List Byte) (c : ArgCommand) : Prop :=
  ∃ enough, ∀ turns, enough ≤ turns → (c.perform fpu e w world g turns payload).isSome

section Bracket

def plainFpu : FloatUnit := ⟨id, id, fun w => w.setWidth 32⟩

def noEffects : Effects Unit := ⟨fun _ _ => some (), fun _ => true, fun _ => 0⟩

def noBuses : ControlWorld := ⟨0, 0, 0, fun _ => none⟩

/-- `/n_set 1000 0 [ 440.0`, where the bracket is not closed. -/
def openBracket : List Byte :=
  taggedPayload [chr 'i', chr 'i', chr '[', chr 'f']
    (OSCValue.beBytes 1000#32 ++ OSCValue.beBytes 0#32 ++ OSCValue.beBytes 0x43DC0000#32)

/-- A loop that never counts down to zero does not end. -/
theorem doWhileLoop_none {turn : ValueLoop → Option ValueLoop} {P : ValueLoop → Prop}
    (hturn : ∀ s, P s → ∃ s', turn s = some s' ∧ s'.loop ≠ 0 ∧ P s') :
    ∀ (turns : ℕ) (s : ValueLoop), P s → doWhileLoop turn turns s = none
  | 0, _, _ => rfl
  | turns + 1, s, hs => by
    obtain ⟨s', hs', hloop, hP⟩ := hturn s hs
    rw [doWhileLoop_more hs' hloop]
    exact doWhileLoop_none hturn turns s' hP

/-- The iterator of `openBracket` behind `count` tags, at `rdpos`. -/
def openBracketAt (rdpos count : ℕ) : MsgIter := ⟨openBracket, 20, rdpos, some 1, count⟩

/-- Behind the last tag, `meth_n_set` stays where it is. -/
theorem nSet_openBracket (turns : ℕ) :
    ArgCommand.nSet.perform plainFpu noEffects () noBuses (.init 0 fun _ => 0#32) turns
      openBracket = none := by
  let s (rdpos count : ℕ) (i loop : ℤ) : ValueLoop :=
    ⟨openBracketAt rdpos count, i, loop, .init 0 fun _ => 0#32⟩
  have hopen : nSetTurn plainFpu noBuses (.index 0#32) (s 16 2 0 0) = some (s 16 3 0 1) := rfl
  have hfloat : nSetTurn plainFpu noBuses (.index 0#32) (s 16 3 0 1) = some (s 20 4 1 1) := rfl
  have hstuck : nSetTurn plainFpu noBuses (.index 0#32) (s 20 4 1 1) = some (s 20 4 1 1) := rfl
  have hinner : ∀ turns,
      doWhileLoop (nSetTurn plainFpu noBuses (.index 0#32)) turns (s 16 2 0 0) = none := by
    intro turns
    apply @doWhileLoop_none _ fun t => t = s 16 2 0 0 ∨ t = s 16 3 0 1 ∨ t = s 20 4 1 1
    · rintro t (rfl | rfl | rfl)
      · exact ⟨_, hopen, one_ne_zero, .inr (.inl rfl)⟩
      · exact ⟨_, hfloat, one_ne_zero, .inr (.inr rfl)⟩
      · exact ⟨_, hstuck, one_ne_zero, .inr (.inr rfl)⟩
    · exact .inl rfl
  have hstart : ArgCommand.nSet.perform plainFpu noEffects () noBuses (.init 0 fun _ => 0#32)
      turns openBracket = (argLoop plainFpu (nSetTurn plainFpu noBuses) turns (openBracketAt 12 1)
        (.init 0 fun _ => 0#32)).bind fun _ => some () := rfl
  rw [hstart]
  cases turns with
  | zero => rfl
  | succ turns =>
    have hkey : argLoop plainFpu (nSetTurn plainFpu noBuses) (turns + 1) (openBracketAt 12 1)
        (.init 0 fun _ => 0#32) =
      (doWhileLoop (nSetTurn plainFpu noBuses (.index 0#32)) turns (s 16 2 0 0)).bind fun t =>
        argLoop plainFpu (nSetTurn plainFpu noBuses) turns t.it t.g := rfl
    rw [hkey, hinner]
    rfl

end Bracket

end PoopWorms.Server
