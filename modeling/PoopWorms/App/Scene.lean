import PoopWorms.App.Layout

/-!
# Voices in a layout

Where the nodes of the worms' voices are: the group of a voice under the root group, its
pitch synths, its effect and its `OutConnector` in the group. A scene says so of all voices
at once, and the rules of this module carry it over the changes that the server makes to one
group.
-/

namespace PoopWorms.App

open Octets Osc Server Client

/-! ## Voices in a layout -/

/-- The nodes of a voice are where they belong. -/
structure InPlace (L : Layout) (v : Voice) : Prop where
  group : v.groupID ∈ L.kids 0#32
  order : ∃ pitches, L.kids v.groupID = pitches ++ v.activeEffectID.toList ++ [v.outputNodeID] ∧
    ∀ n ∈ pitches, L.kind n = some .pitch
  effect : ∀ n ∈ v.activeEffectID, L.kind n = some .effect
  output : L.kind v.outputNodeID = some .output

/-- The nodes of a voice are not in the table. -/
structure Gone (L : Layout) (v : Voice) : Prop where
  group : L.kind v.groupID = none
  output : L.kind v.outputNodeID = none
  effect : ∀ n ∈ v.activeEffectID, L.kind n = none

/-- The nodes of a voice have IDs from the client. -/
structure Issued (ids : List Word) (v : Voice) : Prop where
  group : v.groupID ∈ ids
  output : v.outputNodeID ∈ ids
  effect : ∀ n ∈ v.activeEffectID, n ∈ ids

/-- The layout of the server's nodes: the root group holds the groups of the voices that have
not been dismantled, and nothing else. -/
structure Scene (a : Audio) (L : Layout) : Prop where
  shows : Shows a.world L
  issued : ∀ n, L.kind n ≠ none → n = 0#32 ∨ n ∈ issuedNodeIDs a.synth
  placed : ∀ n, L.kind n ≠ none → n = 0#32 ∨ ∃ g, n ∈ L.kids g
  root : ∀ n ∈ L.kids 0#32, L.kind n = some .group
  owner : ∀ g, L.kids g ≠ [] →
    g = 0#32 ∨ ∃ i < a.voices, i ∉ a.dismantled ∧ g = (a.voice i).groupID
  ids : ∀ i < a.voices, Issued (issuedNodeIDs a.synth) (a.voice i)
  inj : ∀ i < a.voices, ∀ j < a.voices, (a.voice i).groupID = (a.voice j).groupID → i = j
  inPlace : ∀ i < a.voices, i ∉ a.dismantled → InPlace L (a.voice i)
  gone : ∀ i < a.voices, i ∈ a.dismantled → Gone L (a.voice i)
  dismantled_lt : ∀ i ∈ a.dismantled, i < a.voices

theorem Issued.mono {ids ids' : List Word} {v : Voice} (h : Issued ids v) (hsub : ids ⊆ ids') :
    Issued ids' v :=
  ⟨hsub h.group, hsub h.output, fun n hn => hsub (h.effect n hn)⟩

/-- What a voice sees of a layout. -/
theorem InPlace.congr {L L' : Layout} {v : Voice} (h : InPlace L v)
    (hroot : v.groupID ∈ L'.kids 0#32) (hkids : L'.kids v.groupID = L.kids v.groupID)
    (hkind : ∀ n ∈ L.kids v.groupID, L'.kind n = L.kind n) : InPlace L' v := by
  rcases h.order with ⟨pitches, horder, hpitches⟩
  have hmem : ∀ n, n ∈ pitches ∨ n ∈ v.activeEffectID ∨ n = v.outputNodeID →
      L'.kind n = L.kind n := by
    intro n hn
    refine hkind n ?_
    rw [horder]
    simp only [List.mem_append, Option.mem_toList, List.mem_singleton, or_assoc]
    exact hn
  refine ⟨hroot, ⟨pitches, hkids.trans horder, fun n hn => ?_⟩, fun n hn => ?_, ?_⟩
  · rw [hmem n (.inl hn)]
    exact hpitches n hn
  · rw [hmem n (.inr (.inl hn))]
    exact h.effect n hn
  · rw [hmem _ (.inr (.inr rfl))]
    exact h.output

/-- There is no group in the group of a voice. -/
theorem InPlace.kind_ne_group {L : Layout} {v : Voice} (h : InPlace L v) {n : NodeID}
    (hn : n ∈ L.kids v.groupID) : L.kind n ≠ some .group := by
  rcases h.order with ⟨pitches, horder, hpitches⟩
  rw [horder] at hn
  simp only [List.mem_append, Option.mem_toList, List.mem_singleton] at hn
  rcases hn with (hn | hn) | hn
  · simp [hpitches n hn]
  · simp [h.effect n hn]
  · simp [hn, h.output]

/-- A node has one parent. -/
theorem Shows.unique {w : World} {L : Layout} (h : Shows w L) {n g g' : NodeID}
    (hg : n ∈ L.kids g) (hg' : n ∈ L.kids g') : g = g' := by
  have heq := (h.tree.mem g n hg).2.2
  rw [(h.tree.mem g' n hg').2.2] at heq
  exact (Option.some.inj heq).symm

theorem Shows.kind_root {w : World} {L : Layout} (h : Shows w L) :
    L.kind 0#32 = some .group := by
  rw [← h.kind, kind_eq_group_iff]
  exact ⟨h.tree.root.1, h.tree.root.2.1⟩

theorem Shows.kind_of_mem {w : World} {L : Layout} (h : Shows w L) {n g : NodeID}
    (hg : n ∈ L.kids g) : L.kind n ≠ none := by
  rw [← h.kind, kind_ne_none_iff]
  exact (h.tree.mem g n hg).1

namespace Scene

variable {fpu : FloatUnit} {a a' : Audio} {L L' : Layout} {i : ℕ}

/-- The children of the group of one voice change: some leave the table, and those that join
are new. -/
theorem update (h : Scene a L) (hi : i < a.voices) (halive : i ∉ a.dismantled)
    (hshows : Shows a'.world L')
    (hkids : ∀ g, g ≠ (a.voice i).groupID → L'.kids g = L.kids g)
    (hkind : ∀ n, n ∉ L.kids (a.voice i).groupID → n ∉ L'.kids (a.voice i).groupID →
      L'.kind n = L.kind n)
    (hleft : ∀ n ∈ L.kids (a.voice i).groupID, n ∉ L'.kids (a.voice i).groupID →
      L'.kind n = none)
    (hnew : ∀ n ∈ L'.kids (a.voice i).groupID, n ∈ L.kids (a.voice i).groupID ∨
      n ∉ issuedNodeIDs a.synth ∧ n ∈ issuedNodeIDs a'.synth)
    (hissued : issuedNodeIDs a.synth ⊆ issuedNodeIDs a'.synth)
    (hvoices : a'.voices = a.voices) (hdismantled : a'.dismantled = a.dismantled)
    (hvoice : ∀ j, j ≠ i → a'.voice j = a.voice j)
    (hgroup : (a'.voice i).groupID = (a.voice i).groupID)
    (hids : Issued (issuedNodeIDs a'.synth) (a'.voice i))
    (hplace : (a.voice i).groupID ∈ L'.kids 0#32 → InPlace L' (a'.voice i)) : Scene a' L' := by
  set g := (a.voice i).groupID with hg
  have hg0 : g ≠ 0#32 := (h.shows.tree.mem 0#32 g (h.inPlace i hi halive).group).2.1
  have hroot : L'.kids 0#32 = L.kids 0#32 := hkids _ hg0.symm
  -- nothing but the children of `g` changes its kind
  have hsame : ∀ x, x ≠ g → ∀ n ∈ L.kids x, L'.kind n = L.kind n := by
    intro x hx n hn
    refine hkind n (fun hn' => hx (h.shows.unique hn hn')) fun hn' => ?_
    exact hx (hshows.unique (hkids x hx ▸ hn) hn')
  have hold : ∀ n ∈ issuedNodeIDs a.synth, L.kind n = none → L'.kind n = none := by
    intro n hn hnone
    rw [hkind n (fun hmem => h.shows.kind_of_mem hmem hnone) fun hmem => ?_, hnone]
    rcases hnew n hmem with hmem | hfresh
    · exact h.shows.kind_of_mem hmem hnone
    · exact hfresh.1 hn
  have hgroups : ∀ j < a.voices, j ≠ i → (a.voice j).groupID ≠ g :=
    fun j hj hne heq => hne (h.inj j hj i hi heq)
  have hcases : ∀ n, L'.kind n ≠ none → n ∈ L'.kids g ∨ n ∉ L.kids g ∧ L.kind n ≠ none := by
    intro n hn
    by_cases hmem' : n ∈ L'.kids g
    · exact .inl hmem'
    · by_cases hmem : n ∈ L.kids g
      · exact absurd (hleft n hmem hmem') hn
      · exact .inr ⟨hmem, by rwa [hkind n hmem hmem'] at hn⟩
  refine ⟨hshows, fun n hn => ?_, fun n hn => ?_, fun n hn => ?_, fun x hx => ?_,
    fun j hj => ?_, fun j hj k hk heq => ?_, fun j hj hjd => ?_, fun j hj hjd => ?_,
    by rw [hvoices, hdismantled]; exact h.dismantled_lt⟩
  · rcases hcases n hn with hmem | ⟨-, hn⟩
    · rcases hnew n hmem with hmem | hfresh
      · rcases h.issued n (h.shows.kind_of_mem hmem) with hzero | hin
        · exact .inl hzero
        · exact .inr (hissued hin)
      · exact .inr hfresh.2
    · rcases h.issued n hn with hzero | hin
      · exact .inl hzero
      · exact .inr (hissued hin)
  · rcases hcases n hn with hmem | ⟨hmem, hn⟩
    · exact .inr ⟨g, hmem⟩
    · rcases h.placed n hn with hzero | ⟨x, hx⟩
      · exact .inl hzero
      · have hne : x ≠ g := fun heq => hmem (heq ▸ hx)
        exact .inr ⟨x, hkids x hne ▸ hx⟩
  · rw [hroot] at hn
    rw [hsame _ hg0.symm n hn]
    exact h.root n hn
  · rw [hvoices, hdismantled]
    by_cases hne : x = g
    · exact .inr ⟨i, hi, halive, by rw [hne, hgroup]⟩
    · rw [hkids x hne] at hx
      rcases h.owner x hx with hzero | ⟨j, hj, hjd, heq⟩
      · exact .inl hzero
      · have hji : j ≠ i := fun hji => hne (by rw [heq, hji])
        exact .inr ⟨j, hj, hjd, by rw [hvoice j hji, heq]⟩
  · rw [hvoices] at hj
    by_cases hji : j = i
    · rw [hji]
      exact hids
    · rw [hvoice j hji]
      exact (h.ids j hj).mono hissued
  · rw [hvoices] at hj hk
    have hid : ∀ l, (a'.voice l).groupID = (a.voice l).groupID := by
      intro l
      by_cases hli : l = i
      · rw [hli, hgroup]
      · rw [hvoice l hli]
    rw [hid, hid] at heq
    exact h.inj j hj k hk heq
  · rw [hvoices] at hj
    rw [hdismantled] at hjd
    by_cases hji : j = i
    · rw [hji]
      exact hplace (hroot ▸ (h.inPlace i hi halive).group)
    · rw [hvoice j hji]
      have hin := h.inPlace j hj hjd
      have hne := hgroups j hj hji
      exact hin.congr (hroot ▸ hin.group) (hkids _ hne) (hsame _ hne)
  · rw [hvoices] at hj
    rw [hdismantled] at hjd
    have hji : j ≠ i := fun hji => halive (hji ▸ hjd)
    have hgone := h.gone j hj hjd
    have hin := h.ids j hj
    rw [hvoice j hji]
    exact ⟨hold _ hin.group hgone.group, hold _ hin.output hgone.output,
      fun n hn => hold n (hin.effect n hn) (hgone.effect n hn)⟩

/-- Nothing happens on the server, and one voice changes. -/
theorem setVoice (h : Scene a L) (hworld : a'.world = a.world)
    (hissued : issuedNodeIDs a.synth ⊆ issuedNodeIDs a'.synth)
    (hvoices : a'.voices = a.voices) (hdismantled : a'.dismantled = a.dismantled)
    (hvoice : ∀ j, j ≠ i → a'.voice j = a.voice j)
    (hgroup : (a'.voice i).groupID = (a.voice i).groupID)
    (hids : i < a.voices → Issued (issuedNodeIDs a'.synth) (a'.voice i))
    (hplace : i < a.voices → i ∉ a.dismantled → InPlace L (a'.voice i))
    (hgone : i < a.voices → i ∈ a.dismantled → Gone L (a'.voice i)) : Scene a' L := by
  have hid : ∀ j, (a'.voice j).groupID = (a.voice j).groupID := by
    intro j
    by_cases hji : j = i
    · rw [hji, hgroup]
    · rw [hvoice j hji]
  refine ⟨hworld ▸ h.shows, fun n hn => ?_, h.placed, h.root, fun g hg => ?_, fun j hj => ?_,
    fun j hj k hk heq => ?_, fun j hj hjd => ?_, fun j hj hjd => ?_,
    by rw [hvoices, hdismantled]; exact h.dismantled_lt⟩
  · rcases h.issued n hn with hzero | hin
    · exact .inl hzero
    · exact .inr (hissued hin)
  · rw [hvoices, hdismantled]
    simp only [hid]
    exact h.owner g hg
  · rw [hvoices] at hj
    by_cases hji : j = i
    · rw [hji]
      exact hids (hji ▸ hj)
    · rw [hvoice j hji]
      exact (h.ids j hj).mono hissued
  · rw [hvoices] at hj hk
    rw [hid, hid] at heq
    exact h.inj j hj k hk heq
  · rw [hvoices] at hj
    rw [hdismantled] at hjd
    by_cases hji : j = i
    · rw [hji] at hj hjd ⊢
      exact hplace hj hjd
    · rw [hvoice j hji]
      exact h.inPlace j hj hjd
  · rw [hvoices] at hj
    rw [hdismantled] at hjd
    by_cases hji : j = i
    · rw [hji] at hj hjd ⊢
      exact hgone hj hjd
    · rw [hvoice j hji]
      exact h.gone j hj hjd

/-- A new synth joins the group of a voice. -/
theorem join (h : Scene a L) (hi : i < a.voices) (halive : i ∉ a.dismantled) {id : Word}
    {k : NodeKind} {l₁ l₂ : List NodeID} (hkids : L.kids (a.voice i).groupID = l₁ ++ l₂)
    (hid : id ∉ issuedNodeIDs a.synth)
    (hshows : Shows a'.world (L.join (a.voice i).groupID id k l₁ l₂))
    (hissued : issuedNodeIDs a'.synth = issuedNodeIDs a.synth ++ [id])
    (hvoices : a'.voices = a.voices) (hdismantled : a'.dismantled = a.dismantled)
    (hvoice : ∀ j, j ≠ i → a'.voice j = a.voice j)
    (hgroup : (a'.voice i).groupID = (a.voice i).groupID)
    (hids : Issued (issuedNodeIDs a'.synth) (a'.voice i))
    (hplace : (a.voice i).groupID ∈ (L.join (a.voice i).groupID id k l₁ l₂).kids 0#32 →
      InPlace (L.join (a.voice i).groupID id k l₁ l₂) (a'.voice i)) :
    Scene a' (L.join (a.voice i).groupID id k l₁ l₂) := by
  have hkids' : (L.join (a.voice i).groupID id k l₁ l₂).kids (a.voice i).groupID
      = l₁ ++ id :: l₂ := Function.update_self ..
  have hmem : ∀ n, n ∈ (L.join (a.voice i).groupID id k l₁ l₂).kids (a.voice i).groupID ↔
      n ∈ L.kids (a.voice i).groupID ∨ n = id := by
    intro n
    rw [hkids', hkids]
    simp only [List.mem_append, List.mem_cons]
    tauto
  refine h.update hi halive hshows (fun g hg => Function.update_of_ne hg ..) (fun n _ hn => ?_)
    (fun n hn hn' => absurd ((hmem n).mpr (.inl hn)) hn') (fun n hn => ?_)
    (hissued ▸ List.subset_append_left _ _) hvoices hdismantled hvoice hgroup hids hplace
  · have hne : n ≠ id := fun heq => hn ((hmem n).mpr (.inr heq))
    exact Function.update_of_ne hne ..
  · rcases (hmem n).mp hn with hn | heq
    · exact .inl hn
    · exact .inr ⟨heq ▸ hid, by simp [hissued, heq]⟩

/-- A new synth takes the place of another in the group of a voice. -/
theorem replace (h : Scene a L) (hi : i < a.voices) (halive : i ∉ a.dismantled)
    {id target : Word} {k : NodeKind} {l₁ l₂ : List NodeID}
    (hkids : L.kids (a.voice i).groupID = l₁ ++ target :: l₂)
    (hid : id ∉ issuedNodeIDs a.synth) (htarget : target ∈ issuedNodeIDs a.synth)
    (hshows : Shows a'.world
      ((L.leave (a.voice i).groupID target l₁ l₂).join (a.voice i).groupID id k l₁ l₂))
    (hissued : issuedNodeIDs a'.synth = issuedNodeIDs a.synth ++ [id])
    (hvoices : a'.voices = a.voices) (hdismantled : a'.dismantled = a.dismantled)
    (hvoice : ∀ j, j ≠ i → a'.voice j = a.voice j)
    (hgroup : (a'.voice i).groupID = (a.voice i).groupID)
    (hids : Issued (issuedNodeIDs a'.synth) (a'.voice i))
    (hplace : (a.voice i).groupID ∈
        ((L.leave (a.voice i).groupID target l₁ l₂).join (a.voice i).groupID id k l₁ l₂).kids 0#32 →
      InPlace ((L.leave (a.voice i).groupID target l₁ l₂).join (a.voice i).groupID id k l₁ l₂)
        (a'.voice i)) :
    Scene a' ((L.leave (a.voice i).groupID target l₁ l₂).join (a.voice i).groupID id k l₁ l₂) := by
  set g := (a.voice i).groupID
  set L' := (L.leave g target l₁ l₂).join g id k l₁ l₂ with hL'
  have hkids' : L'.kids g = l₁ ++ id :: l₂ := Function.update_self ..
  have hne : target ≠ id := fun heq => hid (heq ▸ htarget)
  have hkind : ∀ n, n ≠ id → n ≠ target → L'.kind n = L.kind n := by
    intro n hn hn'
    simp only [hL', Layout.join, Layout.leave, Function.update_of_ne hn, Function.update_of_ne hn']
  refine h.update hi halive hshows (fun x hx => ?_) (fun n hn hn' => hkind n ?_ ?_)
    (fun n hn hn' => ?_) (fun n hn => ?_) (hissued ▸ List.subset_append_left _ _) hvoices
    hdismantled hvoice hgroup hids hplace
  · have hxg : x ≠ g := hx
    simp only [hL', Layout.join, Layout.leave, Function.update_of_ne hxg]
  · exact fun heq => hn' (by rw [hkids', heq]; simp)
  · exact fun heq => hn (by rw [hkids, heq]; simp)
  · have heq : n = target := by
      by_contra hnt
      refine hn' ?_
      rw [hkids] at hn
      rw [hkids']
      simp only [List.mem_append, List.mem_cons] at hn ⊢
      tauto
    simp only [hL', Layout.join, Layout.leave, heq, Function.update_of_ne hne,
      Function.update_self]
  · by_cases heq : n = id
    · exact .inr ⟨heq ▸ hid, by simp [hissued, heq]⟩
    · left
      rw [hkids'] at hn
      rw [hkids]
      simp only [List.mem_append, List.mem_cons] at hn ⊢
      tauto

/-- A pitch synth of a voice ends. -/
theorem leave (h : Scene a L) (hi : i < a.voices) (halive : i ∉ a.dismantled) {n : NodeID}
    {l₁ l₂ : List NodeID} (hkids : L.kids (a.voice i).groupID = l₁ ++ n :: l₂)
    (hshows : Shows a'.world (L.leave (a.voice i).groupID n l₁ l₂))
    (hsynth : a'.synth = a.synth) (hvoices : a'.voices = a.voices)
    (hdismantled : a'.dismantled = a.dismantled) (hvoice : a'.voice = a.voice)
    (hplace : (a.voice i).groupID ∈ (L.leave (a.voice i).groupID n l₁ l₂).kids 0#32 →
      InPlace (L.leave (a.voice i).groupID n l₁ l₂) (a.voice i)) :
    Scene a' (L.leave (a.voice i).groupID n l₁ l₂) := by
  set g := (a.voice i).groupID
  set L' := L.leave g n l₁ l₂ with hL'
  have hkids' : L'.kids g = l₁ ++ l₂ := Function.update_self ..
  have hsub : ∀ x, x ∈ L'.kids g → x ∈ L.kids g := by
    intro x hx
    rw [hkids'] at hx
    rw [hkids]
    simp only [List.mem_append, List.mem_cons] at hx ⊢
    tauto
  refine h.update hi halive hshows (fun x hx => Function.update_of_ne hx ..) (fun x hx _ => ?_)
    (fun x hx hx' => ?_) (fun x hx => .inl (hsub x hx)) (hsynth ▸ List.Subset.refl _) hvoices
    hdismantled (fun j _ => by rw [hvoice]) (by rw [hvoice]) ?_ (by rw [hvoice]; exact hplace)
  · have hne : x ≠ n := fun heq => hx (by rw [hkids, heq]; simp)
    exact Function.update_of_ne hne ..
  · have heq : x = n := by
      by_contra hne
      refine hx' ?_
      rw [hkids] at hx
      rw [hkids']
      simp only [List.mem_append, List.mem_cons] at hx ⊢
      tauto
    rw [heq]
    exact Function.update_self ..
  · rw [hvoice, hsynth]
    exact h.ids i hi

theorem kind_eq_none (h : Scene a L) {id : Word} (hid : id ∉ issuedNodeIDs a.synth)
    (hidpos : 0 < id.toInt) : L.kind id = none := by
  by_contra hne
  rcases h.issued id hne with hzero | hin
  · rw [hzero] at hidpos
    exact absurd hidpos (by decide)
  · exact hid hin

theorem kind_group (h : Scene a L) (hi : i < a.voices) (halive : i ∉ a.dismantled) :
    L.kind (a.voice i).groupID = some .group := h.root _ (h.inPlace i hi halive).group

/-- Nothing happens on the server, and no voice changes. -/
theorem of_same (h : Scene a L) (hworld : a'.world = a.world)
    (hissued : issuedNodeIDs a.synth ⊆ issuedNodeIDs a'.synth) (hvoices : a'.voices = a.voices)
    (hdismantled : a'.dismantled = a.dismantled) (hvoice : a'.voice = a.voice) : Scene a' L := by
  refine h.setVoice (i := 0) hworld hissued hvoices hdismantled (fun j _ => by rw [hvoice])
    (by rw [hvoice]) (fun hi => ?_) (fun hi hid => ?_) fun hi hid => ?_ <;> rw [hvoice]
  · exact (h.ids 0 hi).mono hissued
  · exact h.inPlace 0 hi hid
  · exact h.gone 0 hi hid

/-- A voice whose nodes and IDs stay the same. -/
theorem setVoice_same (h : Scene a L) (v : Voice) (hgroup : v.groupID = (a.voice i).groupID)
    (hout : v.outputNodeID = (a.voice i).outputNodeID)
    (heffect : v.activeEffectID = (a.voice i).activeEffectID) :
    Scene (a.setVoice i v) L := by
  have hself : (a.setVoice i v).voice i = v := Function.update_self ..
  refine h.setVoice (i := i) rfl (List.Subset.refl _) rfl rfl (fun j hj => Function.update_of_ne hj ..)
    (by rw [hself, hgroup]) (fun hi => ?_) (fun hi hd => ?_) fun hi hd => ?_ <;> rw [hself]
  · have hids := h.ids i hi
    exact ⟨hgroup ▸ hids.group, hout ▸ hids.output, heffect ▸ hids.effect⟩
  · have hin := h.inPlace i hi hd
    refine ⟨hgroup ▸ hin.group, ?_, heffect ▸ hin.effect, hout ▸ hin.output⟩
    rw [hgroup, hout, heffect]
    exact hin.order
  · have hgone := h.gone i hi hd
    exact ⟨hgroup ▸ hgone.group, hout ▸ hgone.output, heffect ▸ hgone.effect⟩

/-! ## Mantling and dismantling -/

/-- The layout with a new voice: a group, and its `OutConnector`. -/
def mantledLayout (L : Layout) (groupID out : Word) : Layout :=
  (L.join 0#32 groupID .group (L.kids 0#32) []).join groupID out .output [] []

/-- A new voice joins the scene. -/
theorem mantle (h : Scene a L) {groupID out : Word} {v : Voice}
    (hgroupID : groupID ∉ issuedNodeIDs a.synth) (hout : out ∉ issuedNodeIDs a.synth)
    (hne : groupID ≠ out) (hgroup0 : groupID ≠ 0#32) (hout0 : out ≠ 0#32)
    (hshows : Shows a'.world (mantledLayout L groupID out))
    (hissued : issuedNodeIDs a'.synth = issuedNodeIDs a.synth ++ [groupID, out])
    (hvoices : a'.voices = a.voices + 1) (hdismantled : a'.dismantled = a.dismantled)
    (hvoice : a'.voice = Function.update a.voice a.voices v) (hvgroup : v.groupID = groupID)
    (hvout : v.outputNodeID = out) (hveffect : v.activeEffectID = none) :
    Scene a' (mantledLayout L groupID out) := by
  have hnone : ∀ n, n ∉ issuedNodeIDs a.synth → n ≠ 0#32 → L.kind n = none := by
    intro n hn hn0
    by_contra hkind
    rcases h.issued n hkind with hzero | hin
    · exact hn0 hzero
    · exact hn hin
  have hkind : ∀ n, n ≠ groupID → n ≠ out → (mantledLayout L groupID out).kind n = L.kind n :=
    fun n hn hn' => (Function.update_of_ne hn' ..).trans (Function.update_of_ne hn ..)
  have hold : ∀ n, L.kind n ≠ none → (mantledLayout L groupID out).kind n = L.kind n := by
    intro n hn
    refine hkind n (fun heq => hn ?_) fun heq => hn ?_ <;> rw [heq]
    · exact hnone _ hgroupID hgroup0
    · exact hnone _ hout hout0
  have hkindGroup : (mantledLayout L groupID out).kind groupID = some .group :=
    (Function.update_of_ne hne ..).trans (Function.update_self ..)
  have hkindOut : (mantledLayout L groupID out).kind out = some .output := Function.update_self ..
  have hkids0 : (mantledLayout L groupID out).kids 0#32 = L.kids 0#32 ++ [groupID] := by
    change Function.update (Function.update L.kids 0#32 (L.kids 0#32 ++ [groupID])) groupID [out]
      0#32 = _
    rw [Function.update_of_ne hgroup0.symm, Function.update_self]
  have hkidsGroup : (mantledLayout L groupID out).kids groupID = [out] := Function.update_self ..
  have hkids : ∀ g, g ≠ 0#32 → g ≠ groupID →
      (mantledLayout L groupID out).kids g = L.kids g :=
    fun g hg hg' => (Function.update_of_ne hg' ..).trans (Function.update_of_ne hg ..)
  have hnew : a'.voice a.voices = v := by rw [hvoice, Function.update_self]
  have hlt : ∀ j, j < a.voices → a'.voice j = a.voice j :=
    fun j hj => by rw [hvoice, Function.update_of_ne hj.ne]
  have hcases : ∀ j < a'.voices, j < a.voices ∨ j = a.voices := by
    intro j hj
    omega
  have hsub : issuedNodeIDs a.synth ⊆ issuedNodeIDs a'.synth :=
    hissued ▸ List.subset_append_left _ _
  have hnotDismantled : a.voices ∉ a.dismantled :=
    fun hd => absurd (h.dismantled_lt _ hd) (lt_irrefl _)
  refine ⟨hshows, fun n hn => ?_, fun n hn => ?_, fun n hn => ?_, fun g hg => ?_, fun j hj => ?_,
    fun j hj k hk heq => ?_, fun j hj hjd => ?_, fun j hj hjd => ?_, fun j hjd => ?_⟩
  · by_cases hg : n = groupID
    · exact .inr (by simp [hissued, hg])
    · by_cases ho : n = out
      · exact .inr (by simp [hissued, ho])
      · rw [hkind n hg ho] at hn
        rcases h.issued n hn with hzero | hin
        · exact .inl hzero
        · exact .inr (hsub hin)
  · by_cases hg : n = groupID
    · exact .inr ⟨0#32, by simp [hkids0, hg]⟩
    · by_cases ho : n = out
      · exact .inr ⟨groupID, by simp [hkidsGroup, ho]⟩
      · rw [hkind n hg ho] at hn
        rcases h.placed n hn with hzero | ⟨g, hmem⟩
        · exact .inl hzero
        · by_cases hg0 : g = 0#32
          · exact .inr ⟨0#32, by rw [hkids0, ← hg0]; exact List.mem_append_left _ hmem⟩
          · have hgg : g ≠ groupID := by
              intro heq
              have hempty := h.shows.tree.kids_eq_nil
                (h.shows.not_mem_lib (hnone _ hgroupID hgroup0))
              rw [heq, hempty] at hmem
              exact absurd hmem List.not_mem_nil
            exact .inr ⟨g, by rw [hkids g hg0 hgg]; exact hmem⟩
  · rw [hkids0] at hn
    rcases List.mem_append.mp hn with hn | hn
    · rw [hold n (h.shows.kind_of_mem hn)]
      exact h.root n hn
    · rw [List.mem_singleton.mp hn]
      exact hkindGroup
  · by_cases hg0 : g = 0#32
    · exact .inl hg0
    · by_cases hgg : g = groupID
      · exact .inr ⟨a.voices, by omega, hdismantled ▸ hnotDismantled, by rw [hnew, hvgroup, hgg]⟩
      · rw [hkids g hg0 hgg] at hg
        rcases h.owner g hg with hzero | ⟨j, hj, hjd, heq⟩
        · exact .inl hzero
        · exact .inr ⟨j, by omega, hdismantled ▸ hjd, by rw [hlt j hj, heq]⟩
  · rcases hcases j hj with hj | rfl
    · rw [hlt j hj]
      exact (h.ids j hj).mono hsub
    · rw [hnew]
      refine ⟨by simp [hissued, hvgroup], by simp [hissued, hvout], fun n hn => ?_⟩
      simp [hveffect] at hn
  · rcases hcases j hj with hj | rfl <;> rcases hcases k hk with hk | rfl
    · rw [hlt j hj, hlt k hk] at heq
      exact h.inj j hj k hk heq
    · rw [hlt j hj, hnew, hvgroup] at heq
      exact absurd (heq ▸ (h.ids j hj).group) hgroupID
    · rw [hlt k hk, hnew, hvgroup] at heq
      exact absurd (heq ▸ (h.ids k hk).group) hgroupID
    · rfl
  · rcases hcases j hj with hj | rfl
    · have hin := h.inPlace j hj (hdismantled ▸ hjd)
      have hmem := h.ids j hj
      rw [hlt j hj]
      refine hin.congr ?_ (hkids _ ?_ ?_) fun n hn => hold n (h.shows.kind_of_mem hn)
      · rw [hkids0]
        exact List.mem_append_left _ hin.group
      · exact (h.shows.tree.mem 0#32 _ hin.group).2.1
      · exact fun heq => hgroupID (heq ▸ hmem.group)
    · rw [hnew]
      refine ⟨?_, ⟨[], ?_, fun n hn => absurd hn List.not_mem_nil⟩, fun n hn => ?_, ?_⟩
      · rw [hkids0, hvgroup]
        simp
      · rw [hvgroup, hkidsGroup, hveffect, hvout]
        rfl
      · simp [hveffect] at hn
      · rw [hvout]
        exact hkindOut
  · rw [hdismantled] at hjd
    have hj' := h.dismantled_lt j hjd
    have hgone := h.gone j hj' hjd
    have hids := h.ids j hj'
    have hsame : ∀ n ∈ issuedNodeIDs a.synth, L.kind n = none →
        (mantledLayout L groupID out).kind n = none := by
      intro n hn hkindn
      rw [hkind n (fun heq => hgroupID (heq ▸ hn)) fun heq => hout (heq ▸ hn), hkindn]
    rw [hlt j hj']
    exact ⟨hsame _ hids.group hgone.group, hsame _ hids.output hgone.output,
      fun n hn => hsame n (hids.effect n hn) (hgone.effect n hn)⟩
  · rw [hdismantled] at hjd
    have hlt' := h.dismantled_lt j hjd
    omega

/-- A voice that is gone is dismantled once more. -/
theorem dismantle_again (h : Scene a L) (hd : i ∈ a.dismantled) (hworld : a'.world = a.world)
    (hissued : issuedNodeIDs a'.synth = issuedNodeIDs a.synth) (hvoices : a'.voices = a.voices)
    (hdismantled : a'.dismantled = a.dismantled ++ [i]) (hvoice : a'.voice = a.voice) :
    Scene a' L := by
  have hmem : ∀ j, j ∈ a'.dismantled ↔ j ∈ a.dismantled := by
    intro j
    rw [hdismantled, List.mem_append, List.mem_singleton]
    exact ⟨fun hj => hj.elim id fun heq => heq ▸ hd, .inl⟩
  refine ⟨hworld ▸ h.shows, ?_, h.placed, h.root, ?_, ?_, ?_, ?_, ?_, ?_⟩ <;>
    simp only [hmem, hissued, hvoices, hvoice]
  · exact h.issued
  · exact h.owner
  · exact h.ids
  · exact h.inj
  · exact h.inPlace
  · exact h.gone
  · exact h.dismantled_lt

/-- The layout without a voice: its group is emptied, and goes. -/
def dismantledLayout (L : Layout) (groupID : Word) (l₁ l₂ : List NodeID) : Layout :=
  (L.empty groupID).leave 0#32 groupID l₁ l₂

/-- A voice leaves the scene. -/
theorem dismantle (h : Scene a L) (hi : i < a.voices) (halive : i ∉ a.dismantled)
    {l₁ l₂ : List NodeID} (hkids : L.kids 0#32 = l₁ ++ (a.voice i).groupID :: l₂)
    (hshows : Shows a'.world (dismantledLayout L (a.voice i).groupID l₁ l₂))
    (hissued : issuedNodeIDs a'.synth = issuedNodeIDs a.synth) (hvoices : a'.voices = a.voices)
    (hdismantled : a'.dismantled = a.dismantled ++ [i]) (hvoice : a'.voice = a.voice) :
    Scene a' (dismantledLayout L (a.voice i).groupID l₁ l₂) := by
  have hin := h.inPlace i hi halive
  set g := (a.voice i).groupID with hg
  set L' := dismantledLayout L g l₁ l₂ with hL'
  have hg0 : g ≠ 0#32 := (h.shows.tree.mem 0#32 g hin.group).2.1
  have hkids0 : L'.kids 0#32 = l₁ ++ l₂ := by
    change Function.update (Function.update L.kids g []) 0#32 (l₁ ++ l₂) 0#32 = _
    exact Function.update_self ..
  have hkidsGroup : L'.kids g = [] :=
    (Function.update_of_ne hg0 ..).trans (Function.update_self ..)
  have hother : ∀ x, x ≠ 0#32 → x ≠ g → L'.kids x = L.kids x :=
    fun x hx hxg => (Function.update_of_ne hx ..).trans (Function.update_of_ne hxg ..)
  have hkindOf : ∀ n, n ≠ g → n ∉ L.kids g → L'.kind n = L.kind n :=
    fun n hn hn' => (Function.update_of_ne hn ..).trans (if_neg fun hmem => hn' (List.mem_toFinset.mp hmem))
  have hkindIn : ∀ n ∈ L.kids g, L'.kind n = none := by
    intro n hn
    by_cases hng : n = g
    · rw [hng]
      exact Function.update_self ..
    · exact (Function.update_of_ne hng ..).trans (if_pos (List.mem_toFinset.mpr hn))
  -- what is left in the table is what it was
  have hleft : ∀ n, L'.kind n ≠ none → n ≠ g ∧ n ∉ L.kids g ∧ L.kind n ≠ none := by
    intro n hn
    have hng : n ≠ g := by
      intro heq
      rw [heq] at hn
      exact hn (Function.update_self ..)
    have hmem : n ∉ L.kids g := fun hmem => hn (hkindIn n hmem)
    exact ⟨hng, hmem, by rwa [hkindOf n hng hmem] at hn⟩
  have hold : ∀ n, L.kind n = none → L'.kind n = none := by
    intro n hnone
    by_contra hn
    exact (hleft n hn).2.2 hnone
  have hnd := h.shows.tree.nodup 0#32
  rw [hkids] at hnd
  have hnotMem : g ∉ l₁ ++ l₂ :=
    (List.nodup_cons.mp (List.perm_middle.nodup_iff.mp hnd)).1
  have hroot : ∀ n, n ∈ l₁ ++ l₂ ↔ n ∈ L.kids 0#32 ∧ n ≠ g := by
    intro n
    rw [hkids]
    by_cases hng : n = g
    · simp [hng] at hnotMem ⊢
      exact hnotMem
    · simp [hng]
  refine ⟨hshows, fun n hn => ?_, fun n hn => ?_, fun n hn => ?_, fun x hx => ?_, fun j hj => ?_,
    fun j hj k hk heq => ?_, fun j hj hjd => ?_, fun j hj hjd => ?_, fun j hjd => ?_⟩
  · rw [hissued]
    exact h.issued n (hleft n hn).2.2
  · rcases h.placed n (hleft n hn).2.2 with hzero | ⟨x, hx⟩
    · exact .inl hzero
    · right
      by_cases hx0 : x = 0#32
      · rw [hx0] at hx
        exact ⟨0#32, by rw [hkids0]; exact (hroot n).mpr ⟨hx, (hleft n hn).1⟩⟩
      · have hxg : x ≠ g := fun heq => (hleft n hn).2.1 (heq ▸ hx)
        exact ⟨x, by rw [hother x hx0 hxg]; exact hx⟩
  · rw [hkids0] at hn
    have hn' := (hroot n).mp hn
    have hmem : n ∉ L.kids g := fun hmem => hg0 (h.shows.unique hmem hn'.1)
    rw [hkindOf n hn'.2 hmem]
    exact h.root n hn'.1
  · by_cases hx0 : x = 0#32
    · exact .inl hx0
    · have hxg : x ≠ g := fun heq => hx (heq ▸ hkidsGroup)
      rw [hother x hx0 hxg] at hx
      rcases h.owner x hx with hzero | ⟨j, hj, hjd, heq⟩
      · exact .inl hzero
      · have hji : j ≠ i := fun hji => hxg (by rw [heq, hji])
        exact .inr ⟨j, hvoices ▸ hj, by simp [hdismantled, hjd, hji], by rw [hvoice, heq]⟩
  · rw [hvoice, hissued]
    exact h.ids j (hvoices ▸ hj)
  · rw [hvoice] at heq
    exact h.inj j (hvoices ▸ hj) k (hvoices ▸ hk) heq
  · rw [hvoices] at hj
    rw [hdismantled, List.mem_append, List.mem_singleton, not_or] at hjd
    have hinj := h.inPlace j hj hjd.1
    have hne : (a.voice j).groupID ≠ g := fun heq => hjd.2 (h.inj j hj i hi heq)
    have hne0 := (h.shows.tree.mem 0#32 _ hinj.group).2.1
    rw [hvoice]
    refine hinj.congr ?_ (hother _ hne0 hne) fun n hn => hkindOf n ?_ ?_
    · rw [hkids0]
      exact (hroot _).mpr ⟨hinj.group, hne⟩
    · intro heq
      rw [heq] at hn
      exact hne0 (h.shows.unique hn hin.group)
    · exact fun hmem => hne (h.shows.unique hn hmem)
  · rw [hvoices] at hj
    rw [hdismantled, List.mem_append, List.mem_singleton] at hjd
    rw [hvoice]
    rcases hjd with hjd | rfl
    · have hgone := h.gone j hj hjd
      exact ⟨hold _ hgone.group, hold _ hgone.output, fun n hn => hold n (hgone.effect n hn)⟩
    · rcases hin.order with ⟨pitches, horder, -⟩
      refine ⟨Function.update_self .., hkindIn _ ?_, fun n hn => hkindIn n ?_⟩
      · rw [horder]
        simp
      · rw [horder]
        simp [Option.mem_def.mp hn]
  · rw [hdismantled, List.mem_append, List.mem_singleton] at hjd
    rw [hvoices]
    rcases hjd with hjd | rfl
    · exact h.dismantled_lt j hjd
    · exact hi

end Scene

end PoopWorms.App
