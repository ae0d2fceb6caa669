import PoopWorms.App.Scene

/-!
# Runs that the server serves

A pitch synth joins the group of its voice at the head, the first effect in front of the
`OutConnector`, and every other effect in the place of the last one, as long as the server
takes the messages: the IDs are positive and distinct, and the table has room. Every
operation then keeps the scene, and so does every run.
-/

namespace PoopWorms.App

open Octets Osc Server Client

/-- The messages so far have positive and distinct node IDs, and none was refused for lack of
room. -/
structure Served (a : Audio) : Prop where
  nodup : (issuedNodeIDs a.synth).Nodup
  pos : ∀ id ∈ issuedNodeIDs a.synth, 0 < id.toInt
  room : SCErr.tooManyNodes ∉ a.replies

/-- What the messages of a served state say about its last new ID. -/
theorem Served.last {a' : Audio} {synth : AKSCSynth} {id : Word} (h : Served a')
    (hissued : issuedNodeIDs a'.synth = issuedNodeIDs synth ++ [id]) :
    (∀ n ∈ issuedNodeIDs synth, 0 < n.toInt) ∧ id ∉ issuedNodeIDs synth ∧ 0 < id.toInt := by
  have hnd := h.nodup
  rw [hissued, List.nodup_append] at hnd
  refine ⟨fun n hn => h.pos n (by simp [hissued, hn]), fun hid => ?_, h.pos id (by simp [hissued])⟩
  exact hnd.2.2 id hid id (by simp) rfl

/-- What they say about its last two. -/
theorem Served.last_two {a' : Audio} {synth : AKSCSynth} {groupID out : Word} (h : Served a')
    (hissued : issuedNodeIDs a'.synth = issuedNodeIDs synth ++ [groupID, out]) :
    groupID ∉ issuedNodeIDs synth ∧ out ∉ issuedNodeIDs synth ∧ groupID ≠ out ∧
      0 < groupID.toInt ∧ 0 < out.toInt := by
  have hnd := h.nodup
  have hpos := h.pos
  rw [hissued] at hnd hpos
  simp only [List.nodup_append, List.nodup_cons, List.mem_cons, List.not_mem_nil, or_false] at hnd
  refine ⟨fun hmem => ?_, fun hmem => ?_, hnd.2.1.1, hpos _ (by simp), hpos _ (by simp)⟩
  · exact hnd.2.2 _ hmem _ (.inl rfl) rfl
  · exact hnd.2.2 _ hmem _ (.inr rfl) rfl

namespace Scene

variable {fpu : FloatUnit} {a a' : Audio} {L L' : Layout} {i : ℕ}

/-! ## Firing and eating -/

/-- `fire` is one `/s_new` at the head of the group. -/
theorem fire_eq (fpu : FloatUnit) (a : Audio) (i : ℕ) (roundedFreq : Word) :
    ∃ synth, issuedNodeIDs synth = issuedNodeIDs a.synth ++ [a.synth.lastNodeID + 1#32] ∧
      synth.lastNodeID = a.synth.lastNodeID + 1#32 ∧
      a.fire fpu i roundedFreq = { a with
        synth
        world := (sNew a.world (SoundFood.synthNameForFoodId (a.voice i).foodInBelly).bytes
          (a.synth.lastNodeID + 1#32) AKAddAction.addToHeadAction.toInt (a.voice i).groupID).1
        replies := a.replies ++
          [(sNew a.world (SoundFood.synthNameForFoodId (a.voice i).foodInBelly).bytes
            (a.synth.lastNodeID + 1#32) AKAddAction.addToHeadAction.toInt
            (a.voice i).groupID).2] } :=
  ⟨_, issuedNodeIDs_synthWithName .., rfl, Audio.deliver_synthWithName fpu a _ _ rfl _ _⟩

/-- A pitch synth goes to the head of the group, where there is room. -/
theorem fire_room (fpu : FloatUnit) (h : Scene a L) (hi : i < a.voices) (halive : i ∉ a.dismantled)
    (hpos : ∀ id ∈ issuedNodeIDs a.synth, 0 < id.toInt)
    (hid : a.synth.lastNodeID + 1#32 ∉ issuedNodeIDs a.synth)
    (hidpos : 0 < (a.synth.lastNodeID + 1#32).toInt) (hroom : L.size < 1024)
    (roundedFreq : Word) :
    Scene (a.fire fpu i roundedFreq) (L.join (a.voice i).groupID (a.synth.lastNodeID + 1#32)
      .pitch [] (L.kids (a.voice i).groupID)) ∧
    (a.fire fpu i roundedFreq).replies = a.replies ++ [.none] := by
  have hgpos := (hpos _ (h.ids i hi).group).le
  have hfree := h.kind_eq_none hid hidpos
  rcases h.shows.sNew_head (h.shows.fresh hidpos hfree) hroom hgpos (h.kind_group hi halive)
    (mem_synthdefs_food (a.voice i).foodInBelly) with ⟨w', hnew, hshows⟩
  rcases fire_eq fpu a i roundedFreq with ⟨synth, hissued, -, hfire⟩
  rw [kindOfDef_food] at hshows
  rw [hfire, hnew]
  refine ⟨h.join hi halive rfl hid hshows hissued rfl rfl (fun _ _ => rfl) rfl ?_ ?_, rfl⟩
  · refine (h.ids i hi).mono ?_
    rw [hissued]
    exact List.subset_append_left _ _
  · intro hroot
    have hin := h.inPlace i hi halive
    rcases hin.order with ⟨pitches, horder, hpitches⟩
    have hold : ∀ n, L.kind n ≠ none → Function.update L.kind (a.synth.lastNodeID + 1#32)
        (some .pitch) n = L.kind n := by
      intro n hn
      refine Function.update_of_ne (fun heq => hn ?_) ..
      rw [heq, hfree]
    refine ⟨hroot, ⟨(a.synth.lastNodeID + 1#32) :: pitches, ?_, fun n hn => ?_⟩,
      fun n hn => ?_, ?_⟩
    · refine (Function.update_self ..).trans ?_
      rw [horder]
      rfl
    · simp only [Layout.join]
      by_cases heq : n = a.synth.lastNodeID + 1#32
      · rw [heq, Function.update_self]
      · have hmem : n ∈ pitches := by simpa [heq] using hn
        rw [hold n (by simp [hpitches n hmem])]
        exact hpitches n hmem
    · simp only [Layout.join]
      rw [hold n (by simp [hin.effect n hn])]
      exact hin.effect n hn
    · simp only [Layout.join]
      rw [hold _ (by simp [hin.output])]
      exact hin.output

/-- Where there is no room, the server refuses the pitch synth. -/
theorem fire_full (fpu : FloatUnit) (h : Scene a L) (hi : i < a.voices) (halive : i ∉ a.dismantled)
    (hpos : ∀ id ∈ issuedNodeIDs a.synth, 0 < id.toInt)
    (hid : a.synth.lastNodeID + 1#32 ∉ issuedNodeIDs a.synth)
    (hidpos : 0 < (a.synth.lastNodeID + 1#32).toInt) (hfull : 1024 ≤ L.size)
    (roundedFreq : Word) :
    (a.fire fpu i roundedFreq).replies = a.replies ++ [.tooManyNodes] := by
  have hgpos := (hpos _ (h.ids i hi).group).le
  have hfresh := h.shows.fresh hidpos (h.kind_eq_none hid hidpos)
  rcases fire_eq fpu a i roundedFreq with ⟨synth, -, -, hfire⟩
  rw [hfire, h.shows.sNew_refused (h.shows.nodeNew_full hfresh hfull _) .addToHeadAction hgpos
    (.inl (h.kind_group hi halive))
    (mem_synthdefs_food _)]

/-- `eatEffect:` is one `/s_new`, in the place of the active effect or in front of the
`OutConnector`. -/
theorem eatEffect_eq (fpu : FloatUnit) (a : Audio) (i : ℕ) (effectId : Fin 4) :
    ∃ synth, issuedNodeIDs synth = issuedNodeIDs a.synth ++ [a.synth.lastNodeID + 1#32] ∧
      synth.lastNodeID = a.synth.lastNodeID + 1#32 ∧
      a.eatEffect fpu i effectId = { a with
        synth
        voice := Function.update a.voice i
          ((a.voice i).withEffect effectId (a.synth.lastNodeID + 1#32))
        world := (sNew a.world (SoundFood.effectNameForEffectId effectId).bytes
          (a.synth.lastNodeID + 1#32) (a.voice i).effectPlace.1.toInt
          (a.voice i).effectPlace.2).1
        replies := a.replies ++
          [(sNew a.world (SoundFood.effectNameForEffectId effectId).bytes
            (a.synth.lastNodeID + 1#32) (a.voice i).effectPlace.1.toInt
            (a.voice i).effectPlace.2).2] } := by
  refine ⟨(a.synth.synthWithName (SoundFood.effectNameForEffectId effectId)
    [.string (.ofString "inBus"), .int (a.voice i).busID] (a.voice i).effectPlace.1
    (a.voice i).effectPlace.2).2, issuedNodeIDs_synthWithName .., rfl, ?_⟩
  have hdeliver := Audio.deliver_synthWithName fpu a
    (SoundFood.effectNameForEffectId effectId)
    [.string (.ofString "inBus"), .int (a.voice i).busID] rfl (a.voice i).effectPlace.1
    (a.voice i).effectPlace.2
  unfold Audio.eatEffect Audio.setVoice
  simp only [hdeliver]
  rfl

theorem issued_withEffect {ids : List Word} {v : Voice} (h : Issued ids v) (effectId : Fin 4)
    (id : Word) : Issued (ids ++ [id]) (v.withEffect effectId id) := by
  refine ⟨List.mem_append_left _ h.group, List.mem_append_left _ h.output, fun n hn => ?_⟩
  have heq : n = id := (Option.mem_some_iff.mp hn).symm
  simp [heq]

/-- The target of a new effect is a node of the voice. -/
theorem effectPlace_mem (v : Voice) :
    v.effectPlace.2 = v.outputNodeID ∨ v.effectPlace.2 ∈ v.activeEffectID := by
  unfold Voice.effectPlace
  cases v.activeEffectID with
  | some e => exact .inr rfl
  | none => exact .inl rfl

/-- A voice whose last effect is the one in front of the output. -/
theorem inPlace_withEffect {v : Voice} {id : Word} {pitches : List NodeID}
    (hroot : v.groupID ∈ L.kids 0#32)
    (hkids : L.kids v.groupID = pitches ++ id :: [v.outputNodeID])
    (hpitches : ∀ n ∈ pitches, L.kind n = some .pitch) (hid : L.kind id = some .effect)
    (hout : L.kind v.outputNodeID = some .output) (effectId : Fin 4) :
    InPlace L (v.withEffect effectId id) := by
  refine ⟨hroot, ⟨pitches, ?_, hpitches⟩, fun n hn => ?_, hout⟩
  · refine hkids.trans ?_
    simp [Voice.withEffect]
  · rw [← Option.mem_some_iff.mp hn]
    exact hid

/-- A new effect takes its place, where there is room. -/
theorem eatEffect_room (fpu : FloatUnit) (h : Scene a L) (hi : i < a.voices) (halive : i ∉ a.dismantled)
    (hpos : ∀ id ∈ issuedNodeIDs a.synth, 0 < id.toInt)
    (hid : a.synth.lastNodeID + 1#32 ∉ issuedNodeIDs a.synth)
    (hidpos : 0 < (a.synth.lastNodeID + 1#32).toInt) (hroom : L.size < 1024)
    (effectId : Fin 4) :
    ∃ L', Scene (a.eatEffect fpu i effectId) L' ∧
      L'.size = L.size + (if (a.voice i).activeEffectID = none then 1 else 0) ∧
      (a.eatEffect fpu i effectId).replies = a.replies ++ [.none] := by
  have hin := h.inPlace i hi halive
  have hids := h.ids i hi
  have hfree := h.kind_eq_none hid hidpos
  have hfresh := h.shows.fresh hidpos hfree
  have hname := mem_synthdefs_effect effectId
  have hout := (hpos _ hids.output).le
  have hold : ∀ n, L.kind n ≠ none → n ≠ a.synth.lastNodeID + 1#32 :=
    fun n hn heq => hn (by rw [heq, hfree])
  rcases hin.order with ⟨pitches, horder, hpitches⟩
  rcases eatEffect_eq fpu a i effectId with ⟨synth, hissued, -, heat⟩
  have hids' : Issued (issuedNodeIDs synth)
      ((a.voice i).withEffect effectId (a.synth.lastNodeID + 1#32)) := by
    rw [hissued]
    exact issued_withEffect hids _ _
  rw [heat]
  unfold Voice.effectPlace
  cases heffect : (a.voice i).activeEffectID with
  | none =>
    have hkids : L.kids (a.voice i).groupID
        = pitches ++ (a.voice i).outputNodeID :: [] := by
      rw [horder, heffect]
      simp
    rcases h.shows.sNew_before hfresh hroom hout hkids hname with ⟨w', hnew, hshows⟩
    rw [kindOfDef_effect] at hshows
    rw [hnew]
    refine ⟨_, h.join hi halive hkids hid hshows hissued rfl rfl
      (fun j hj => Function.update_of_ne hj ..) ?_ ?_ fun hroot => ?_, rfl, rfl⟩
    · simp only [Function.update_self]
      rfl
    · simp only [Function.update_self]
      exact hids'
    · simp only [Function.update_self]
      have hkind : ∀ n, L.kind n ≠ none → (L.join (a.voice i).groupID
          (a.synth.lastNodeID + 1#32) .effect pitches [(a.voice i).outputNodeID]).kind n
            = L.kind n := fun n hn => Function.update_of_ne (hold n hn) ..
      refine inPlace_withEffect hroot (Function.update_self ..) (fun n hn => ?_)
        (Function.update_self ..) ?_ _
      · rw [hkind n (by simp [hpitches n hn])]
        exact hpitches n hn
      · rw [hkind _ (by simp [hin.output])]
        exact hin.output
  | some effect =>
    have hkids : L.kids (a.voice i).groupID
        = pitches ++ effect :: [(a.voice i).outputNodeID] := by
      rw [horder, heffect]
      simp
    have heffect' := hin.effect effect heffect
    have hissued' := hids.effect effect heffect
    rcases h.shows.sNew_replace hfresh hroom (hpos _ hissued').le hkids heffect'
      (by decide) hname with ⟨w', hnew, hshows⟩
    rw [kindOfDef_effect] at hshows
    rw [hnew]
    refine ⟨_, h.replace hi halive hkids hid hissued' hshows hissued rfl rfl
      (fun j hj => Function.update_of_ne hj ..) ?_ ?_ fun hroot => ?_, ?_, rfl⟩
    · simp only [Function.update_self]
      rfl
    · simp only [Function.update_self]
      exact hids'
    · simp only [Function.update_self]
      have hnd := h.shows.tree.nodup (a.voice i).groupID
      rw [hkids] at hnd
      have hnotMem := (List.nodup_cons.mp (List.perm_middle.nodup_iff.mp hnd)).1
      have hkind : ∀ n, L.kind n ≠ none → n ≠ effect →
          ((L.leave (a.voice i).groupID effect pitches [(a.voice i).outputNodeID]).join
            (a.voice i).groupID (a.synth.lastNodeID + 1#32) .effect pitches
            [(a.voice i).outputNodeID]).kind n = L.kind n := by
        intro n hn hne
        exact (Function.update_of_ne (hold n hn) ..).trans (Function.update_of_ne hne ..)
      refine inPlace_withEffect hroot (Function.update_self ..) (fun n hn => ?_)
        (Function.update_self ..) ?_ _
      · have hne : n ≠ effect := fun heq => hnotMem (by simp [← heq, hn])
        rw [hkind n (by simp [hpitches n hn]) hne]
        exact hpitches n hn
      · have hne : (a.voice i).outputNodeID ≠ effect := fun heq => hnotMem (by simp [← heq])
        rw [hkind _ (by simp [hin.output]) hne]
        exact hin.output
    · have hsize : 0 < L.size := by
        rw [← h.shows.card]
        exact Finset.card_pos.mpr ⟨effect, h.shows.mem_lib (by simp [heffect'])⟩
      simp only [Layout.join, Layout.leave, reduceCtorEq, if_false]
      omega

/-- Where the server refuses the effect, the voice takes it for the active one all the same. -/
theorem eatEffect_refused (fpu : FloatUnit) (h : Scene a L) (hi : i < a.voices) (halive : i ∉ a.dismantled)
    (hpos : ∀ id ∈ issuedNodeIDs a.synth, 0 < id.toInt) {effectId : Fin 4} {err : SCErr}
    (hnew : a.world.nodeNew (SoundFood.effectNameForEffectId effectId).bytes
      (a.synth.lastNodeID + 1#32) = .error (err, a.world)) :
    (a.eatEffect fpu i effectId).replies = a.replies ++ [err] ∧
      (a.eatEffect fpu i effectId).world = a.world ∧
      (a.eatEffect fpu i effectId).voice i
        = (a.voice i).withEffect effectId (a.synth.lastNodeID + 1#32) := by
  have hin := h.inPlace i hi halive
  have hids := h.ids i hi
  rcases eatEffect_eq fpu a i effectId with ⟨synth, -, -, heat⟩
  have htarget : (a.voice i).effectPlace.2 ∈ issuedNodeIDs a.synth ∧
      L.kind (a.voice i).effectPlace.2 ≠ none := by
    rcases effectPlace_mem (a.voice i) with heq | hmem
    · rw [heq, hin.output]
      exact ⟨hids.output, Option.some_ne_none _⟩
    · rw [hin.effect _ hmem]
      exact ⟨hids.effect _ hmem, Option.some_ne_none _⟩
  have haction : (a.voice i).effectPlace.1 ≠ .addToHeadAction ∧
      (a.voice i).effectPlace.1 ≠ .addToTailAction := by
    unfold Voice.effectPlace
    cases (a.voice i).activeEffectID <;> simp
  rw [heat, h.shows.sNew_refused hnew _ (hpos _ htarget.1).le (.inr ⟨htarget.2, haction⟩)
    (mem_synthdefs_effect effectId)]
  exact ⟨rfl, rfl, Function.update_self ..⟩

/-- `fire`, as long as the server takes the message. -/
theorem fire (h : Scene a L) (hi : i < a.voices) (roundedFreq : Word)
    (hserved : Served (a.fire fpu i roundedFreq)) :
    ∃ L', Scene (a.fire fpu i roundedFreq) L' := by
  rcases fire_eq fpu a i roundedFreq with ⟨synth, hissued, -, hfire⟩
  have hissued' : issuedNodeIDs (a.fire fpu i roundedFreq).synth
      = issuedNodeIDs a.synth ++ [a.synth.lastNodeID + 1#32] := by rw [hfire, hissued]
  rcases hserved.last hissued' with ⟨hpos, hid, hidpos⟩
  by_cases hd : i ∈ a.dismantled
  · rcases h.shows.sNew_nowhere (hpos _ (h.ids i hi).group).le (h.gone i hi hd).group
      (mem_synthdefs_food (a.voice i).foodInBelly) .addToHeadAction with ⟨err, hnew, -⟩
    refine ⟨L, h.of_same ?_ (hissued' ▸ List.subset_append_left _ _) ?_ ?_ ?_⟩ <;>
      rw [hfire]
    rw [hnew]
  · by_cases hroom : L.size < 1024
    · exact ⟨_, (h.fire_room fpu hi hd hpos hid hidpos hroom roundedFreq).1⟩
    · have hfull := h.fire_full fpu hi hd hpos hid hidpos (not_lt.mp hroom) roundedFreq
      exact absurd (hfull ▸ List.mem_append_right _ (List.mem_singleton_self _)) hserved.room

/-- `eatEffect:`, as long as the server takes the message. -/
theorem eatEffect (h : Scene a L) (hi : i < a.voices) (effectId : Fin 4)
    (hserved : Served (a.eatEffect fpu i effectId)) :
    ∃ L', Scene (a.eatEffect fpu i effectId) L' := by
  rcases eatEffect_eq fpu a i effectId with ⟨synth, hissued, -, heat⟩
  have hissued' : issuedNodeIDs (a.eatEffect fpu i effectId).synth
      = issuedNodeIDs a.synth ++ [a.synth.lastNodeID + 1#32] := by rw [heat, hissued]
  rcases hserved.last hissued' with ⟨hpos, hid, hidpos⟩
  by_cases hd : i ∈ a.dismantled
  · have hgone := h.gone i hi hd
    have hids := h.ids i hi
    have htarget : (a.voice i).effectPlace.2 ∈ issuedNodeIDs a.synth ∧
        L.kind (a.voice i).effectPlace.2 = none := by
      rcases effectPlace_mem (a.voice i) with heq | hmem
      · rw [heq]
        exact ⟨hids.output, hgone.output⟩
      · exact ⟨hids.effect _ hmem, hgone.effect _ hmem⟩
    rcases h.shows.sNew_nowhere (hpos _ htarget.1).le htarget.2 (mem_synthdefs_effect effectId)
      (a.voice i).effectPlace.1 with ⟨err, hnew, -⟩
    refine ⟨L, h.setVoice (i := i) ?_ (hissued' ▸ List.subset_append_left _ _) ?_ ?_
      (fun j hj => ?_) ?_ (fun _ => ?_) (fun _ halive => absurd hd halive) fun _ _ => ?_⟩
    · rw [heat, hnew]
    · rw [heat]
    · rw [heat]
    · rw [heat]
      exact Function.update_of_ne hj ..
    · rw [heat]
      simp only [Function.update_self]
      rfl
    · rw [hissued', heat]
      simp only [Function.update_self]
      exact issued_withEffect hids _ _
    · rw [heat]
      simp only [Function.update_self]
      refine ⟨hgone.group, hgone.output, fun n hn => ?_⟩
      rw [← Option.mem_some_iff.mp hn]
      exact h.kind_eq_none hid hidpos
  · by_cases hroom : L.size < 1024
    · rcases h.eatEffect_room fpu hi hd hpos hid hidpos hroom effectId
        with ⟨L', hL', -⟩
      exact ⟨L', hL'⟩
    · have hfresh := h.shows.fresh hidpos (h.kind_eq_none hid hidpos)
      have hnew := h.shows.nodeNew_full hfresh (not_lt.mp hroom)
        (SoundFood.effectNameForEffectId effectId).bytes
      have hfull := h.eatEffect_refused fpu hi hd hpos hnew
      exact absurd (hfull.1 ▸ List.mem_append_right _ (List.mem_singleton_self _)) hserved.room

/-- A pitch synth leaves the group of its voice. -/
theorem nodeDelete (h : Scene a L) {n : NodeID} (hkind : L.kind n = some .pitch) :
    ∃ L', Scene { a with world := a.world.nodeDelete n } L' ∧ L'.size = L.size - 1 := by
  have hne0 : n ≠ 0#32 := by
    intro heq
    rw [heq, h.shows.kind_root] at hkind
    exact absurd hkind (by decide)
  -- the node is a child of the group of a voice, and one of its pitch synths
  rcases h.placed n (by simp [hkind]) with hzero | ⟨g, hmem⟩
  · exact absurd hzero hne0
  rcases h.owner g (List.ne_nil_of_mem hmem) with hzero | ⟨i, hi, halive, heq⟩
  · rw [hzero] at hmem
    rw [h.root n hmem] at hkind
    exact absurd hkind (by decide)
  rw [heq] at hmem
  have hin := h.inPlace i hi halive
  rcases hin.order with ⟨pitches, horder, hpitches⟩
  have hpitch : n ∈ pitches := by
    rw [horder] at hmem
    simp only [List.mem_append, Option.mem_toList, List.mem_singleton] at hmem
    rcases hmem with (hmem | hmem) | hmem
    · exact hmem
    · rw [hin.effect n hmem] at hkind
      exact absurd hkind (by decide)
    · rw [hmem, hin.output] at hkind
      exact absurd hkind (by decide)
  rcases List.append_of_mem hpitch with ⟨l₁, l₂, hl⟩
  set rest := l₂ ++ (a.voice i).activeEffectID.toList ++ [(a.voice i).outputNodeID] with hrest
  have hkids : L.kids (a.voice i).groupID = l₁ ++ n :: rest := by
    rw [horder, hl, hrest]
    simp
  have hnd := h.shows.tree.nodup (a.voice i).groupID
  rw [hkids] at hnd
  have hnotMem := (List.nodup_cons.mp (List.perm_middle.nodup_iff.mp hnd)).1
  have hsame : ∀ x ∈ l₁ ++ rest, (L.leave (a.voice i).groupID n l₁ rest).kind x = L.kind x := by
    intro x hx
    refine Function.update_of_ne (fun heq => hnotMem ?_) ..
    rwa [heq] at hx
  refine ⟨_, h.leave hi halive hkids (h.shows.nodeDelete hkids hkind (by decide)) rfl rfl rfl rfl
    fun hroot => ⟨hroot, ⟨l₁ ++ l₂, ?_, fun x hx => ?_⟩, fun x hx => ?_, ?_⟩, rfl⟩
  · refine (Function.update_self ..).trans ?_
    rw [hrest]
    simp
  · have hx' : x ∈ l₁ ++ rest := by
      rw [hrest]
      simp only [List.mem_append] at hx ⊢
      tauto
    rw [hsame x hx']
    refine hpitches x ?_
    rw [hl]
    simp only [List.mem_append, List.mem_cons] at hx ⊢
    tauto
  · rw [hsame x (by rw [hrest]; simp [Option.mem_def.mp hx])]
    exact hin.effect x hx
  · rw [hsame _ (by rw [hrest]; simp)]
    exact hin.output

/-- A pitch synth ends by itself. -/
theorem synthEnds (h : Scene a L) (n : NodeID) : ∃ L', Scene (a.synthEnds n) L' := by
  unfold Audio.synthEnds
  split_ifs with hkind
  · rcases h.nodeDelete (h.shows.kind ▸ hkind) with ⟨L', hL', -⟩
    exact ⟨L', hL'⟩
  · exact ⟨L, h⟩

/-! ## Mantling and dismantling -/

/-- `mantleSynths` is one `/g_new` under the root group and one `/s_new` in the new group. -/
theorem mantleSynths_eq (fpu : FloatUnit) (a : Audio) :
    ∃ r v, Server.gNewTail a.world (a.synth.lastGroupID + 1#32) 0#32 = some r ∧
      v.groupID = a.synth.lastGroupID + 1#32 ∧ v.outputNodeID = a.synth.lastNodeID + 1#32 ∧
      v.activeEffectID = none ∧
      a.mantleSynths fpu = { a with
        synth := Audio.mantled a.synth
        voice := Function.update a.voice a.voices v
        voices := a.voices + 1
        world := (sNew r.1 outConnector.bytes (a.synth.lastNodeID + 1#32)
          AKAddAction.addToTailAction.toInt (a.synth.lastGroupID + 1#32)).1
        replies := a.replies ++ [r.2, (sNew r.1 outConnector.bytes (a.synth.lastNodeID + 1#32)
          AKAddAction.addToTailAction.toInt (a.synth.lastGroupID + 1#32)).2] } := by
  rcases Audio.deliver_mantled fpu a with ⟨r, hr, hdeliver⟩
  let v : Voice :=
    { Audio.unmantled with
      groupID := a.synth.lastGroupID + 1#32
      busID := a.synth.lastBusID + 2#32
      outputNodeID := a.synth.lastNodeID + 1#32
      volume := 0x3f800000#32
      foodInBelly := 0
      activeEffectID := none }
  refine ⟨r, v, hr, rfl, rfl, rfl, ?_⟩
  change { (a.deliver fpu (Audio.mantled a.synth)).setVoice a.voices v with
    voices := a.voices + 1 } = _
  rw [hdeliver]
  rfl

section Mantle

variable (h : Scene a L) (hgroup : a.synth.lastGroupID + 1#32 ∉ issuedNodeIDs a.synth)
  (hout : a.synth.lastNodeID + 1#32 ∉ issuedNodeIDs a.synth)
  (hne : a.synth.lastGroupID + 1#32 ≠ a.synth.lastNodeID + 1#32)
  (hgpos : 0 < (a.synth.lastGroupID + 1#32).toInt) (hopos : 0 < (a.synth.lastNodeID + 1#32).toInt)

include h hgroup hgpos

/-- The new group goes to the tail of the root group, where there is room. -/
theorem group_room (hroom : L.size < 1024) : ∃ w₁,
    Server.gNewTail a.world (a.synth.lastGroupID + 1#32) 0#32 = some (w₁, .none) ∧
      Shows w₁ (L.join 0#32 (a.synth.lastGroupID + 1#32) .group (L.kids 0#32) []) :=
  h.shows.gNewTail (h.shows.fresh hgpos (h.kind_eq_none hgroup hgpos)) hroom (le_refl _)
    h.shows.kind_root

include hout hne hopos

/-- A new voice joins, where there is room for its two nodes. -/
theorem mantleSynths_room (fpu : FloatUnit) (hroom : L.size + 1 < 1024) :
    Scene (a.mantleSynths fpu)
        (mantledLayout L (a.synth.lastGroupID + 1#32) (a.synth.lastNodeID + 1#32)) ∧
      (a.mantleSynths fpu).replies = a.replies ++ [.none, .none] := by
  have hfree := h.kind_eq_none hgroup hgpos
  have hfree' := h.kind_eq_none hout hopos
  rcases h.group_room hgroup hgpos (by omega) with ⟨w₁, hgnew, hshows₁⟩
  rcases mantleSynths_eq fpu a with ⟨r, v, hr, hvgroup, hvout, hveffect, hmantle⟩
  rw [hgnew, Option.some_inj] at hr
  subst hr
  set groupID := a.synth.lastGroupID + 1#32
  set out := a.synth.lastNodeID + 1#32
  have hg0 : groupID ≠ 0#32 := (h.shows.fresh hgpos hfree).ne_zero
  have ho0 : out ≠ 0#32 := (h.shows.fresh hopos hfree').ne_zero
  have hkind : (L.join 0#32 groupID .group (L.kids 0#32) []).kind out = none :=
    (Function.update_of_ne hne.symm ..).trans hfree'
  have hkids : (L.join 0#32 groupID .group (L.kids 0#32) []).kids groupID = [] :=
    (Function.update_of_ne hg0 ..).trans (h.shows.tree.kids_eq_nil (h.shows.not_mem_lib hfree))
  rcases hshows₁.sNew_tail (hshows₁.fresh hopos hkind) hroom hgpos.le (Function.update_self ..)
    mem_synthdefs_outConnector with ⟨w₂, hsnew, hshows₂⟩
  rw [kindOfDef_outConnector, hkids] at hshows₂
  rw [hmantle, hsnew]
  refine ⟨h.mantle hgroup hout hne hg0 ho0 hshows₂ ?_ rfl rfl rfl hvgroup hvout hveffect, rfl⟩
  exact Audio.issuedNodeIDs_mantled a.synth

/-- Where there is no room, the server refuses one of the two. -/
theorem mantleSynths_full (fpu : FloatUnit) (hfull : 1024 ≤ L.size + 1) :
    SCErr.tooManyNodes ∈ (a.mantleSynths fpu).replies := by
  have hfree := h.kind_eq_none hgroup hgpos
  have hfree' := h.kind_eq_none hout hopos
  rcases mantleSynths_eq fpu a with ⟨r, v, hr, -, -, -, hmantle⟩
  by_cases hroom : L.size < 1024
  · rcases h.group_room hgroup hgpos hroom with ⟨w₁, hgnew, hshows₁⟩
    rw [hgnew, Option.some_inj] at hr
    subst hr
    have hkind : (L.join 0#32 (a.synth.lastGroupID + 1#32) .group (L.kids 0#32) []).kind
        (a.synth.lastNodeID + 1#32) = none := (Function.update_of_ne hne.symm ..).trans hfree'
    have hnew := hshows₁.nodeNew_full (hshows₁.fresh hopos hkind) hfull outConnector.bytes
    have hsnew := hshows₁.sNew_refused hnew .addToTailAction hgpos.le
      (.inl (Function.update_self ..)) mem_synthdefs_outConnector
    rw [hmantle, hsnew]
    simp
  · rw [h.shows.gNewTail_full (h.shows.fresh hgpos hfree) (by omega) (le_refl _)
      h.shows.kind_root, Option.some_inj] at hr
    rw [hmantle, ← hr]
    simp

end Mantle

/-- `mantleSynths`, as long as the server takes the messages. -/
theorem mantleSynths (h : Scene a L) (hserved : Served (a.mantleSynths fpu)) :
    ∃ L', Scene (a.mantleSynths fpu) L' := by
  rcases mantleSynths_eq fpu a with ⟨r, v, -, -, -, -, hmantle⟩
  have hissued : issuedNodeIDs (a.mantleSynths fpu).synth
      = issuedNodeIDs a.synth ++ [a.synth.lastGroupID + 1#32, a.synth.lastNodeID + 1#32] := by
    rw [hmantle]
    exact Audio.issuedNodeIDs_mantled a.synth
  rcases hserved.last_two hissued with ⟨hgroup, hout, hne, hgpos, hopos⟩
  by_cases hroom : L.size + 1 < 1024
  · exact ⟨_, (h.mantleSynths_room hgroup hout hne hgpos hopos fpu hroom).1⟩
  · exact absurd (h.mantleSynths_full hgroup hout hne hgpos hopos fpu (not_lt.mp hroom)) hserved.room

/-- `dismantleSynths`: the group is emptied and freed, unless it is gone already. -/
theorem dismantleSynths (h : Scene a L) (hi : i < a.voices)
    (hpos : ∀ id ∈ issuedNodeIDs a.synth, 0 < id.toInt) :
    ∃ L', Scene (a.dismantleSynths fpu i) L' := by
  have hgpos := (hpos _ (h.ids i hi).group).le
  have hdeliver := Audio.deliver_freeAllInGroup fpu a (a.voice i).groupID
  have hissued := issuedNodeIDs_freeAllInGroup a.synth (a.voice i).groupID
  unfold Audio.dismantleSynths
  rw [hdeliver]
  by_cases hd : i ∈ a.dismantled
  · have hgone := (h.gone i hi hd).group
    rw [h.shows.gFreeAll_nowhere hgpos hgone, h.shows.nFree_nowhere hgpos hgone]
    exact ⟨L, h.dismantle_again hd rfl hissued rfl rfl rfl⟩
  · have hin := h.inPlace i hi hd
    rcases List.append_of_mem hin.group with ⟨l₁, l₂, hkids⟩
    have hg0 : (a.voice i).groupID ≠ 0#32 := (h.shows.tree.mem 0#32 _ hin.group).2.1
    rcases h.shows.gFreeAll hgpos (h.kind_group hi hd) fun n hn => hin.kind_ne_group hn
      with ⟨w₁, hfreeAll, hshows₁⟩
    have hkind : (L.empty (a.voice i).groupID).kind (a.voice i).groupID = some .group := by
      refine (if_neg fun hmem => ?_).trans (h.kind_group hi hd)
      exact hg0 (h.shows.unique (List.mem_toFinset.mp hmem) hin.group)
    rcases hshows₁.nFree_group hgpos hkind ((Function.update_of_ne hg0.symm ..).trans hkids)
      (Function.update_self ..) with ⟨w₂, hfree, hshows₂⟩
    rw [hfreeAll, hfree]
    exact ⟨_, h.dismantle hi hd hkids hshows₂ hissued rfl rfl rfl⟩

end Scene

/-! ## Runs -/

/-- The messages and the replies of a later state go on from those of an earlier one. -/
structure Grows (a a' : Audio) : Prop where
  issued : issuedNodeIDs a.synth <+: issuedNodeIDs a'.synth
  replies : a.replies <+: a'.replies

theorem Grows.refl (a : Audio) : Grows a a := ⟨List.prefix_rfl, List.prefix_rfl⟩

/-- What the server took it has taken all along. -/
theorem Served.of_grows {a a' : Audio} (h : Served a') (hgrows : Grows a a') : Served a :=
  ⟨h.nodup.sublist hgrows.issued.sublist, fun id hid => h.pos id (hgrows.issued.subset hid),
    fun hmem => h.room (hgrows.replies.subset hmem)⟩

variable {fpu : FloatUnit} {a : Audio} {L : Layout}

theorem grows_wormStep (a : Audio) (i : ℕ) (op : Audio.WormOp) :
    Grows a (a.wormStep fpu i op) := by
  cases op with
  | eatEffect effectId =>
    rcases Scene.eatEffect_eq fpu a i effectId with ⟨synth, hissued, -, heat⟩
    rw [Audio.wormStep, heat]
    exact ⟨hissued ▸ List.prefix_append .., List.prefix_append ..⟩
  | fire roundedFreq =>
    rcases Scene.fire_eq fpu a i roundedFreq with ⟨synth, hissued, -, hfire⟩
    rw [Audio.wormStep, hfire]
    exact ⟨hissued ▸ List.prefix_append .., List.prefix_append ..⟩
  | dismantleSynths =>
    have hissued := issuedNodeIDs_freeAllInGroup a.synth (a.voice i).groupID
    rw [Audio.wormStep, Audio.dismantleSynths, Audio.deliver_freeAllInGroup]
    exact ⟨hissued ▸ List.prefix_rfl, List.prefix_append ..⟩
  | eatFood foodId => exact ⟨List.prefix_rfl, List.prefix_rfl⟩
  | setVolume volume => exact ⟨List.prefix_rfl, List.prefix_rfl⟩

theorem grows_step (a : Audio) (op : Audio.Op) : Grows a (a.step fpu op) := by
  cases op with
  | mantleSynths =>
    rcases Scene.mantleSynths_eq fpu a with ⟨r, v, -, -, -, -, hmantle⟩
    rw [Audio.step, hmantle]
    exact ⟨Audio.issuedNodeIDs_mantled a.synth ▸ List.prefix_append .., List.prefix_append ..⟩
  | worm i op =>
    simp only [Audio.step]
    split_ifs
    · exact grows_wormStep a i op
    · exact Grows.refl a
  | synthEnds n =>
    simp only [Audio.step, Audio.synthEnds]
    split_ifs
    · exact ⟨List.prefix_rfl, List.prefix_rfl⟩
    · exact Grows.refl a

theorem Scene.wormStep (h : Scene a L) {i : ℕ} (hi : i < a.voices) (op : Audio.WormOp)
    (hserved : Served (a.wormStep fpu i op)) : ∃ L', Scene (a.wormStep fpu i op) L' := by
  cases op with
  | eatEffect effectId => exact h.eatEffect hi effectId hserved
  | fire roundedFreq => exact h.fire hi roundedFreq hserved
  | dismantleSynths =>
    exact h.dismantleSynths hi (hserved.of_grows (grows_wormStep a i .dismantleSynths)).pos
  | eatFood foodId => exact ⟨L, h.setVoice_same _ rfl rfl rfl⟩
  | setVolume volume => exact ⟨L, h.setVoice_same _ rfl rfl rfl⟩

/-- Every operation keeps the scene. -/
theorem Scene.step (h : Scene a L) (op : Audio.Op) (hserved : Served (a.step fpu op)) :
    ∃ L', Scene (a.step fpu op) L' := by
  cases op with
  | mantleSynths => exact h.mantleSynths hserved
  | worm i op =>
    simp only [Audio.step] at hserved ⊢
    split_ifs at hserved ⊢ with hi
    · exact h.wormStep hi op hserved
    · exact ⟨L, h⟩
  | synthEnds n => exact h.synthEnds n

theorem scene_init : Scene Audio.init Layout.root := by
  refine ⟨shows_init, fun n hn => .inl ?_, fun n hn => .inl ?_, fun n hn => ?_, fun g hg => ?_,
    fun i hi => ?_, fun i hi => ?_, fun i hi => ?_, fun i hi => ?_, fun i hi => ?_⟩
  · by_contra hne
    exact hn (if_neg hne)
  · by_contra hne
    exact hn (if_neg hne)
  · exact absurd hn List.not_mem_nil
  · exact absurd rfl hg
  · exact absurd hi (Nat.not_lt_zero i)
  · exact absurd hi (Nat.not_lt_zero i)
  · exact absurd hi (Nat.not_lt_zero i)
  · exact absurd hi (Nat.not_lt_zero i)
  · exact absurd hi List.not_mem_nil

/-- Every run that the server serves has a scene at its end. -/
theorem scene_run (ops : List Audio.Op) (hserved : Served (Audio.run fpu ops)) :
    ∃ L, Scene (Audio.run fpu ops) L := by
  have hstep : ∀ a op, (Served a → ∃ L, Scene a L) →
      Served (Audio.step fpu a op) → ∃ L, Scene (Audio.step fpu a op) L := by
    intro a op ih hserved
    rcases ih (hserved.of_grows (grows_step a op)) with ⟨L, hL⟩
    exact hL.step op hserved
  exact Runs.invariant (I := fun a => Served a → ∃ L, Scene a L) hstep
    (fun _ => ⟨_, scene_init⟩) ops hserved

end PoopWorms.App
