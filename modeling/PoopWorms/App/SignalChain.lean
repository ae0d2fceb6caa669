import PoopWorms.App.Served

/-!
# The order of a worm's synths

The children of a worm's group: the pitch synths, the effect if there is one, and the
`OutConnector`. The order holds as long as the server takes every message, and fails where a
worm takes a refused effect for its active one.
-/

namespace PoopWorms.App

open Octets Osc Server Client

/-- The children of the group of a voice, with the synths of the effects among them. -/
structure SignalChain (w : World) (v : Voice) (effects : List NodeID) : Prop where
  order : ∃ pitches, w.children v.groupID = pitches ++ effects ++ [v.outputNodeID] ∧
    ∀ n ∈ pitches, kind w n = some .pitch
  effect : ∀ n ∈ effects, kind w n = some .effect
  output : kind w v.outputNodeID = some .output

/-- In a scene the synths of a voice are in order. -/
theorem Scene.signalChain {a : Audio} {L : Layout} (h : Scene a L) {i : ℕ} (hi : i < a.voices)
    (halive : i ∉ a.dismantled) :
    SignalChain a.world (a.voice i) (a.voice i).activeEffectID.toList := by
  have hin := h.inPlace i hi halive
  have hgroup := h.shows.isGroup (h.kind_group hi halive)
  refine ⟨?_, fun n hn => ?_, ?_⟩ <;> rw [h.shows.kind]
  · rw [h.shows.tree.children_eq hgroup.1 hgroup.2]
    exact hin.order
  · exact hin.effect n (Option.mem_toList.mp hn)
  · exact hin.output

/-- The IDs of one group and of `k` synths. -/
theorem nodup_session (k : ℕ) (hk : k ≤ 2 ^ 31) : (501#32 :: idsFrom 1000#32 k).Nodup := by
  refine List.nodup_cons.mpr ⟨fun hmem => ?_, (nodup_idsFrom_iff _ _).mpr (by omega)⟩
  rcases List.mem_map.mp hmem with ⟨j, hj, heq⟩
  have hnat := congrArg BitVec.toNat heq
  simp only [BitVec.toNat_add, BitVec.toNat_ofNat, List.mem_range] at hnat hj
  omega

theorem toInt_pos_session {k : ℕ} (hk : k ≤ 2 ^ 31 - 1001) :
    ∀ id ∈ 501#32 :: idsFrom 1000#32 k, 0 < id.toInt := by
  intro id hid
  rcases List.mem_cons.mp hid with rfl | hid
  · decide
  · rcases List.mem_map.mp hid with ⟨j, hj, rfl⟩
    rw [List.mem_range] at hj
    rw [BitVec.toInt_eq_toNat_of_lt] <;>
      simp only [BitVec.toNat_add, BitVec.toNat_ofNat] <;> omega

/-- In every run that the server serves, the group of a voice that has not been dismantled
holds pitch synths, the active effect, and the output, in this order. -/
theorem signalChain_of_served (fpu : FloatUnit) (ops : List Audio.Op)
    (hserved : Served (Audio.run fpu ops)) (i : ℕ) (hi : i < (Audio.run fpu ops).voices)
    (halive : i ∉ (Audio.run fpu ops).dismantled) :
    SignalChain (Audio.run fpu ops).world ((Audio.run fpu ops).voice i)
      ((Audio.run fpu ops).voice i).activeEffectID.toList := by
  rcases scene_run ops hserved with ⟨L, hL⟩
  exact hL.signalChain hi halive

/-- A floating point unit for runs that convert no number. -/
def noConversions : FloatUnit := ⟨fun _ => 0#32, fun _ => 0#32, fun _ => 0#32⟩

/-- A worm that eats twice. -/
def eatTwice : List Audio.Op :=
  [.mantleSynths, .worm 0 (.eatEffect (.last 3)), .worm 0 (.fire 440#32),
    .worm 0 (.eatEffect (.last 3)),
    .worm 0 (.fire 220#32), .synthEnds 1003#32]

theorem signalChain_of_served_eatTwice :
    SignalChain (Audio.run noConversions eatTwice).world
      ((Audio.run noConversions eatTwice).voice 0)
      ((Audio.run noConversions eatTwice).voice 0).activeEffectID.toList := by
  have hissued : issuedNodeIDs (Audio.run noConversions eatTwice).synth
      = 501#32 :: idsFrom 1000#32 5 := by decide +kernel
  have hnodup : (issuedNodeIDs (Audio.run noConversions eatTwice).synth).Nodup := by
    rw [hissued]
    exact nodup_session 5 (by omega)
  have hpos : ∀ id ∈ issuedNodeIDs (Audio.run noConversions eatTwice).synth, 0 < id.toInt := by
    rw [hissued]
    exact toInt_pos_session (by omega)
  have hroom : SCErr.tooManyNodes ∉ (Audio.run noConversions eatTwice).replies := by
    decide +kernel
  have hi : 0 < (Audio.run noConversions eatTwice).voices := by decide +kernel
  have halive : 0 ∉ (Audio.run noConversions eatTwice).dismantled := by decide +kernel
  exact signalChain_of_served noConversions eatTwice ⟨hnodup, hpos, hroom⟩ 0 hi halive

/-! ## Refused effects -/

/-- The order that the worms rely on: there is at most one effect, and it is the active one. -/
def Chained (a : Audio) : Prop :=
  ∀ i < a.voices, i ∉ a.dismantled → ∃ effects, effects.length ≤ 1 ∧
    (∀ e ∈ effects, (a.voice i).activeEffectID = some e) ∧ SignalChain a.world (a.voice i) effects

/-- One worm with an effect, after `k` synths. -/
structure Busy (a : Audio) (L : Layout) (k : ℕ) : Prop where
  scene : Scene a L
  voices : a.voices = 1
  dismantled : a.dismantled = []
  active : (a.voice 0).activeEffectID = some 1002#32
  last : a.synth.lastNodeID = 1000#32 + BitVec.ofNat 32 k
  issued : issuedNodeIDs a.synth = 501#32 :: idsFrom 1000#32 k
  room : SCErr.tooManyNodes ∉ a.replies

namespace Busy

variable {fpu : FloatUnit} {a : Audio} {L : Layout} {k : ℕ}

theorem zero_lt (h : Busy a L k) : 0 < a.voices := by
  rw [h.voices]
  exact one_pos

theorem alive (h : Busy a L k) : 0 ∉ a.dismantled := by
  rw [h.dismantled]
  exact List.not_mem_nil

theorem next (h : Busy a L k) :
    a.synth.lastNodeID + 1#32 = 1000#32 + BitVec.ofNat 32 (k + 1) := by
  rw [h.last, BitVec.ofNat_add, BitVec.add_assoc]

/-- The IDs with the next one. -/
theorem issued_next (h : Busy a L k) :
    issuedNodeIDs a.synth ++ [a.synth.lastNodeID + 1#32] = 501#32 :: idsFrom 1000#32 (k + 1) := by
  have hnext : a.synth.lastNodeID + 1#32 = 1000#32 + 1#32 + BitVec.ofNat 32 k := by
    rw [h.last]
    ac_rfl
  rw [h.issued, hnext, idsFrom_concat]
  rfl

theorem next_notMem (h : Busy a L k) (hk : k < 2 ^ 31) :
    a.synth.lastNodeID + 1#32 ∉ issuedNodeIDs a.synth := by
  have hnd := nodup_session (k + 1) hk
  rw [← h.issued_next, List.nodup_append] at hnd
  exact fun hmem => hnd.2.2 _ hmem _ (List.mem_singleton_self _) rfl

theorem next_pos (h : Busy a L k) (hk : k < 2 ^ 31 - 1001) :
    0 < (a.synth.lastNodeID + 1#32).toInt := by
  have hpos := toInt_pos_session (k := k + 1) hk
  rw [← h.issued_next] at hpos
  exact hpos _ (List.mem_append_right _ (List.mem_singleton_self _))

/-- A pitch synth more. -/
theorem fire (fpu : FloatUnit) (h : Busy a L k) (hk : k < 2 ^ 31 - 1001) (hroom : L.size < 1024) :
    ∃ L', Busy (a.step fpu (.worm 0 (.fire 0#32))) L' (k + 1) ∧ L'.size = L.size + 1 ∧
      L'.kind (1000#32 + BitVec.ofNat 32 (k + 1)) = some .pitch := by
  have hpos := toInt_pos_session (k := k) (by omega)
  rw [← h.issued] at hpos
  have hfire := h.scene.fire_room fpu h.zero_lt h.alive hpos
    (h.next_notMem (by omega)) (h.next_pos hk) hroom 0#32
  rcases Scene.fire_eq fpu a 0 0#32 with ⟨synth, hissued, hlast, heq⟩
  have hstep : a.step fpu (.worm 0 (.fire 0#32)) = a.fire fpu 0 0#32 := if_pos h.zero_lt
  rw [hstep]
  refine ⟨_, ⟨hfire.1, ?_, ?_, ?_, ?_, ?_, ?_⟩, rfl, ?_⟩
  · rw [heq]
    exact h.voices
  · rw [heq]
    exact h.dismantled
  · rw [heq]
    exact h.active
  · rw [heq]
    exact hlast.trans h.next
  · rw [heq]
    exact hissued.trans h.issued_next
  · rw [hfire.2]
    simp [h.room]
  · rw [← h.next]
    exact Function.update_self ..

/-- A pitch synth less. -/
theorem synthEnds (fpu : FloatUnit) (h : Busy a L k) {n : NodeID} (hkind : L.kind n = some .pitch) :
    ∃ L', Busy (a.step fpu (.synthEnds n)) L' k ∧ L'.size = L.size - 1 := by
  rcases h.scene.nodeDelete hkind with ⟨L', hL', hsize⟩
  have hstep : a.step fpu (.synthEnds n) = { a with world := a.world.nodeDelete n } :=
    if_pos (h.scene.shows.kind ▸ hkind)
  rw [hstep]
  exact ⟨L', ⟨hL', h.voices, h.dismantled, h.active, h.last, h.issued, h.room⟩, hsize⟩

/-- The table fills up. -/
theorem fires (fpu : FloatUnit) (h : Busy a L k) (n : ℕ) (hk : k + n ≤ 2 ^ 31 - 1001) (hroom : L.size + n ≤ 1024) :
    ∃ L', Busy (Runs.run (Audio.step fpu) a (List.replicate n (.worm 0 (.fire 0#32)))) L'
      (k + n) ∧ L'.size = L.size + n := by
  induction n generalizing a L k with
  | zero => exact ⟨L, h, rfl⟩
  | succ n ih =>
    rcases h.fire fpu (by omega) (by omega) with ⟨L₁, hL₁, hsize₁, -⟩
    rcases ih hL₁ (by omega) (by omega) with ⟨L₂, hL₂, hsize₂⟩
    rw [List.replicate_succ, Runs.run_cons]
    refine ⟨L₂, ?_, by omega⟩
    rwa [Nat.add_right_comm] at hL₂

/-- A pitch synth, which ends at once. -/
def flash (k : ℕ) : List Audio.Op :=
  [.worm 0 (.fire 0#32), .synthEnds (1000#32 + BitVec.ofNat 32 (k + 1))]

/-- The IDs run out. -/
theorem flashes (fpu : FloatUnit) (h : Busy a L k) (n : ℕ) (hk : k + n ≤ 2 ^ 31 - 1001) (hroom : L.size < 1024) :
    ∃ L', Busy (Runs.run (Audio.step fpu) a ((List.range' k n).flatMap flash)) L' (k + n) := by
  induction n generalizing a L k with
  | zero => exact ⟨L, h⟩
  | succ n ih =>
    rcases h.fire fpu (by omega) hroom with ⟨L₁, hL₁, hsize₁, hkind⟩
    rcases hL₁.synthEnds fpu hkind with ⟨L₂, hL₂, hsize₂⟩
    rcases ih hL₂ (by omega) (by omega) with ⟨L₃, hL₃⟩
    rw [List.range'_succ, List.flatMap_cons, Runs.run_append]
    refine ⟨L₃, ?_⟩
    rwa [Nat.add_right_comm] at hL₃

/-- An effect that the server refuses breaks the order. -/
theorem not_chained (fpu : FloatUnit) (h : Busy a L k) (hk : k < 2 ^ 31) {err : SCErr}
    (hpos : ∀ id ∈ issuedNodeIDs a.synth, 0 < id.toInt)
    (hnew : a.world.nodeNew (SoundFood.effectNameForEffectId 1).bytes
      (a.synth.lastNodeID + 1#32) = .error (err, a.world)) :
    (a.step fpu (.worm 0 (.eatEffect 1))).replies = a.replies ++ [err] ∧
      issuedNodeIDs (a.step fpu (.worm 0 (.eatEffect 1))).synth
        = 501#32 :: idsFrom 1000#32 (k + 1) ∧
      ¬ Chained (a.step fpu (.worm 0 (.eatEffect 1))) := by
  have hin := h.scene.inPlace 0 h.zero_lt h.alive
  have hids := h.scene.ids 0 h.zero_lt
  have hstep : a.step fpu (.worm 0 (.eatEffect 1)) = a.eatEffect fpu 0 1 := if_pos h.zero_lt
  rcases h.scene.eatEffect_refused fpu h.zero_lt h.alive hpos hnew
    with ⟨hreplies, hworld, hvoice⟩
  rcases Scene.eatEffect_eq fpu a 0 1 with ⟨synth, hissued, -, heat⟩
  rw [hstep]
  refine ⟨hreplies, ?_, fun hchained => ?_⟩
  · rw [heat]
    exact hissued.trans h.issued_next
  · rcases hchained 0 (by rw [heat]; exact h.zero_lt) (by rw [heat]; exact h.alive)
      with ⟨effects, -, hactive, hchain⟩
    rw [hvoice] at hactive hchain
    rw [hworld] at hchain
    rcases hchain.order with ⟨pitches, horder, hpitches⟩
    -- the old effect is still a child of the group
    have hgroup := h.scene.shows.isGroup (h.scene.kind_group h.zero_lt h.alive)
    have hmem : 1002#32 ∈ a.world.children (a.voice 0).groupID := by
      rcases hin.order with ⟨pitches', horder', -⟩
      rw [h.scene.shows.tree.children_eq hgroup.1 hgroup.2, horder', h.active]
      simp
    have hkind : kind a.world 1002#32 = some .effect := by
      rw [h.scene.shows.kind]
      exact hin.effect _ h.active
    have horder' : a.world.children (a.voice 0).groupID
        = pitches ++ effects ++ [(a.voice 0).outputNodeID] := horder
    rw [horder'] at hmem
    simp only [List.mem_append, List.mem_singleton] at hmem
    rcases hmem with (hmem | hmem) | hmem
    · rw [hpitches _ hmem] at hkind
      exact absurd hkind (by decide)
    · have heq : a.synth.lastNodeID + 1#32 = 1002#32 := Option.some.inj (hactive _ hmem)
      exact h.next_notMem hk (heq ▸ hids.effect _ h.active)
    · have hout : kind a.world (a.voice 0).outputNodeID = some .output := hchain.output
      rw [← hmem, hkind] at hout
      exact absurd hout (by decide)

/-- A worm that has not eaten yet. -/
theorem hungry (fpu : FloatUnit) :
    ∃ a L, Audio.run fpu [.mantleSynths] = a ∧ Scene a L ∧ L.size = 3 ∧ a.voices = 1 ∧
      a.dismantled = [] ∧ (a.voice 0).activeEffectID = none ∧ a.synth.lastNodeID = 1001#32 ∧
      issuedNodeIDs a.synth = [501#32, 1001#32] ∧ a.replies = [.none, .none] := by
  have hnone : issuedNodeIDs Audio.init.synth = [] := rfl
  have hgroup : Audio.init.synth.lastGroupID + 1#32 = 501#32 := rfl
  have hout : Audio.init.synth.lastNodeID + 1#32 = 1001#32 := rfl
  have hmantled := scene_init.mantleSynths_room
    (by rw [hnone]; exact List.not_mem_nil) (by rw [hnone]; exact List.not_mem_nil)
    (by rw [hgroup, hout]; decide) (by rw [hgroup]; decide) (by rw [hout]; decide) fpu
    (Nat.lt_of_sub_eq_succ rfl)
  rcases Scene.mantleSynths_eq fpu Audio.init with ⟨r, v, -, -, -, hveffect, hmantle⟩
  refine ⟨_, _, rfl, hmantled.1, rfl, ?_, ?_, ?_, ?_, ?_, hmantled.2⟩ <;>
    rw [Audio.run, Runs.run_singleton, Audio.step, hmantle]
  · rfl
  · rfl
  · exact hveffect
  · rfl
  · exact Audio.issuedNodeIDs_mantled Audio.init.synth

/-- A worm that has eaten once. -/
theorem start (fpu : FloatUnit) :
    ∃ L, Busy (Audio.run fpu [.mantleSynths, .worm 0 (.eatEffect 0)]) L 2 ∧ L.size = 4 := by
  rcases hungry fpu with ⟨a, L, hrun, hL, hsize, hvoices, hdismantled, hactive, hlast, hids, hreplies⟩
  have hi : 0 < a.voices := by
    rw [hvoices]
    exact one_pos
  have halive : 0 ∉ a.dismantled := by
    rw [hdismantled]
    exact List.not_mem_nil
  have hnext : a.synth.lastNodeID + 1#32 = 1002#32 := by
    rw [hlast]
    rfl
  rcases hL.eatEffect_room fpu hi halive (by rw [hids]; simp)
    (by rw [hids, hnext]; decide) (by rw [hnext]; simp) (by omega) 0
    with ⟨L', hL', hsize', hreplies'⟩
  rcases Scene.eatEffect_eq fpu a 0 0 with ⟨synth, hissued, hlast', heat⟩
  have hrun' : Audio.run fpu [.mantleSynths, .worm 0 (.eatEffect 0)] = a.eatEffect fpu 0 0 := by
    have hstep : a.step fpu (.worm 0 (.eatEffect 0)) = a.eatEffect fpu 0 0 := if_pos hi
    rw [← hstep, ← hrun]
    rfl
  rw [hrun']
  refine ⟨L', ⟨hL', ?_, ?_, ?_, ?_, ?_, ?_⟩, ?_⟩
  · rw [heat]
    exact hvoices
  · rw [heat]
    exact hdismantled
  · rw [heat]
    simp only [Function.update_self, hnext]
    rfl
  · rw [heat]
    exact hlast'.trans hnext
  · rw [heat, hissued, hids, hnext]
    rfl
  · rw [hreplies', hreplies]
    decide
  · rw [hsize', hactive, hsize]
    rfl

end Busy

/-- The claimed order fails in two kinds of runs: where the table of nodes is full, and where
the client's IDs have run into the negative ones, which are the server's own. -/
theorem not_chained_of_nodup :
    (¬ ∀ (fpu : FloatUnit) (ops : List Audio.Op),
      (issuedNodeIDs (Audio.run fpu ops).synth).Nodup →
      (∀ id ∈ issuedNodeIDs (Audio.run fpu ops).synth, 0 < id.toInt) →
      Chained (Audio.run fpu ops)) ∧
    (¬ ∀ (fpu : FloatUnit) (ops : List Audio.Op),
      (issuedNodeIDs (Audio.run fpu ops).synth).Nodup →
      SCErr.tooManyNodes ∉ (Audio.run fpu ops).replies →
      Chained (Audio.run fpu ops)) := by
  rcases Busy.start noConversions with ⟨L, hL, hsize⟩
  refine ⟨fun hclaim => ?_, fun hclaim => ?_⟩
  · rcases hL.fires noConversions 1020 (by omega) (by omega) with ⟨L', hL', hsize'⟩
    have hpos := toInt_pos_session (k := 2 + 1020) (by omega)
    rw [← hL'.issued] at hpos
    have hfresh := hL'.scene.shows.fresh (hL'.next_pos (by omega))
      (hL'.scene.kind_eq_none (hL'.next_notMem (by omega)) (hL'.next_pos (by omega)))
    rcases hL'.not_chained noConversions (by omega) hpos
      (hL'.scene.shows.nodeNew_full hfresh (by omega) _) with ⟨-, hissued, hchained⟩
    rw [← Runs.run_singleton (Audio.step noConversions), Audio.run, ← Runs.run_append,
      ← Runs.run_append] at hissued hchained
    refine hchained (hclaim noConversions _ ?_ ?_) <;> unfold Audio.run <;> rw [hissued]
    · exact nodup_session _ (by omega)
    · exact toInt_pos_session (by omega)
  · rcases hL.flashes noConversions (2 ^ 31 - 1003) (by omega) (by omega) with ⟨L', hL'⟩
    have hpos := toInt_pos_session (k := 2 + (2 ^ 31 - 1003)) (by omega)
    rw [← hL'.issued] at hpos
    have hnext : 1000#32 + BitVec.ofNat 32 (2 + (2 ^ 31 - 1003) + 1) = 0x80000000#32 := by
      refine BitVec.eq_of_toNat_eq ?_
      simp only [BitVec.toNat_add, BitVec.toNat_ofNat]
      omega
    have hnew : ∀ w : World, w.nodeNew (SoundFood.effectNameForEffectId 1).bytes 0x80000000#32
        = .error (.reservedNodeID, w) := fun w => World.nodeNew_reserved _ (by simp) (by decide)
    rw [← hnext, ← hL'.next] at hnew
    rcases hL'.not_chained noConversions (by omega) hpos (hnew _)
      with ⟨hreplies, hissued, hchained⟩
    rw [← Runs.run_singleton (Audio.step noConversions), Audio.run, ← Runs.run_append,
      ← Runs.run_append] at hissued hchained hreplies
    refine hchained (hclaim noConversions _ ?_ ?_) <;> unfold Audio.run
    · rw [hissued]
      exact nodup_session _ (by omega)
    · rw [hreplies, List.mem_append, List.mem_singleton, not_or]
      exact ⟨hL'.room, by decide⟩

end PoopWorms.App
