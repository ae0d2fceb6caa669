import PoopWorms.Server.NodeFillTheorems
import PoopWorms.Server.QueryTree

/-!
# What has been done to the controls

A control has a value, and possibly a bus that it is mapped to. `ControlState` follows them beside
the pointers and rates of the synths, through commands in any order, on synths and on groups.
-/

namespace PoopWorms.Server

open Octets Osc ScPacket

/-- A bus that a control is mapped to. -/
inductive MappedBus
  | control (inBus : ℕ)
  | audio (inBus : ℕ)
deriving DecidableEq

/-- The value that was set last, and the bus to which the control was mapped last, if the mapping
has not ended. -/
structure ControlState where
  value : Word
  bus : Option MappedBus
deriving DecidableEq

namespace ControlState

variable (world : ControlWorld) (s : ControlState)

/-- A negative bus ends the mapping, and to a bus that does not exist nothing is mapped. -/
def mapTo (inBus : Word) (numBusChannels : ℕ) (bus : MappedBus) : ControlState :=
  if 0x80000000#32 ≤ inBus then { s with bus := none }
  else if inBus.toNat < numBusChannels then { s with bus := some bus }
  else s

/-- A control after a command. -/
def after : ControlStore → ControlState
  | .set value => ⟨value, none⟩
  | .map bus => s.mapTo bus world.mNumControlBusChannels (.control bus.toNat)
  | .mapAudio bus => s.mapTo bus world.mNumAudioBusChannels (.audio bus.toNat)

/-- How a control is reported: its value, or `c` or `a` and the index of the bus. -/
def report : Item :=
  match s.bus with
  | none => .float s.value
  | some (.control inBus) => .string (chr 'c' :: decimal inBus)
  | some (.audio inBus) => .string (chr 'a' :: decimal inBus)

/-- What `mMapControls` holds for the control. -/
def source (i : ℕ) : ControlSource :=
  match s.bus with
  | none => .control i
  | some (.control inBus) => .controlBus inBus
  | some (.audio inBus) => .audioBus (inBus * world.mBufLength)

/-- What `mControlRates` holds for the control. -/
def rate : ℕ :=
  match s.bus with
  | none => 0
  | some (.control _) => 1
  | some (.audio _) => 2

end ControlState

/-- The `Graph` holds what the state of the control says. -/
structure Controls.Shows (world : ControlWorld) (g : Controls) (i : ℕ) (s : ControlState) :
    Prop where
  value : g.mControls i = s.value
  source : g.mMapControls i = s.source world i
  rate : g.mControlRates i = s.rate
  inside : ∀ b, s.bus = some (.control b) → b < 2 ^ 31

/-! ## One command -/

namespace Controls

variable {world : ControlWorld} {g : Controls} {i : ℕ} {inIndex inBus inValue : Word}
  {s : ControlState}

theorem shows_init (mNumControls : ℕ) (values : ℕ → Word) (i : ℕ) :
    Shows world (init mNumControls values) i ⟨values i, none⟩ := ⟨rfl, rfl, rfl, nofun⟩

/-- The state of the control with the index `inIndex` changes, that of any other control does
not. -/
def stepAt (inIndex : Word) (f : ControlState → ControlState) (i : ℕ) (s : ControlState) :
    ControlState := if i = inIndex.toNat then f s else s

theorem Shows.graphSetControl (h : Shows world g i s) (hi : i < g.mNumControls) :
    Shows world (g.graphSetControl inIndex inValue) i
      (stepAt inIndex (fun s => s.after world (.set inValue)) i s) := by
  unfold Controls.graphSetControl stepAt
  by_cases heq : i = inIndex.toNat
  · rw [if_neg (by omega), if_pos heq, ← heq]
    exact ⟨Function.update_self .., Function.update_self .., Function.update_self .., nofun⟩
  · rw [if_neg heq]
    split_ifs
    · exact h
    · exact ⟨(Function.update_of_ne heq ..).trans h.value,
        (Function.update_of_ne heq ..).trans h.source,
        (Function.update_of_ne heq ..).trans h.rate, h.inside⟩

/-- A mapping keeps to the state, whatever the kind of the bus. -/
theorem Shows.mapTo (h : Shows world g i s) (hi : i < g.mNumControls) {numBusChannels : ℕ}
    {bus : MappedBus} (hbus : ∀ b, bus = .control b → b = inBus.toNat) :
    Shows world (g.mapTo inIndex inBus numBusChannels (ControlState.rate ⟨0#32, some bus⟩)
        (ControlState.source world ⟨0#32, some bus⟩ inIndex.toNat)) i
      (stepAt inIndex (fun s => s.mapTo inBus numBusChannels bus) i s) := by
  unfold Controls.mapTo stepAt ControlState.mapTo
  by_cases heq : i = inIndex.toNat
  · rw [if_neg (by omega), if_pos heq, ← heq]
    split_ifs with hneg hin
    · exact ⟨h.value, Function.update_self .., Function.update_self .., nofun⟩
    · refine ⟨h.value, Function.update_self .., Function.update_self .., ?_⟩
      intro b hb
      rw [hbus b (Option.some.inj hb)]
      rw [BitVec.le_def, show (0x80000000#32 : Word).toNat = 2 ^ 31 from rfl] at hneg
      omega
    · exact h
  · rw [if_neg heq]
    split_ifs
    · exact h
    · exact ⟨h.value, (Function.update_of_ne heq ..).trans h.source,
        (Function.update_of_ne heq ..).trans h.rate, h.inside⟩
    · exact ⟨h.value, (Function.update_of_ne heq ..).trans h.source,
        (Function.update_of_ne heq ..).trans h.rate, h.inside⟩
    · exact h

/-- The state of a control after a command that reaches the control `i` behind a key. -/
def stateAfter (world : ControlWorld) (key : ControlKey) (offset : ℤ) (store : ControlStore)
    (i : ℕ) (s : ControlState) : ControlState :=
  match key.at world offset with
  | none => s
  | some inIndex => stepAt inIndex (fun s => s.after world store) i s

/-- A command keeps the `Graph` to the states of its controls. -/
theorem Shows.store (h : Shows world g i s) (hi : i < g.mNumControls) (key : ControlKey)
    (offset : ℤ) (store : ControlStore) :
    Shows world (g.store world key offset store) i (stateAfter world key offset store i s) := by
  unfold Controls.store stateAfter
  cases key.at world offset with
  | none => exact h
  | some inIndex =>
    cases store with
    | set value => exact h.graphSetControl hi
    | map bus => exact h.mapTo hi fun b hb => (MappedBus.control.inj hb).symm
    | mapAudio bus =>
      exact h.mapTo hi fun b (hb : MappedBus.audio bus.toNat = .control b) => nomatch hb

theorem mNumControls_store (key : ControlKey) (offset : ℤ) (store : ControlStore) :
    (g.store world key offset store).mNumControls = g.mNumControls := by
  unfold Controls.store
  cases key.at world offset with
  | none => rfl
  | some inIndex =>
    cases store <;>
      simp only [Controls.graphSetControl, graphMapControl, graphMapAudioControl,
        Controls.mapTo] <;>
      split_ifs <;> rfl

end Controls

/-! ## Runs -/

section Runs

variable (w : World) (world : NodeID → ControlWorld) (numControls : NodeID → ℕ)
  (values : NodeID → ℕ → Word)

/-- The controls of all synths and their states after commands in any order: each one sets or maps
a control of a node, that is of a synth or of all synths below a group. -/
inductive ControlRun : Graphs → (NodeID → ℕ → ControlState) → Prop
  | new : ControlRun (fun s => .init (numControls s) (values s)) fun s i => ⟨values s i, none⟩
  | step {graphs : Graphs} {states states' : NodeID → ℕ → ControlState}
      (run : ControlRun graphs states) (node : NodeID) (hnode : node ∈ w.mNodeLib)
      (key : ControlKey) (offset : ℤ) (store : ControlStore)
      (hreached : ∀ s i, w.SynthOf node s →
        states' s i = Controls.stateAfter (world s) key offset store i (states s i))
      (hother : ∀ s, ¬ w.SynthOf node s → states' s = states s) :
      ControlRun (w.eachGraph (fun s g => g.store (world s) key offset store) node graphs) states'

variable {w world numControls values} {graphs : Graphs} {states : NodeID → ℕ → ControlState}

theorem ControlRun.numControls_eq (htree : w.IsTree)
    (h : ControlRun w world numControls values graphs states) (s : NodeID) :
    (graphs s).mNumControls = numControls s := by
  induction h with
  | new => rfl
  | @step graphs _ _ _ node hnode key offset store _ _ ih =>
    have hdone := World.IsTree.eachGraph_done
      (f := fun s g => g.store (world s) key offset store) htree hnode graphs s
    by_cases hs : w.SynthOf node s
    · rw [hdone.1 hs, Controls.mNumControls_store, ih]
    · rw [hdone.2 hs, ih]

/-- In every run the `Graph`s hold what the states of the controls say. -/
theorem ControlRun.shows (htree : w.IsTree)
    (h : ControlRun w world numControls values graphs states) (s : NodeID) {i : ℕ}
    (hi : i < numControls s) : (graphs s).Shows (world s) i (states s i) := by
  induction h with
  | new => exact Controls.shows_init ..
  | @step graphs states states' run node hnode key offset store hreached hother ih =>
    have hdone := World.IsTree.eachGraph_done
      (f := fun s g => g.store (world s) key offset store) htree hnode graphs s
    by_cases hs : w.SynthOf node s
    · rw [hdone.1 hs, hreached s i hs]
      exact ih.store (by rw [run.numControls_eq htree]; exact hi) key offset store
    · rw [hdone.2 hs, hother s hs]
      exact ih

end Runs

end PoopWorms.Server
