import PoopWorms.App.Audio
import PoopWorms.Client.AKSCSynthTheorems
import PoopWorms.Server.CommandsTheorems

/-!
# What the worms' messages do to the nodes

The operations of a voice, from the client's message to the table of nodes: each comes down
to one command of the server on the values of the message.
-/

namespace PoopWorms.App

open Octets Osc Server Client

/-! ## Kinds of nodes -/

section Kinds

variable {w : World} {id g target : NodeID} {defname : List Byte} {l₁ l₂ : List NodeID}

theorem kindOfDef_food (foodId : Fin 7) :
    kindOfDef (SoundFood.synthNameForFoodId foodId).bytes = .pitch := if_pos ⟨foodId, rfl⟩

theorem kindOfDef_effect (effectId : Fin 4) :
    kindOfDef (SoundFood.effectNameForEffectId effectId).bytes = .effect := by
  revert effectId
  decide

theorem kindOfDef_outConnector : kindOfDef outConnector.bytes = .output := by decide

theorem mem_synthdefs_food (foodId : Fin 7) : SoundFood.synthNameForFoodId foodId ∈ synthdefs := by
  revert foodId
  decide

theorem mem_synthdefs_effect (effectId : Fin 4) :
    SoundFood.effectNameForEffectId effectId ∈ synthdefs := by
  revert effectId
  decide

theorem mem_synthdefs_outConnector : outConnector ∈ synthdefs := by decide

theorem kind_eq_none_iff (n : NodeID) : kind w n = none ↔ n ∉ w.mNodeLib := by
  unfold kind
  split_ifs with h <;> simp [h]

theorem kind_ne_none_iff (n : NodeID) : kind w n ≠ none ↔ n ∈ w.mNodeLib := by
  rw [ne_eq, kind_eq_none_iff, not_not]

/-- A group is a group, and nothing else is. -/
theorem kind_eq_group_iff (n : NodeID) :
    kind w n = some .group ↔ n ∈ w.mNodeLib ∧ (w.mNode n).mIsGroup := by
  unfold kind kindOfDef
  split_ifs <;> simp_all

/-- The pointers do not matter. -/
theorem kind_congr {w' : World} {n : NodeID} (hlib : n ∈ w'.mNodeLib ↔ n ∈ w.mNodeLib)
    (hgroup : (w'.mNode n).mIsGroup = (w.mNode n).mIsGroup)
    (hdef : (w'.mNode n).mDef = (w.mNode n).mDef) : kind w' n = kind w n := by
  unfold kind
  simp only [hlib, hgroup, hdef]

theorem kind_insertAt : kind (w.insertAt g id l₁ l₂) = kind w :=
  funext fun _ => kind_congr Iff.rfl rfl rfl

theorem kind_eraseAt : kind (w.eraseAt g id l₁ l₂) = kind w :=
  funext fun _ => kind_congr Iff.rfl rfl rfl

theorem kind_register (mIsGroup : Bool) :
    kind (w.register id defname mIsGroup)
      = Function.update (kind w) id
          (some (if mIsGroup then .group else kindOfDef defname)) := by
  funext n
  by_cases hn : n = id
  · subst hn
    simp [kind, World.register]
  · rw [Function.update_of_ne hn]
    exact kind_congr (by simp [World.register, hn]) (by simp [World.register, hn])
      (by simp [World.register, hn])

theorem kind_deregister (n : NodeID) :
    kind (w.deregister n) = Function.update (kind w) n none := by
  funext x
  by_cases hx : x = n
  · subst hx
    simp [kind, World.deregister]
  · rw [Function.update_of_ne hx]
    exact kind_congr (by simp [World.deregister, hx]) rfl rfl

end Kinds

/-! ## Messages -/

namespace Audio

variable {fpu : FloatUnit} {a : Audio}

theorem receive_eq {m : OSCMessage} {r : World × SCErr} (h : perform fpu a.world m = some r) :
    a.receive fpu m = { a with world := r.1, replies := a.replies ++ [r.2] } := by
  unfold receive
  rw [h]
  rfl

/-- A call that sends one message. -/
theorem deliver_one {synth : AKSCSynth} {m : OSCMessage} {r : World × SCErr}
    (hport : synth.oscPort = a.synth.oscPort ++ [m]) (h : perform fpu a.world m = some r) :
    a.deliver fpu synth = { a with synth, world := r.1, replies := a.replies ++ [r.2] } := by
  unfold deliver
  rw [hport, List.drop_left, List.foldl_cons, List.foldl_nil]
  exact receive_eq (a := { a with synth }) h

/-- A call that sends two messages. -/
theorem deliver_two {synth : AKSCSynth} {m₁ m₂ : OSCMessage} {r₁ r₂ : World × SCErr}
    (hport : synth.oscPort = a.synth.oscPort ++ [m₁, m₂])
    (h₁ : perform fpu a.world m₁ = some r₁) (h₂ : perform fpu r₁.1 m₂ = some r₂) :
    a.deliver fpu synth
      = { a with synth, world := r₂.1, replies := a.replies ++ [r₁.2, r₂.2] } := by
  have hfirst := receive_eq (a := { a with synth }) h₁
  have hsecond := receive_eq
    (a := { a with synth, world := r₁.1, replies := a.replies ++ [r₁.2] }) h₂
  unfold deliver
  rw [hport, List.drop_left, List.foldl_cons, List.foldl_cons, List.foldl_nil, hfirst, hsecond,
    List.append_assoc]
  rfl

/-- `synthWithName:…` creates its synth by `/s_new`. -/
theorem deliver_synthWithName (fpu : FloatUnit) (a : Audio) (name : CString) (args : List OSCValue)
    (hargs : (tagString args).length = args.length) (addAction : AKAddAction) (target : Word) :
    a.deliver fpu (a.synth.synthWithName name args addAction target).2
      = { a with
          synth := (a.synth.synthWithName name args addAction target).2
          world := (sNew a.world name.bytes (a.synth.lastNodeID + 1#32) addAction.toInt target).1
          replies := a.replies ++
            [(sNew a.world name.bytes (a.synth.lastNodeID + 1#32) addAction.toInt target).2] } :=
  deliver_one rfl (perform_s_new fpu a.world name _ _ target args hargs)

theorem gNewTail_isSome (w : World) (id target : Word) : (gNewTail w id target).isSome := by
  unfold gNewTail gNewAt
  split <;> try rfl
  split <;> try rfl
  split <;> try rfl
  split <;> rfl

/-- The client after the calls of `mantleSynths`. -/
def mantled (synth : AKSCSynth) : AKSCSynth :=
  let (groupID, synth) := synth.group
  let (busID, synth) := synth.bus
  (synth.synthWithName outConnector [.string (.ofString "inBus"), .int busID] .addToTailAction
    groupID).2

theorem issuedNodeIDs_mantled (synth : AKSCSynth) :
    issuedNodeIDs (mantled synth)
      = issuedNodeIDs synth ++ [synth.lastGroupID + 1#32, synth.lastNodeID + 1#32] := by
  unfold mantled
  rw [issuedNodeIDs_synthWithName]
  have hgroup := issuedNodeIDs_group synth
  have hbus : issuedNodeIDs synth.group.2.bus.2 = issuedNodeIDs synth.group.2 := rfl
  rw [hbus, hgroup, List.append_assoc]
  rfl

/-- `mantleSynths` sends `/g_new`, and `/s_new` for the `OutConnector`. -/
theorem deliver_mantled (fpu : FloatUnit) (a : Audio) : ∃ r₁, gNewTail a.world (a.synth.lastGroupID + 1#32) 0#32
      = some r₁ ∧
    a.deliver fpu (mantled a.synth)
      = { a with
          synth := mantled a.synth
          world := (sNew r₁.1 outConnector.bytes (a.synth.lastNodeID + 1#32) 1#32
            (a.synth.lastGroupID + 1#32)).1
          replies := a.replies ++ [r₁.2,
            (sNew r₁.1 outConnector.bytes (a.synth.lastNodeID + 1#32) 1#32
              (a.synth.lastGroupID + 1#32)).2] } := by
  rcases Option.isSome_iff_exists.mp (gNewTail_isSome a.world (a.synth.lastGroupID + 1#32) 0#32)
    with ⟨r₁, hr₁⟩
  refine ⟨r₁, hr₁, ?_⟩
  exact deliver_two (List.append_assoc ..) (perform_g_new fpu a.world _ _ r₁ hr₁)
    (perform_s_new fpu r₁.1 outConnector _ _ _
      [.string (.ofString "inBus"), .int (a.synth.lastBusID + 2#32)] rfl)

/-- `freeAllInGroup:` sends `/g_freeAll` and `/n_free`. -/
theorem deliver_freeAllInGroup (fpu : FloatUnit) (a : Audio) (groupID : Word) :
    a.deliver fpu (a.synth.freeAllInGroup groupID)
      = { a with
          synth := a.synth.freeAllInGroup groupID
          world := (nFree (gFreeAll a.world groupID).1 groupID).1
          replies := a.replies ++ [(gFreeAll a.world groupID).2,
            (nFree (gFreeAll a.world groupID).1 groupID).2] } := by
  exact deliver_two (List.append_assoc ..) (perform_g_freeAll fpu a.world groupID)
    (perform_n_free fpu _ groupID)

end Audio

end PoopWorms.App
