import PoopWorms.App.Audio

/-!
# Effects, eaten and inherited

A worm keeps its effect in three places: the ID of the effect, which is zero for `Tanh` as well as
for no effect at all, its name, and the ID of the synth, which alone says that there is an
effect. An offspring looks at the first and passes on the second.
-/

namespace PoopWorms.App

open Octets Osc Server

/-- What a `PWWorm` keeps of its effect. -/
structure Belly where
  effectInBelly : Fin 4
  activeEffectName : Option CString
  activeEffectID : Option Word
deriving DecidableEq

namespace Belly

/-- The effect of a voice. -/
def ofVoice (v : Voice) : Belly where
  effectInBelly := v.effectInBelly
  activeEffectName := v.activeEffectName
  activeEffectID := v.activeEffectID

/-- A new worm: zero, and no name and no synth. -/
def init : Belly := ofVoice Audio.unmantled

/-- A worm with an effect. -/
def active (b : Belly) : Bool := b.activeEffectID.isSome

/-- `eatEffect:`, which gets `synthID` for the new synth. -/
def eatEffect (b : Belly) (effectName : Option CString) (synthID : Word) : Belly :=
  { b with activeEffectID := some synthID, activeEffectName := effectName }

/-- `handleWormPoint:withWorm:` on an effect. -/
def handleWormPoint (b : Belly) (itemId : Fin 4) (synthID : Word) : Belly :=
  { b with effectInBelly := itemId }.eatEffect (some (SoundFood.effectNameForEffectId itemId))
    synthID

/-- The end of `offspringOf:and:`, where the new worm may get the effect of a parent. -/
def offspringOf (mother father : Belly) (effectCoin : Fin 2) (synthID : Word) : Belly :=
  let worm := init
  if effectCoin.val = 0 ∧ mother.effectInBelly.val ≠ 0 then
    { worm with effectInBelly := mother.effectInBelly }.eatEffect mother.activeEffectName synthID
  else if father.effectInBelly.val ≠ 0 then
    { worm with effectInBelly := father.effectInBelly }.eatEffect father.activeEffectName synthID
  else worm

/-! ## Histories -/

/-- What happens to the effects of the worms. -/
inductive Event
  | created
  | ate (w : ℕ) (itemId : Fin 4) (synthID : Word)
  | born (mother father : ℕ) (effectCoin : Fin 2) (synthID : Word)

/-- The worms so far, in the order in which they came to be. -/
def step (worms : List Belly) : Event → List Belly
  | .created => worms ++ [init]
  | .ate w itemId synthID => worms.modify w fun b => b.handleWormPoint itemId synthID
  | .born mother father effectCoin synthID =>
    match worms[mother]?, worms[father]? with
    | some mother, some father => worms ++ [offspringOf mother father effectCoin synthID]
    | _, _ => worms

def run (history : List Event) : List Belly := Runs.run step [] history

/-! ## Names -/

/-- A worm with an effect knows its name; one without has no ID and no name. -/
structure Named (b : Belly) : Prop where
  name : b.activeEffectName
    = if b.active then some (SoundFood.effectNameForEffectId b.effectInBelly) else none
  active : b.effectInBelly.val ≠ 0 → b.active = true

theorem named_init : init.Named := ⟨rfl, fun h => absurd rfl h⟩

theorem named_handleWormPoint (b : Belly) (itemId : Fin 4) (synthID : Word) :
    (b.handleWormPoint itemId synthID).Named := ⟨rfl, fun _ => rfl⟩

/-- The effect of a parent comes with its name. -/
theorem Named.passedOn {b : Belly} (h : b.Named) (heffect : b.effectInBelly.val ≠ 0) (synthID : Word) :
    ({ init with effectInBelly := b.effectInBelly }.eatEffect b.activeEffectName synthID).Named := by
  constructor
  · have hname := h.name
    rw [if_pos (h.active heffect)] at hname
    exact hname
  · exact fun _ => rfl

/-- What an offspring has, it has from a parent whose ID is not zero. -/
theorem offspringOf_cases (mother father : Belly) (effectCoin : Fin 2) (synthID : Word) :
    (effectCoin.val = 0 ∧ mother.effectInBelly.val ≠ 0 ∧
      offspringOf mother father effectCoin synthID
        = { init with effectInBelly := mother.effectInBelly }.eatEffect mother.activeEffectName
          synthID) ∨
    (¬ (effectCoin.val = 0 ∧ mother.effectInBelly.val ≠ 0) ∧ father.effectInBelly.val ≠ 0 ∧
      offspringOf mother father effectCoin synthID
        = { init with effectInBelly := father.effectInBelly }.eatEffect father.activeEffectName
          synthID) ∨
    (¬ (effectCoin.val = 0 ∧ mother.effectInBelly.val ≠ 0) ∧ father.effectInBelly.val = 0 ∧
      offspringOf mother father effectCoin synthID = init) := by
  unfold offspringOf
  split_ifs with hmother hfather
  · exact .inl ⟨hmother.1, hmother.2, rfl⟩
  · exact .inr (.inl ⟨hmother, hfather, rfl⟩)
  · exact .inr (.inr ⟨hmother, not_not.mp hfather, rfl⟩)

theorem Named.offspringOf {mother father : Belly} (hmother : mother.Named) (hfather : father.Named)
    (effectCoin : Fin 2) (synthID : Word) :
    (offspringOf mother father effectCoin synthID).Named := by
  rcases offspringOf_cases mother father effectCoin synthID with
    ⟨-, heffect, heq⟩ | ⟨-, heffect, heq⟩ | ⟨-, -, heq⟩
  · rw [heq]
    exact hmother.passedOn heffect synthID
  · rw [heq]
    exact hfather.passedOn heffect synthID
  · rw [heq]
    exact named_init

theorem named_step {worms : List Belly} (h : ∀ b ∈ worms, b.Named) (e : Event) :
    ∀ b ∈ step worms e, b.Named := by
  have hconcat : ∀ new : Belly, new.Named → ∀ b ∈ worms ++ [new], b.Named := by
    intro new hnew b hb
    rcases List.mem_append.mp hb with hb | hb
    · exact h b hb
    · rw [List.mem_singleton.mp hb]
      exact hnew
  cases e with
  | created => exact hconcat init named_init
  | ate w itemId synthID =>
    intro b hb
    obtain ⟨i, hi⟩ := List.mem_iff_getElem?.mp hb
    simp only [step, List.getElem?_modify, Option.map_eq_map, Option.map_eq_some_iff] at hi
    obtain ⟨old, hold, rfl⟩ := hi
    split_ifs
    · exact named_handleWormPoint old itemId synthID
    · exact h _ (List.mem_of_getElem? hold)
  | born mother father effectCoin synthID =>
    simp only [step]
    split
    · next m f hm hf =>
      exact hconcat _ ((h m (List.mem_of_getElem? hm)).offspringOf
        (h f (List.mem_of_getElem? hf)) effectCoin synthID)
    · exact h

theorem named_run (history : List Event) : ∀ b ∈ run history, b.Named :=
  Runs.invariant (I := fun worms : List Belly => ∀ b ∈ worms, b.Named)
    (fun _ e h => named_step h e) (fun _ hb => absurd hb List.not_mem_nil) history

/-! ## Inheritance -/

/-- The effect of a child is that of a parent. -/
structure Inherits (mother father child : Belly) : Prop where
  from_parent : child.active = true →
    (mother.active = true ∧ child.effectInBelly = mother.effectInBelly ∧
      child.activeEffectName = mother.activeEffectName) ∨
    (father.active = true ∧ child.effectInBelly = father.effectInBelly ∧
      child.activeEffectName = father.activeEffectName)
  from_both : mother.active = true → father.active = true → child.active = true

/-- The only way for an offspring to go without: the coin or a zero is against the mother, and the
father's is a zero. -/
theorem inherits_offspringOf_iff {mother father : Belly} (hmother : mother.Named)
    (hfather : father.Named) (effectCoin : Fin 2) (synthID : Word) :
    Inherits mother father (offspringOf mother father effectCoin synthID) ↔
      (mother.active = true → father.active = true → father.effectInBelly.val = 0 →
        effectCoin.val = 0 ∧ mother.effectInBelly.val ≠ 0) := by
  rcases offspringOf_cases mother father effectCoin synthID with
    ⟨hcoin, heffect, heq⟩ | ⟨-, heffect, heq⟩ | ⟨hnot, hzero, heq⟩
  · rw [heq]
    constructor
    · intro _ _ _ _
      exact ⟨hcoin, heffect⟩
    · intro _
      exact ⟨fun _ => .inl ⟨hmother.active heffect, rfl, rfl⟩, fun _ _ => rfl⟩
  · rw [heq]
    constructor
    · intro _ _ _ hzero
      exact absurd hzero heffect
    · intro _
      exact ⟨fun _ => .inr ⟨hfather.active heffect, rfl, rfl⟩, fun _ _ => rfl⟩
  · rw [heq]
    constructor
    · intro h hm hf _
      exact absurd (h.from_both hm hf) Bool.false_ne_true
    · intro h
      exact ⟨fun hactive => absurd hactive Bool.false_ne_true,
        fun hm hf => absurd (h hm hf hzero) hnot⟩

/-- After every history, all worms know the names of their effects; and the effect of an offspring
is that of a parent as it should be if and only if, where both parents have one and the father's
has the ID zero, the coin is for the mother and hers has not. -/
theorem inherits_iff (history : List Event) (mother father : Belly) (hmother : mother ∈ run history)
    (hfather : father ∈ run history) (effectCoin : Fin 2) (synthID : Word) :
    (Inherits mother father (offspringOf mother father effectCoin synthID) ∧
      ∀ b ∈ run history, b.activeEffectName
        = if b.active then some (SoundFood.effectNameForEffectId b.effectInBelly) else none) ↔
      (mother.active = true → father.active = true → father.effectInBelly.val = 0 →
        effectCoin.val = 0 ∧ mother.effectInBelly.val ≠ 0) := by
  have hnamed := named_run history
  rw [inherits_offspringOf_iff (hnamed mother hmother) (hnamed father hfather)]
  exact ⟨fun h => h.1, fun h => ⟨h, fun b hb => (hnamed b hb).name⟩⟩

/-- A mother with `Flanger` and a father with `Tanh`, and a coin for the mother. -/
theorem inherits_iff_of_flanger :
    (Inherits ⟨2, some (.ofString "Flanger"), some 7#32⟩ ⟨0, some (.ofString "Tanh"), some 8#32⟩
        (offspringOf ⟨2, some (.ofString "Flanger"), some 7#32⟩
          ⟨0, some (.ofString "Tanh"), some 8#32⟩ 0 9#32) ∧
      ∀ b ∈ run [.created, .created, .ate 0 2 7#32, .ate 1 0 8#32], b.activeEffectName
        = if b.active then some (SoundFood.effectNameForEffectId b.effectInBelly) else none) ↔
      ((⟨2, some (.ofString "Flanger"), some 7#32⟩ : Belly).active = true →
        (⟨0, some (.ofString "Tanh"), some 8#32⟩ : Belly).active = true →
        (⟨0, some (.ofString "Tanh"), some 8#32⟩ : Belly).effectInBelly.val = 0 →
        (0 : Fin 2).val = 0 ∧ (⟨2, some (.ofString "Flanger"), some 7#32⟩ : Belly).effectInBelly.val ≠ 0) :=
  inherits_iff [.created, .created, .ate 0 2 7#32, .ate 1 0 8#32] _ _ (by decide)
    (by decide) 0 9#32

/-- Both parents have eaten `Tanh`: their offspring has no effect. -/
theorem not_inherits : ¬ ∀ (history : List Event) (mother father : Belly),
    mother ∈ run history → father ∈ run history → ∀ (effectCoin : Fin 2) (synthID : Word),
      Inherits mother father (offspringOf mother father effectCoin synthID) := by
  intro h
  have htanh : (⟨0, some (.ofString "Tanh"), some 7#32⟩ : Belly)
      ∈ run [.created, .ate 0 0 7#32] := by decide
  have hchild := (h _ _ _ htanh htanh 0 9#32).from_both rfl rfl
  exact absurd hchild (by decide)

/-! ## Voices -/

/-- What an offspring gets from a voice with an effect, it could have eaten. -/
theorem passedOn_ofVoice (v : Voice) (heffect : v.effectInBelly ≠ 0) (b : Belly) (synthID : Word) :
    { init with effectInBelly := (ofVoice v).effectInBelly }.eatEffect (ofVoice v).activeEffectName
        synthID = b.handleWormPoint v.effectInBelly synthID := by
  have hname : (ofVoice v).activeEffectName
      = some (SoundFood.effectNameForEffectId v.effectInBelly) := v.named heffect
  rw [hname]
  rfl

/-- A voice eats an effect as a worm does on its way, with the ID of the synth that it gets. -/
theorem ofVoice_eatEffect (fpu : FloatUnit) (a : Audio) (i : ℕ) (effectId : Fin 4) :
    ∃ synthID, ofVoice ((a.eatEffect fpu i effectId).voice i)
      = (ofVoice (a.voice i)).handleWormPoint effectId synthID := by
  unfold Audio.eatEffect
  extract_lets v effectName args
  generalize v.effectPlace = place
  obtain ⟨addAction, targetID⟩ := place
  simp only
  generalize hsynth : a.synth.synthWithName effectName args addAction targetID = r
  obtain ⟨activeEffectID, synth⟩ := r
  refine ⟨activeEffectID, ?_⟩
  simp only [Audio.setVoice, Function.update_self]
  rfl

end Belly

end PoopWorms.App
