import PoopWorms.Server.GraphDefRead
import PoopWorms.Server.GraphDefTheorems
import Mathlib.Tactic.SplitIfs

/-!
# Which bytes are read as a synth definition

The format of a definition in bytes, apart from its reader, and with it when the reader throws,
when it gives a definition, and when it does neither.
-/

namespace PoopWorms.Server

open Octets Readers

/-! ## Numbers and names -/

def bytes16 (v : BitVec 16) : List Byte := [v.extractLsb' 8 8, v.extractLsb' 0 8]

def bytes32 (v : Word) : List Byte := (leBytes v).reverse

/-- A reader that never stops in front of the end. -/
def NoStops (_ : List Byte) (_ : ReadStop) : Prop := False

theorem decodes_readInt8 : Decodes readInt8 (fun bs b => bs = [b]) NoStops := decodes_token

theorem append_eq_iff {m n : ℕ} {a : BitVec m} {b : BitVec n} {v : BitVec (m + n)} :
    v = a ++ b ↔ a = v.extractLsb' n m ∧ b = v.extractLsb' 0 n := by
  constructor
  · intro hv
    subst hv
    exact ⟨BitVec.extractLsb'_append_eq_left.symm, BitVec.extractLsb'_append_eq_right.symm⟩
  · intro hv
    obtain ⟨rfl, rfl⟩ := hv
    apply BitVec.eq_of_getLsbD_eq
    intro i hi
    simp only [BitVec.getLsbD_append, BitVec.getLsbD_extractLsb']
    split_ifs with hlow
    · simp [hlow]
    · have hi' : i - n < m := by omega
      simp [hi', show n + (i - n) = i by omega]

theorem decodes_readInt16_be : Decodes readInt16_be (fun bs v => bs = bytes16 v) NoStops := by
  refine (decodes_readInt8.bind fun c => decodes_readInt8.bind fun d => decodes_pure (c ++ d)).congr
    (fun bs v => ?_) (fun bs e => ?_)
  · constructor
    · intro hbs
      obtain ⟨_, _, c, rfl, rfl, _, _, d, rfl, rfl, rfl, hv⟩ := hbs
      obtain ⟨rfl, rfl⟩ := append_eq_iff.mp hv
      rfl
    · intro hbs
      subst hbs
      exact ⟨[v.extractLsb' 8 8], [v.extractLsb' 0 8], _, rfl, rfl, _, [], _, rfl, rfl, rfl,
        append_eq_iff.mpr ⟨rfl, rfl⟩⟩
  · simp [NoStops]

theorem decodes_readFloat_be : Decodes readFloat_be (fun bs v => bs = bytes32 v) NoStops := by
  refine (decodes_readInt8.bind fun a => decodes_readInt8.bind fun b => decodes_readInt8.bind fun c =>
    decodes_readInt8.bind fun d => decodes_pure (a ++ b ++ c ++ d)).congr
    (fun bs v => ?_) (fun bs e => ?_)
  · constructor
    · intro hbs
      obtain ⟨_, _, a, rfl, rfl, _, _, b, rfl, rfl, _, _, c, rfl, rfl, _, _, d, rfl, rfl, rfl,
        rfl⟩ := hbs
      have hword : bytes32 (a ++ b ++ c ++ d) = (leBytes (leWord d c b a)).reverse := rfl
      rw [hword, leBytes_leWord]
      rfl
    · intro hbs
      subst hbs
      exact ⟨[v.extractLsb' 24 8], [v.extractLsb' 16 8, v.extractLsb' 8 8, v.extractLsb' 0 8], _,
        rfl, rfl, _, [v.extractLsb' 8 8, v.extractLsb' 0 8], _, rfl, rfl, _,
        [v.extractLsb' 0 8], _, rfl, rfl, _, [], _, rfl, rfl, rfl, (leWord_extract v).symm⟩
  · simp [NoStops]

/-- The bytes of a name: their number, which is less than 32, and then the bytes. -/
def NameBytes (bs name : List Byte) : Prop :=
  ∃ data, data.length < kSCNameByteLen ∧ bs = BitVec.ofNat 8 data.length :: data ∧
    name = nameOf data

/-- A name of 32 bytes or more. -/
def NameStops (bs : List Byte) (e : ReadStop) : Prop :=
  ∃ b : Byte, bs = [b] ∧ kSCNameByteLen ≤ b.toNat ∧ e = .thrown .nameTooLong

theorem toNat_namelen (b : Byte) :
    b.toNat < kSCNameByteLen ∧ (b.signExtend 32).toNat = b.toNat ∨
      kSCNameByteLen ≤ b.toNat ∧ kSCNameByteLen ≤ (b.signExtend 32).toNat := by
  have hlt := b.isLt
  unfold kSCNameByteLen
  rw [BitVec.toNat_signExtend, BitVec.toNat_setWidth]
  by_cases hmsb : b.msb
  · -- the number is negative, and large as an unsigned one
    have hge := BitVec.le_toNat_of_msb_true hmsb
    rw [if_pos hmsb]
    omega
  · rw [if_neg hmsb]
    omega

theorem listed_token {us data : List Byte} :
    Listed (fun bs b => bs = [b]) us data ↔ us = data := by
  constructor
  · intro h
    induction h with
    | nil => rfl
    | cons head _ ih => rw [head, ih, List.singleton_append]
  · intro h
    subst h
    induction us with
    | nil => exact .nil
    | cons b us ih =>
      rw [← List.singleton_append]
      exact .cons rfl ih

theorem listStops_noStops {α : Type} {Spells : List Byte → α → Prop} {n : ℕ} {bs : List Byte}
    {e : ReadStop} : ¬ ListStops Spells NoStops n bs e := by
  intro h
  obtain ⟨_, _, _, _, _, _, hstop⟩ := h
  exact hstop

theorem decodes_readName : Decodes readName NameBytes NameStops := by
  have hrest : ∀ namelen : Byte,
      Decodes (if kSCNameByteLen ≤ (namelen.signExtend 32).toNat then
          (stop (.thrown .nameTooLong) : DefReader (List Byte))
        else do
          let data ← times (namelen.signExtend 32).toNat readInt8
          return nameOf data)
        (fun bs name => bs.length = namelen.toNat ∧ bs.length < kSCNameByteLen ∧ name = nameOf bs)
        fun bs e => bs = [] ∧ kSCNameByteLen ≤ namelen.toNat ∧ e = .thrown .nameTooLong := by
    intro namelen
    rcases toNat_namelen namelen with ⟨hlt, heq⟩ | ⟨hle, hge⟩
    · rw [heq, if_neg (by omega)]
      refine ((decodes_readInt8.times namelen.toNat).bind fun data => decodes_pure (nameOf data)).congr
        (fun bs name => ?_) (fun bs e => ?_)
      · constructor
        · intro hbs
          obtain ⟨us, _, data, rfl, ⟨hdata, hlength⟩, rfl, rfl⟩ := hbs
          rw [listed_token] at hdata
          subst hdata
          rw [List.append_nil]
          exact ⟨hlength, by omega, rfl⟩
        · intro hbs
          obtain ⟨hlength, -, rfl⟩ := hbs
          exact ⟨bs, [], bs, (List.append_nil bs).symm, ⟨listed_token.mpr rfl, hlength⟩, rfl, rfl⟩
      · constructor
        · intro hstops
          rcases hstops with hlist | ⟨_, _, _, _, _, hfalse⟩
          · exact absurd hlist listStops_noStops
          · exact hfalse.elim
        · intro hstops
          omega
    · rw [if_pos hge]
      refine (decodes_stop _).congr (fun bs name => ?_) (fun bs e => ?_)
      · constructor
        · exact False.elim
        · intro hbs
          omega
      · simp [hle]
  refine (decodes_readInt8.bind hrest).congr (fun bs name => ?_) (fun bs e => ?_)
  · constructor
    · intro hbs
      obtain ⟨_, data, b, rfl, rfl, hlength, hlt, rfl⟩ := hbs
      refine ⟨data, hlt, ?_, rfl⟩
      rw [hlength, BitVec.ofNat_toNat, BitVec.setWidth_eq]
      rfl
    · intro hbs
      obtain ⟨data, hlt, rfl, rfl⟩ := hbs
      refine ⟨[BitVec.ofNat 8 data.length], data, _, rfl, rfl, ?_, hlt, rfl⟩
      rw [BitVec.toNat_ofNat]
      unfold kSCNameByteLen at hlt
      omega
  · constructor
    · intro hstops
      rcases hstops with hfalse | ⟨_, _, b, rfl, rfl, rfl, hle, rfl⟩
      · exact hfalse.elim
      · exact ⟨b, rfl, hle, rfl⟩
    · intro hstops
      obtain ⟨b, rfl, hle, rfl⟩ := hstops
      exact .inr ⟨[b], [], b, rfl, rfl, rfl, hle, rfl⟩

/-! ## Specs -/

/-- A number of items, and the items. -/
def CountedBytes {α : Type} (Spells : List Byte → α → Prop) (bs : List Byte) (as : List α) : Prop :=
  ∃ v us, bs = bytes16 v ++ us ∧ Listed Spells us as ∧ as.length = v.toNat

/-- One of the items stops its reader. -/
def CountedStops {α : Type} (Spells : List Byte → α → Prop) (Stops : List Byte → ReadStop → Prop)
    (bs : List Byte) (e : ReadStop) : Prop :=
  ∃ v us, bs = bytes16 v ++ us ∧ ListStops Spells Stops v.toNat us e

theorem decodes_counted {α : Type} {rd : DefReader α} {Spells : List Byte → α → Prop}
    {Stops : List Byte → ReadStop → Prop} (h : Decodes rd Spells Stops) :
    Decodes (counted rd) (CountedBytes Spells) (CountedStops Spells Stops) := by
  refine (decodes_readInt16_be.bind fun n => h.times n.toNat).congr (fun bs as => ?_)
    (fun bs e => ?_)
  · constructor
    · intro hbs
      obtain ⟨_, us, v, rfl, rfl, hlisted, hlength⟩ := hbs
      exact ⟨v, us, rfl, hlisted, hlength⟩
    · intro hbs
      obtain ⟨v, us, rfl, hlisted, hlength⟩ := hbs
      exact ⟨bytes16 v, us, v, rfl, rfl, hlisted, hlength⟩
  · constructor
    · intro hstops
      rcases hstops with hfalse | ⟨_, us, v, rfl, rfl, hstop⟩
      · exact hfalse.elim
      · exact ⟨v, us, rfl, hstop⟩
    · intro hstops
      obtain ⟨v, us, rfl, hstop⟩ := hstops
      exact .inr ⟨bytes16 v, us, v, rfl, rfl, hstop⟩

theorem countedStops_noStops {α : Type} {Spells : List Byte → α → Prop} {bs : List Byte}
    {e : ReadStop} : ¬ CountedStops Spells NoStops bs e := by
  intro h
  obtain ⟨_, _, _, hstop⟩ := h
  exact listStops_noStops hstop

def FloatBytes (bs : List Byte) (v : Word) : Prop := bs = bytes32 v

def ParamSpecBytes (bs : List Byte) (p : ParamSpec) : Prop :=
  ∃ us v, bs = us ++ bytes16 v ∧ NameBytes us p.mName ∧ p.mIndex = v.toNat

def InputSpecBytes (bs : List Byte) (i : InputSpec) : Prop :=
  ∃ v w, bs = bytes16 v ++ bytes16 w ∧ i = ⟨v.toInt, w.toInt⟩

def OutputSpecBytes (bs : List Byte) (r : ℤ) : Prop := ∃ b : Byte, bs = [b] ∧ r = b.toInt

theorem decodes_paramSpecRead : Decodes paramSpecRead ParamSpecBytes NameStops := by
  refine (decodes_readName.bind fun mName => decodes_readInt16_be.bind fun mIndex =>
    decodes_pure (⟨mName, mIndex.toNat⟩ : ParamSpec)).congr (fun bs p => ?_) (fun bs e => ?_)
  · constructor
    · intro hbs
      obtain ⟨us, _, name, rfl, hname, _, _, v, rfl, rfl, rfl, rfl⟩ := hbs
      exact ⟨us, v, by rw [List.append_nil], hname, rfl⟩
    · intro hbs
      obtain ⟨us, v, rfl, hname, hindex⟩ := hbs
      exact ⟨us, bytes16 v, p.mName, rfl, hname, bytes16 v, [], v, (List.append_nil _).symm, rfl,
        rfl, by rw [← hindex]⟩
  · simp [NoStops]

theorem decodes_inputSpecRead : Decodes inputSpecRead InputSpecBytes NoStops := by
  refine (decodes_readInt16_be.bind fun v => decodes_readInt16_be.bind fun w =>
    decodes_pure (⟨v.toInt, w.toInt⟩ : InputSpec)).congr (fun bs i => ?_) (fun bs e => ?_)
  · constructor
    · intro hbs
      obtain ⟨_, _, v, rfl, rfl, _, _, w, rfl, rfl, rfl, rfl⟩ := hbs
      exact ⟨v, w, by rw [List.append_nil], rfl⟩
    · intro hbs
      obtain ⟨v, w, rfl, rfl⟩ := hbs
      exact ⟨_, bytes16 w, v, rfl, rfl, bytes16 w, [], w, (List.append_nil _).symm, rfl, rfl, rfl⟩
  · simp [NoStops]

theorem decodes_outputSpecRead : Decodes outputSpecRead OutputSpecBytes NoStops := by
  refine (decodes_readInt8.bind fun b => decodes_pure b.toInt).congr (fun bs r => ?_) (fun bs e => ?_)
  · constructor
    · intro hbs
      obtain ⟨_, _, b, rfl, rfl, rfl, rfl⟩ := hbs
      exact ⟨b, rfl, rfl⟩
    · intro hbs
      obtain ⟨b, rfl, rfl⟩ := hbs
      exact ⟨[b], [], b, rfl, rfl, rfl, rfl⟩
  · simp [NoStops]

section Definition

variable (inWorld : DefWorld)

/-- A unit of a unit generator that is installed. -/
def UnitSpecBytes (bs : List Byte) (u : RawUnitSpec) : Prop :=
  ∃ us name rate inputs outputs special is os,
    bs = us ++ (rate :: (bytes16 inputs ++ (bytes16 outputs ++ (bytes16 special ++ (is ++ os))))) ∧
    NameBytes us name ∧ inWorld.getUnitDef name = some u.mUnitDef ∧
    u.mCalcRate = rate.toInt ∧ u.mSpecialIndex = special.toInt ∧
    (Listed InputSpecBytes is u.mInputSpec ∧ u.mInputSpec.length = inputs.toNat) ∧
    Listed OutputSpecBytes os u.mOutputSpec ∧ u.mOutputSpec.length = outputs.toNat

/-- The name of a unit is too long, or its unit generator is not installed. -/
def UnitSpecStops (bs : List Byte) (e : ReadStop) : Prop :=
  NameStops bs e ∨ ∃ name, NameBytes bs name ∧ inWorld.getUnitDef name = none ∧
    e = .thrown (.notInstalled name)

theorem decodes_unitDefRead (name : List Byte) :
    Decodes (unitDefRead inWorld name) (fun bs d => bs = [] ∧ inWorld.getUnitDef name = some d)
      fun bs e => bs = [] ∧ inWorld.getUnitDef name = none ∧
        e = .thrown (.notInstalled name) := by
  unfold unitDefRead
  cases inWorld.getUnitDef name with
  | none => exact (decodes_stop _).congr (by simp) (by simp)
  | some mUnitDef => exact (decodes_pure mUnitDef).congr (by simp [eq_comm]) (by simp)

theorem decodes_unitSpecRead :
    Decodes (unitSpecRead inWorld) (UnitSpecBytes inWorld) (UnitSpecStops inWorld) := by
  refine (decodes_readName.bind fun name => (decodes_unitDefRead inWorld name).bind fun mUnitDef =>
    decodes_readInt8.bind fun rate => decodes_readInt16_be.bind fun inputs =>
    decodes_readInt16_be.bind fun outputs => decodes_readInt16_be.bind fun special =>
    (decodes_inputSpecRead.times inputs.toNat).bind fun is =>
    (decodes_outputSpecRead.times outputs.toNat).bind fun os =>
    decodes_pure (⟨mUnitDef, rate.toInt, special.toInt, is, os⟩ : RawUnitSpec)).congr
    (fun bs u => ?_) (fun bs e => ?_)
  · constructor
    · intro hbs
      obtain ⟨us, _, name, rfl, hname, _, _, mUnitDef, rfl, ⟨rfl, hunit⟩, _, _, rate, rfl, rfl, _,
        _, inputs, rfl, rfl, _, _, outputs, rfl, rfl, _, _, special, rfl, rfl, is, _, inputSpecs,
        rfl, his, os, _, outputSpecs, rfl, hos, rfl, rfl⟩ := hbs
      exact ⟨us, name, rate, inputs, outputs, special, is, os, by rw [List.append_nil]; rfl, hname,
        hunit, rfl, rfl, his, hos⟩
    · intro hbs
      obtain ⟨us, name, rate, inputs, outputs, special, is, os, rfl, hname, hunit, hrate, hspecial,
        his, hos⟩ := hbs
      refine ⟨us, _, name, rfl, hname, [], _, u.mUnitDef, rfl, ⟨rfl, hunit⟩, [rate], _, rate, rfl,
        rfl, _, _, inputs, rfl, rfl, _, _, outputs, rfl, rfl, _, _, special, rfl, rfl, is, os,
        u.mInputSpec, rfl, his, os, [], u.mOutputSpec, (List.append_nil _).symm, hos, rfl, ?_⟩
      rw [← hrate, ← hspecial]
  · constructor
    · intro hstops
      rcases hstops with hname | ⟨us, _, name, rfl, hname, ⟨rfl, hnone, he⟩ | hrest⟩
      · exact .inl hname
      · exact .inr ⟨name, by rwa [List.append_nil], hnone, he⟩
      · simp [NoStops, listStops_noStops] at hrest
    · intro hstops
      rcases hstops with hname | ⟨name, hname, hnone, he⟩
      · exact .inl hname
      · exact .inr ⟨bs, [], name, (List.append_nil bs).symm, hname, .inl ⟨rfl, hnone, he⟩⟩

/-! ## Definitions -/

/-- A definition in front of the colouring. -/
def RawBytes (bs : List Byte) (d : RawGraphDef) : Prop :=
  ∃ name constants values params units,
    bs = name ++ (constants ++ (values ++ (params ++ units))) ∧ NameBytes name d.mName ∧
    CountedBytes FloatBytes constants d.mConstants ∧
    CountedBytes FloatBytes values d.mInitialControlValues ∧
    CountedBytes ParamSpecBytes params d.mParamSpecs ∧
    CountedBytes (UnitSpecBytes inWorld) units d.mUnitSpecs

/-- The name of the definition or of a parameter is too long, or a unit stops the reader. -/
def RawStops (bs : List Byte) (e : ReadStop) : Prop :=
  NameStops bs e ∨
    ∃ name constants values rest mName mConstants mInitialControlValues,
      bs = name ++ (constants ++ (values ++ rest)) ∧ NameBytes name mName ∧
      CountedBytes FloatBytes constants mConstants ∧
      CountedBytes FloatBytes values mInitialControlValues ∧
      (CountedStops ParamSpecBytes NameStops rest e ∨
        ∃ params units mParamSpecs, rest = params ++ units ∧
          CountedBytes ParamSpecBytes params mParamSpecs ∧
          CountedStops (UnitSpecBytes inWorld) (UnitSpecStops inWorld) units e)

theorem decodes_rawGraphDefRead :
    Decodes (rawGraphDefRead inWorld) (RawBytes inWorld) (RawStops inWorld) := by
  have hfloats : Decodes (counted readFloat_be) (CountedBytes FloatBytes)
      (CountedStops FloatBytes NoStops) := decodes_counted decodes_readFloat_be
  refine (decodes_readName.bind fun mName => hfloats.bind fun mConstants =>
    hfloats.bind fun mInitialControlValues => (decodes_counted decodes_paramSpecRead).bind fun mParamSpecs =>
    (decodes_counted (decodes_unitSpecRead inWorld)).bind fun mUnitSpecs =>
    decodes_pure (⟨mName, mConstants, mInitialControlValues, mParamSpecs, mUnitSpecs⟩ :
      RawGraphDef)).congr (fun bs d => ?_) (fun bs e => ?_)
  · constructor
    · intro hbs
      obtain ⟨name, _, mName, rfl, hname, constants, _, mConstants, rfl, hconstants, values, _,
        mValues, rfl, hvalues, params, _, mParamSpecs, rfl, hparams, units, _, mUnitSpecs, rfl,
        hunits, rfl, rfl⟩ := hbs
      exact ⟨name, constants, values, params, units, by rw [List.append_nil], hname, hconstants,
        hvalues, hparams, hunits⟩
    · intro hbs
      obtain ⟨name, constants, values, params, units, rfl, hname, hconstants, hvalues, hparams,
        hunits⟩ := hbs
      exact ⟨name, _, _, rfl, hname, constants, _, _, rfl, hconstants, values, _, _, rfl, hvalues,
        params, _, _, rfl, hparams, units, [], _, (List.append_nil _).symm, hunits, rfl, rfl⟩
  · constructor
    · intro hstops
      rcases hstops with hname | ⟨name, _, mName, rfl, hname, hstops⟩
      · exact .inl hname
      rcases hstops with hfalse | ⟨constants, _, mConstants, rfl, hconstants, hstops⟩
      · exact absurd hfalse countedStops_noStops
      rcases hstops with hfalse | ⟨values, _, mValues, rfl, hvalues, hstops⟩
      · exact absurd hfalse countedStops_noStops
      refine .inr ⟨name, constants, values, _, mName, mConstants, mValues, rfl, hname, hconstants,
        hvalues, ?_⟩
      rcases hstops with hparam | ⟨params, _, mParamSpecs, rfl, hparams, hstops⟩
      · exact .inl hparam
      rcases hstops with hunit | ⟨_, _, _, _, _, hfalse⟩
      · exact .inr ⟨params, _, mParamSpecs, rfl, hparams, hunit⟩
      · exact hfalse.elim
    · intro hstops
      rcases hstops with hname | ⟨name, constants, values, rest, mName, mConstants, mValues, rfl,
        hname, hconstants, hvalues, hrest⟩
      · exact .inl hname
      refine .inr ⟨name, _, mName, rfl, hname, .inr ⟨constants, _, mConstants, rfl, hconstants,
        .inr ⟨values, rest, mValues, rfl, hvalues, ?_⟩⟩⟩
      rcases hrest with hparam | ⟨params, units, mParamSpecs, rfl, hparams, hunit⟩
      · exact .inl hparam
      · exact .inr ⟨params, units, mParamSpecs, rfl, hparams, .inl hunit⟩

/-- A variant has a value for every control of its definition. -/
def VariantBytes (d : RawGraphDef) (bs : List Byte) (variant : Variant) : Prop :=
  ∃ name values, bs = name ++ values ∧ NameBytes name variant.mName ∧
    Listed FloatBytes values variant.mInitialControlValues ∧
    variant.mInitialControlValues.length = d.mInitialControlValues.length

theorem decodes_graphDefReadVariant (d : RawGraphDef) :
    Decodes (graphDefReadVariant d) (VariantBytes d) NameStops := by
  have hfloats : Decodes (times d.mInitialControlValues.length readFloat_be)
      (fun bs vs => Listed FloatBytes bs vs ∧ vs.length = d.mInitialControlValues.length)
      (ListStops FloatBytes NoStops d.mInitialControlValues.length) := decodes_readFloat_be.times _
  refine (decodes_readName.bind fun mName => hfloats.bind fun mInitialControlValues =>
    decodes_pure (⟨mName, mInitialControlValues⟩ : Variant)).congr (fun bs v => ?_) (fun bs e => ?_)
  · constructor
    · intro hbs
      obtain ⟨name, _, mName, rfl, hname, values, _, mValues, rfl, hvalues, rfl, rfl⟩ := hbs
      exact ⟨name, values, by rw [List.append_nil], hname, hvalues⟩
    · intro hbs
      obtain ⟨name, values, rfl, hname, hvalues⟩ := hbs
      exact ⟨name, values, _, rfl, hname, values, [], _, (List.append_nil _).symm, hvalues, rfl,
        rfl⟩
  · simp [listStops_noStops]

variable (inVersion : ℤ)

/-- A definition, with its variants from version 1 on. The colouring stays in its arrays and
throws nothing. -/
def DefBytes (bs : List Byte) (d : ReadGraphDef) : Prop :=
  ∃ raw variants, bs = raw ++ variants ∧ RawBytes inWorld raw d.raw ∧
    d.raw.toGraphDef.doBufferColoringOrStop inWorld = .ok (d.coloring, d.mMaxWireBufs) ∧
    if inVersion ≥ 1 then CountedBytes (VariantBytes d.raw) variants d.mVariants
    else variants = [] ∧ d.mVariants = []

/-- A name is too long, a unit generator is not installed, or the colouring stops. -/
def DefStops (bs : List Byte) (e : ReadStop) : Prop :=
  RawStops inWorld bs e ∨
    (∃ d, RawBytes inWorld bs d ∧ d.toGraphDef.doBufferColoringOrStop inWorld = .error e) ∨
    inVersion ≥ 1 ∧ ∃ raw variants d c, bs = raw ++ variants ∧ RawBytes inWorld raw d ∧
      d.toGraphDef.doBufferColoringOrStop inWorld = .ok c ∧
      CountedStops (VariantBytes d) NameStops variants e

theorem decodes_graphDefRead :
    Decodes (graphDefRead inWorld inVersion) (DefBytes inWorld inVersion)
      (DefStops inWorld inVersion) := by
  have hvariants : ∀ d,
      Decodes (variantsRead inVersion d)
        (fun bs vs => if inVersion ≥ 1 then CountedBytes (VariantBytes d) bs vs
          else bs = [] ∧ vs = [])
        fun bs e => inVersion ≥ 1 ∧ CountedStops (VariantBytes d) NameStops bs e := by
    intro d
    unfold variantsRead
    split_ifs with hversion
    · exact (decodes_counted (decodes_graphDefReadVariant d)).congr (fun _ _ => Iff.rfl)
        fun _ _ => (and_iff_right hversion).symm
    · exact (decodes_pure []).congr (fun _ _ => Iff.rfl)
        fun _ _ => ⟨False.elim, fun hstops => hversion hstops.1⟩
  refine ((decodes_rawGraphDefRead inWorld).bind fun raw =>
    (decodes_ofExcept (raw.toGraphDef.doBufferColoringOrStop inWorld)).bind fun c =>
    (hvariants raw).bind fun mVariants =>
    decodes_pure (⟨raw, c.1, c.2, mVariants⟩ : ReadGraphDef)).congr (fun bs d => ?_) (fun bs e => ?_)
  · constructor
    · intro hbs
      obtain ⟨raw, _, d, rfl, hraw, _, _, c, rfl, ⟨rfl, hc⟩, variants, _, mVariants, rfl, hvs, rfl,
        rfl⟩ := hbs
      exact ⟨raw, variants, by rw [List.append_nil]; rfl, hraw, hc, hvs⟩
    · intro hbs
      obtain ⟨raw, variants, rfl, hraw, hc, hvs⟩ := hbs
      exact ⟨raw, variants, d.raw, rfl, hraw, [], variants, _, rfl, ⟨rfl, hc⟩, variants, [], _,
        (List.append_nil _).symm, hvs, rfl, rfl⟩
  · constructor
    · intro hstops
      rcases hstops with hraw | ⟨raw, _, d, rfl, hraw, hstops⟩
      · exact .inl hraw
      rcases hstops with ⟨rfl, hc⟩ | ⟨_, _, c, rfl, ⟨rfl, hc⟩, hstops⟩
      · exact .inr (.inl ⟨d, by rwa [List.append_nil], hc⟩)
      rcases hstops with ⟨hversion, hvariant⟩ | ⟨_, _, _, _, _, hfalse⟩
      · exact .inr (.inr ⟨hversion, raw, _, d, c, rfl, hraw, hc, hvariant⟩)
      · exact hfalse.elim
    · intro hstops
      rcases hstops with hraw | ⟨d, hraw, hc⟩ | ⟨hversion, raw, variants, d, c, rfl, hraw, hc, hvariant⟩
      · exact .inl hraw
      · exact .inr ⟨bs, [], d, (List.append_nil bs).symm, hraw, .inl ⟨rfl, hc⟩⟩
      · exact .inr ⟨raw, variants, d, rfl, hraw, .inr ⟨[], variants, c, rfl, ⟨rfl, hc⟩,
          .inl ⟨hversion, hvariant⟩⟩⟩

end Definition

/-- `GraphDef_Read` throws or gives a well-formed definition exactly if the bytes begin with
those of a well-formed definition, or with bytes at which it throws. -/
theorem rejectsOrWellFormed_iff (inWorld : DefWorld) (inVersion : ℤ) (buffer : List Byte) :
    RejectsOrWellFormed (graphDefRead inWorld inVersion buffer) ↔
      ∃ bs rest, buffer = bs ++ rest ∧
        ((∃ d, DefBytes inWorld inVersion bs d ∧ d.raw.WellFormed) ∨
          ∃ e, DefStops inWorld inVersion bs (.thrown e)) := by
  have hdecodes := decodes_graphDefRead inWorld inVersion
  constructor
  · intro h
    rcases hdecodes.cases buffer with ⟨bs, rest, d, hbuffer, hbytes, hrun⟩ |
      ⟨bs, rest, e, hbuffer, hstops, hrun⟩ | hrun
    · rw [hrun] at h
      exact ⟨bs, rest, hbuffer, .inl ⟨d, hbytes, h⟩⟩
    · rw [hrun] at h
      cases e with
      | thrown e => exact ⟨bs, rest, hbuffer, .inr ⟨e, hstops⟩⟩
      | outside => exact h.elim
    · rw [hrun] at h
      exact h.elim
  · intro h
    obtain ⟨bs, rest, hbuffer, ⟨d, hbytes, hwf⟩ | ⟨e, hstops⟩⟩ := h
    · rw [(hdecodes.ok_iff buffer d rest).mpr ⟨bs, hbuffer, hbytes⟩]
      exact hwf
    · rw [(hdecodes.stop_iff buffer _).mpr ⟨bs, rest, hbuffer, hstops⟩]
      trivial

/-! ## The colouring of what is read -/

theorem exists_of_bind_eq_ok {ε α β : Type} {x : Except ε α} {f : α → Except ε β} {b : β}
    (h : x.bind f = .ok b) : ∃ a, x = .ok a ∧ f a = .ok b := by
  cases x with
  | error e => nomatch h
  | ok a => exact ⟨a, rfl, h⟩

/-- A loop that gives a result in spite of its checks gives it without them. -/
theorem foldlM_of_ok {ε σ ι : Type} {step : σ → ι → Except ε σ} {step' : σ → ι → Option σ}
    (hstep : ∀ s i s', step s i = .ok s' → step' s i = some s') (l : List ι) {s s' : σ}
    (h : l.foldlM step s = .ok s') : l.foldlM step' s = some s' := by
  induction l generalizing s with
  | nil => exact congrArg some (Except.ok.inj h)
  | cons i l ih =>
    rw [List.foldlM_cons] at h ⊢
    obtain ⟨s₁, hs, hrest⟩ := exists_of_bind_eq_ok h
    rw [hstep s i s₁ hs]
    exact ih hrest

namespace GraphDef

variable {inGraphDef : GraphDef}

theorem eq_some_of_elim_eq_ok {ε α : Type} {o : Option α} {e : ε} {a : α}
    (h : o.elim (.error e) .ok = (.ok a : Except ε α)) : o = some a := by
  cases o with
  | none => nomatch h
  | some b => exact congrArg some (Except.ok.inj h)

theorem releaseInputBuffer_of_ok (unit : ℕ) (c : Coloring) (i : ℕ) (c' : Coloring)
    (h : inGraphDef.releaseOrStop unit c i = .ok c') :
    inGraphDef.releaseInputBuffer unit c i = some c' := by
  unfold releaseOrStop at h
  cases hinput : (inGraphDef.unit unit).mInputSpec[i]? with
  | none =>
    rw [hinput] at h
    rw [releaseInputBuffer, hinput, Except.ok.inj h]
  | some inputSpec =>
    rw [hinput] at h
    dsimp only at h
    split_ifs at h
    exact eq_some_of_elim_eq_ok h

theorem colorUnit_of_ok (c : Coloring) (unit : ℕ) (c' : Coloring)
    (h : inGraphDef.colorUnitOrStop c unit = .ok c') : inGraphDef.colorUnit c unit = some c' := by
  have hallocs : ∀ c c', inGraphDef.allocsOrStop unit c = .ok c' →
      inGraphDef.allocOutputBuffers unit c = some c' :=
    fun c c' => foldlM_of_ok (fun _ _ _ => eq_some_of_elim_eq_ok) _
  have hreleases : ∀ c c', inGraphDef.releasesOrStop unit c = .ok c' →
      inGraphDef.releaseInputBuffers unit c = some c' :=
    fun c c' => foldlM_of_ok (releaseInputBuffer_of_ok unit) _
  unfold colorUnitOrStop at h
  unfold colorUnit
  split_ifs at h ⊢
  · obtain ⟨c₁, hfirst, hsecond⟩ := exists_of_bind_eq_ok h
    rw [hallocs c c₁ hfirst]
    exact hreleases c₁ c' hsecond
  · obtain ⟨c₁, hfirst, hsecond⟩ := exists_of_bind_eq_ok h
    rw [hreleases c c₁ hfirst]
    exact hallocs c₁ c' hsecond

/-- Where the colouring neither throws nor leaves its arrays, it is `doBufferColoring`. -/
theorem doBufferColoring_of_ok {inWorld : DefWorld} {c : Coloring} {mMaxWireBufs : ℕ}
    (h : inGraphDef.doBufferColoringOrStop inWorld = .ok (c, mMaxWireBufs)) :
    inGraphDef.doBufferColoring inWorld.mBufLength = some c := by
  unfold doBufferColoringOrStop at h
  split_ifs at h
  obtain ⟨c₁, hfold, hrest⟩ := exists_of_bind_eq_ok h
  obtain ⟨n, -, hresult⟩ := exists_of_bind_eq_ok hrest
  unfold doBufferColoring
  rw [foldlM_of_ok colorUnit_of_ok _ hfold, ← (Prod.mk.inj (Except.ok.inj hresult)).1]
  rfl

end GraphDef

/-- A definition in which every output has the rate of its unit is one that can be coloured. -/
theorem RawGraphDef.WellFormed.toGraphDef {d : RawGraphDef} (h : d.WellFormed)
    (hrate : ∀ unit ∈ d.mUnitSpecs, ∀ r ∈ unit.mOutputSpec, r = unit.mCalcRate) :
    d.toGraphDef.WellFormed := by
  have hunit : ∀ u unit, d.mUnitSpecs[u]? = some unit → d.toGraphDef.unit u = unit.toUnitSpec := by
    intro u unit hu
    rw [GraphDef.unit, RawGraphDef.toGraphDef, List.getD_eq_getElem?_getD, List.getElem?_map, hu]
    rfl
  have hget : ∀ u < d.toGraphDef.numUnits, ∃ unit, d.mUnitSpecs[u]? = some unit := by
    intro u hu
    rw [GraphDef.numUnits, RawGraphDef.toGraphDef, List.length_map] at hu
    exact ⟨_, List.getElem?_eq_getElem hu⟩
  refine ⟨fun u hu r hr => ?_, fun u hu inputSpec hin => ?_⟩
  · obtain ⟨unit, hu'⟩ := hget u hu
    rw [hunit u unit hu'] at hr ⊢
    obtain ⟨r', hr', rfl⟩ := List.mem_map.mp hr
    rw [hrate unit (List.mem_of_getElem? hu') r' hr']
    rfl
  · obtain ⟨unit, hu'⟩ := hget u hu
    rw [hunit u unit hu'] at hin
    obtain ⟨hpos, hconstant | ⟨hfrom, hlt, unit', hunit', hout⟩⟩ := h.input u unit hu' inputSpec hin
    · exact ⟨hpos, .inl hconstant⟩
    · refine ⟨hpos, .inr ⟨hfrom, ?_, ?_⟩⟩
      · show inputSpec.mFromUnitIndex.toNat < u
        omega
      · have houtput : (d.toGraphDef.unit inputSpec.fromOutput.1).mOutputSpec.length =
            unit'.mOutputSpec.length := by
          show (d.toGraphDef.unit inputSpec.mFromUnitIndex.toNat).mOutputSpec.length = _
          rw [hunit _ unit' hunit', RawUnitSpec.toUnitSpec, List.length_map]
        rw [houtput]
        show inputSpec.mFromOutputIndex.toNat < _
        omega

/-- The colouring of a definition that was read is sound if its numbers fit their fields. -/
theorem sound_of_graphDefRead {inWorld : DefWorld} {inVersion : ℤ} {buffer rest : List Byte}
    {d : ReadGraphDef} (hread : graphDefRead inWorld inVersion buffer = .ok (d, rest))
    (hwf : d.raw.WellFormed)
    (hrate : ∀ unit ∈ d.raw.mUnitSpecs, ∀ r ∈ unit.mOutputSpec, r = unit.mCalcRate)
    (hreaders : ∀ o, d.raw.toGraphDef.numReaders o < 2 ^ 15)
    (hrange : d.raw.toGraphDef.InRange inWorld.mBufLength) :
    d.raw.toGraphDef.Sound inWorld.mBufLength d.coloring := by
  obtain ⟨bs, -, raw, variants, -, -, hcolored, -⟩ :=
    ((decodes_graphDefRead inWorld inVersion).ok_iff buffer d rest).mp hread
  have hsome := GraphDef.doBufferColoring_of_ok hcolored
  have hcases : (d.raw.toGraphDef.doBufferColoring inWorld.mBufLength = none ∧ _) ∨ _ :=
    GraphDef.doBufferColoring_cases (hwf.toGraphDef hrate) hreaders
  rcases hcases with ⟨hnone, -⟩ | ⟨c, s, hc, -, hresult⟩
  · rw [hnone] at hsome
    nomatch hsome
  · rw [hsome] at hc
    rw [Option.some.inj hc]
    exact hresult.sound (hwf.toGraphDef hrate) hrange

/-! ## Bytes that are not checked -/

/-- A server without plug-ins. -/
def bareWorld : DefWorld where
  getUnitDef := fun _ => none
  mRunning := true
  mMaxWireBufs := 64
  mBufLength := 64

/-- A definition with a parameter that is the sixth of no controls. -/
def strayParam : List Byte :=
  [1#8, 97#8, 0#8, 0#8, 0#8, 0#8, 0#8, 1#8, 1#8, 112#8, 0#8, 5#8, 0#8, 0#8]

/-- Bytes that break off are read past their end. -/
example : graphDefRead bareWorld 0 (strayParam.take 9) = .error .pastEnd := rfl

/-- A definition with a parameter that is none of its controls is accepted. -/
theorem not_rejectsOrWellFormed : ¬ ∀ (inWorld : DefWorld) (inVersion : ℤ) (buffer : List Byte),
    RejectsOrWellFormed (graphDefRead inWorld inVersion buffer) := by
  intro hall
  have hwf := hall bareWorld 0 strayParam
  have hparam : (⟨nameOf [112#8], 5⟩ : ParamSpec).mIndex < 0 :=
    RawGraphDef.WellFormed.param hwf _ (List.mem_singleton.mpr rfl)
  exact absurd hparam (by decide)

end PoopWorms.Server
