import PoopWorms.Client.AKSCSynth
import PoopWorms.Lib.Runs
import PoopWorms.Osc.MessageTheorems

/-!
# The IDs that a session hands out

Synths and groups take their node IDs from two counters, buses from a third. A session is
any list of calls; what it hands out depends only on how many calls of each kind it holds.
-/

namespace PoopWorms.Client

open Octets Osc Server Runs

namespace AKSCSynth

/-! ## Messages -/

theorem slashed_s_new : OSCMessage.slashed (.ofString "/s_new") = .ofString "/s_new" := by decide

theorem slashed_g_new : OSCMessage.slashed (.ofString "/g_new") = .ofString "/g_new" := by decide

theorem sNewMessageWithSynth_eq (synth : AKSCSynth) (name : CString) (arguments : List OSCValue)
    (addAction : AKAddAction) (target : Word) :
    synth.sNewMessageWithSynth name arguments addAction target
      = (.ofValues (.ofString "/s_new") (.string name :: .int (synth.lastNodeID + 1#32)
          :: .int addAction.toInt :: .int target :: arguments), synth.lastNodeID + 1#32,
        { synth with lastNodeID := synth.lastNodeID + 1#32 }) := rfl

theorem gNewMessageWithNodeID_eq (synth : AKSCSynth) :
    synth.gNewMessageWithNodeID
      = (.ofValues (.ofString "/g_new") [.int (synth.lastGroupID + 1#32), .int 1#32, .int 0#32],
        synth.lastGroupID + 1#32, { synth with lastGroupID := synth.lastGroupID + 1#32 }) := rfl

end AKSCSynth

theorem issuedNodeID_s_new (name : CString) (nodeID : Word) (vs : List OSCValue) :
    issuedNodeID (.ofValues (.ofString "/s_new") (.string name :: .int nodeID :: vs))
      = some nodeID := by
  unfold issuedNodeID
  rw [OSCMessage.address_ofValues, OSCMessage.values_ofValues, if_pos AKSCSynth.slashed_s_new]

theorem issuedNodeID_g_new (groupID : Word) (vs : List OSCValue) :
    issuedNodeID (.ofValues (.ofString "/g_new") (.int groupID :: vs)) = some groupID := by
  have hne : ¬ OSCMessage.slashed (.ofString "/g_new") = .ofString "/s_new" := by decide
  unfold issuedNodeID
  rw [OSCMessage.address_ofValues, OSCMessage.values_ofValues, if_neg hne,
    if_pos AKSCSynth.slashed_g_new]

theorem issuedNodeID_free (a : CString) (ha : a = .ofString "/g_freeAll" ∨ a = .ofString "/n_free")
    (vs : List OSCValue) : issuedNodeID (.ofValues a vs) = none := by
  unfold issuedNodeID
  rw [OSCMessage.address_ofValues]
  rcases ha with rfl | rfl
  · rw [if_neg (by decide), if_neg (by decide)]
  · rw [if_neg (by decide), if_neg (by decide)]

theorem issuedNodeIDs_synthWithName (synth : AKSCSynth) (name : CString)
    (arguments : List OSCValue) (addAction : AKAddAction) (target : Word) :
    issuedNodeIDs (synth.synthWithName name arguments addAction target).2
      = issuedNodeIDs synth ++ [synth.lastNodeID + 1#32] := by
  unfold issuedNodeIDs AKSCSynth.synthWithName
  simp only [AKSCSynth.sNewMessageWithSynth_eq, AKSCSynth.sendMessageInBundle,
    List.filterMap_append, List.filterMap_cons, issuedNodeID_s_new, List.filterMap_nil]

theorem issuedNodeIDs_group (synth : AKSCSynth) :
    issuedNodeIDs synth.group.2 = issuedNodeIDs synth ++ [synth.lastGroupID + 1#32] := by
  unfold issuedNodeIDs AKSCSynth.group
  simp only [AKSCSynth.gNewMessageWithNodeID_eq, AKSCSynth.sendMessageInBundle,
    List.filterMap_append, List.filterMap_cons, issuedNodeID_g_new, List.filterMap_nil]

theorem issuedNodeIDs_freeAllInGroup (synth : AKSCSynth) (groupID : Word) :
    issuedNodeIDs (synth.freeAllInGroup groupID) = issuedNodeIDs synth := by
  have hall := issuedNodeID_free (.ofString "/g_freeAll") (Or.inl rfl) [.int groupID]
  have hfree := issuedNodeID_free (.ofString "/n_free") (Or.inr rfl) [.int groupID]
  change (synth.oscPort ++ [OSCMessage.ofValues (.ofString "/g_freeAll") [.int groupID]]
    ++ [OSCMessage.ofValues (.ofString "/n_free") [.int groupID]]).filterMap issuedNodeID
    = synth.oscPort.filterMap issuedNodeID
  simp [hall, hfree]

/-! ## The node IDs of a session -/

namespace AKSCSynth

def Call.isSynth : Call → Bool
  | .synthWithName .. => true
  | _ => false

def Call.isGroup : Call → Bool
  | .group => true
  | _ => false

def Call.isBus : Call → Bool
  | .bus => true
  | _ => false

end AKSCSynth

/-- `k` IDs from a counter that stands at `n`. -/
def idsFrom (n : Word) (k : ℕ) : List Word :=
  (List.range k).map fun i => n + 1#32 + BitVec.ofNat 32 i

theorem idsFrom_succ (n : Word) (k : ℕ) :
    idsFrom n (k + 1) = (n + 1#32) :: idsFrom (n + 1#32) k := by
  have hshift : ∀ i, n + 1#32 + BitVec.ofNat 32 (i + 1)
      = n + 1#32 + 1#32 + BitVec.ofNat 32 i := by
    intro i
    rw [BitVec.ofNat_add]
    ac_rfl
  unfold idsFrom
  rw [List.range_succ_eq_map, List.map_cons, List.map_map]
  congr 1
  · simp
  · exact List.map_congr_left fun i _ => hshift i

theorem idsFrom_concat (n : Word) (k : ℕ) :
    idsFrom n (k + 1) = idsFrom n k ++ [n + 1#32 + BitVec.ofNat 32 k] := by
  unfold idsFrom
  rw [List.range_succ, List.map_append, List.map_singleton]

/-- The IDs that a session adds, up to the order: a run of each counter. -/
theorem issuedNodeIDs_perm (calls : List AKSCSynth.Call) (synth : AKSCSynth) :
    (issuedNodeIDs (run AKSCSynth.call synth calls)).Perm
      (issuedNodeIDs synth
        ++ (idsFrom synth.lastNodeID (calls.countP AKSCSynth.Call.isSynth)
          ++ idsFrom synth.lastGroupID (calls.countP AKSCSynth.Call.isGroup))) := by
  induction calls generalizing synth with
  | nil => simp [idsFrom]
  | cons c calls ih =>
    rw [run_cons]
    refine (ih (synth.call c)).trans ?_
    cases c with
    | synthWithName name arguments addAction target =>
      have hsent := issuedNodeIDs_synthWithName synth name arguments addAction target
      have hcount : (AKSCSynth.Call.synthWithName name arguments addAction target :: calls).countP
          AKSCSynth.Call.isSynth = calls.countP AKSCSynth.Call.isSynth + 1 :=
        List.countP_cons_of_pos rfl
      rw [AKSCSynth.call, hsent, hcount, idsFrom_succ, List.append_assoc]
      exact List.Perm.refl _
    | group =>
      have hsent := issuedNodeIDs_group synth
      have hcount : (AKSCSynth.Call.group :: calls).countP AKSCSynth.Call.isGroup
          = calls.countP AKSCSynth.Call.isGroup + 1 :=
        List.countP_cons_of_pos rfl
      have hcount' : (AKSCSynth.Call.group :: calls).countP AKSCSynth.Call.isSynth
          = calls.countP AKSCSynth.Call.isSynth := List.countP_cons_of_neg (by decide)
      have hmiddle : ((synth.lastGroupID + 1#32)
          :: (idsFrom synth.lastNodeID (calls.countP AKSCSynth.Call.isSynth)
            ++ idsFrom (synth.lastGroupID + 1#32) (calls.countP AKSCSynth.Call.isGroup))).Perm
          (idsFrom synth.lastNodeID (calls.countP AKSCSynth.Call.isSynth)
            ++ (synth.lastGroupID + 1#32)
            :: idsFrom (synth.lastGroupID + 1#32) (calls.countP AKSCSynth.Call.isGroup)) :=
        List.perm_middle.symm
      rw [AKSCSynth.call, hsent, hcount, hcount', idsFrom_succ, List.append_assoc]
      exact List.Perm.append_left _ hmiddle
    | freeAllInGroup groupID =>
      rw [AKSCSynth.call, issuedNodeIDs_freeAllInGroup]
      exact List.Perm.refl _
    | bus => exact List.Perm.refl _

theorem nodup_idsFrom_iff (n : Word) (k : ℕ) : (idsFrom n k).Nodup ↔ k ≤ 2 ^ 32 := by
  constructor
  · intro h
    by_contra hk
    have hinj := List.inj_on_of_nodup_map h (x := 0) (by simp; omega) (y := 2 ^ 32)
      (by simp; omega) (by simp)
    omega
  · intro hk
    refine (List.nodup_map_iff_inj_on List.nodup_range).mpr (fun i hi j hj heq => ?_)
    have hnat := congrArg BitVec.toNat ((BitVec.add_right_inj _).mp heq)
    simp only [BitVec.toNat_ofNat, List.mem_range] at hnat hi hj
    omega

/-- The counter of the synths starts 500 above that of the groups. -/
theorem disjoint_idsFrom_iff (s g : ℕ) (hs : 0 < s) (hg : 0 < g) :
    (idsFrom 1000#32 s).Disjoint (idsFrom 500#32 g) ↔ g ≤ 500 ∧ s ≤ 2 ^ 32 - 500 := by
  unfold idsFrom
  constructor
  · intro hdis
    constructor
    · by_contra hlt
      refine hdis (List.mem_map.mpr ⟨0, by simp; omega, rfl⟩)
        (List.mem_map.mpr ⟨500, by simp; omega, ?_⟩)
      decide
    · by_contra hlt
      refine hdis (List.mem_map.mpr ⟨2 ^ 32 - 500, by simp; omega, ?_⟩)
        (List.mem_map.mpr ⟨0, by simp; omega, rfl⟩)
      decide
  · rintro ⟨hg', hs'⟩ x hx hx'
    rcases List.mem_map.mp hx with ⟨i, hi, hxi⟩
    rcases List.mem_map.mp hx' with ⟨j, hj, hxj⟩
    rw [List.mem_range] at hi hj
    have hnat := congrArg BitVec.toNat (hxi.trans hxj.symm)
    simp only [BitVec.toNat_add, BitVec.toNat_ofNat] at hnat
    omega

/-- The IDs of a session are distinct if and only if no counter runs around and the counter
of the groups stays below that of the synths. -/
theorem nodup_issuedNodeIDs_iff (calls : List AKSCSynth.Call) :
    (issuedNodeIDs (run AKSCSynth.call AKSCSynth.init calls)).Nodup ↔
      (calls.countP AKSCSynth.Call.isSynth = 0 ∧ calls.countP AKSCSynth.Call.isGroup ≤ 2 ^ 32) ∨
      (calls.countP AKSCSynth.Call.isGroup = 0 ∧ calls.countP AKSCSynth.Call.isSynth ≤ 2 ^ 32) ∨
      (calls.countP AKSCSynth.Call.isGroup ≤ 500 ∧
        calls.countP AKSCSynth.Call.isSynth ≤ 2 ^ 32 - 500) := by
  generalize hs : calls.countP AKSCSynth.Call.isSynth = s
  generalize hg : calls.countP AKSCSynth.Call.isGroup = g
  have hperm := issuedNodeIDs_perm calls AKSCSynth.init
  rw [hs, hg] at hperm
  have hinit : issuedNodeIDs AKSCSynth.init = [] := rfl
  rw [hperm.nodup_iff, hinit, List.nil_append, List.nodup_append', nodup_idsFrom_iff,
    nodup_idsFrom_iff]
  by_cases hs0 : s = 0
  · subst hs0
    have hnil : idsFrom AKSCSynth.init.lastNodeID 0 = [] := rfl
    rw [hnil]
    simp only [List.disjoint_nil_left, and_true, true_and]
    omega
  · by_cases hg0 : g = 0
    · subst hg0
      have hnil : idsFrom AKSCSynth.init.lastGroupID 0 = [] := rfl
      rw [hnil]
      simp only [List.disjoint_nil_right, and_true, true_and]
      omega
    · have hdis := disjoint_idsFrom_iff s g (by omega) (by omega)
      change _ ∧ _ ∧ (idsFrom 1000#32 s).Disjoint (idsFrom 500#32 g) ↔ _
      rw [hdis]
      omega

/-- With 501 groups the ID `1001` is handed out twice, to the last group and to the first
synth. -/
theorem not_nodup_issuedNodeIDs :
    ¬ ∀ calls : List AKSCSynth.Call,
      (issuedNodeIDs (run AKSCSynth.call AKSCSynth.init calls)).Nodup := by
  intro h
  have hnd := h (.synthWithName (.ofString "Tanh") [] .addToHeadAction 0#32
    :: List.replicate 501 .group)
  rw [(issuedNodeIDs_perm _ _).nodup_iff] at hnd
  have hdis := (List.nodup_append'.mp (List.nodup_append'.mp hnd).2.1).2.2
  have hgroups : (AKSCSynth.Call.synthWithName (.ofString "Tanh") [] .addToHeadAction 0#32
      :: List.replicate 501 AKSCSynth.Call.group).countP AKSCSynth.Call.isGroup = 501 := by
    rw [List.countP_cons_of_neg (by decide), List.countP_replicate]
    rfl
  have hsynths : (AKSCSynth.Call.synthWithName (.ofString "Tanh") [] .addToHeadAction 0#32
      :: List.replicate 501 AKSCSynth.Call.group).countP AKSCSynth.Call.isSynth = 1 := by
    rw [List.countP_cons_of_pos rfl, List.countP_replicate]
    rfl
  rw [hgroups, hsynths] at hdis
  have hle := ((disjoint_idsFrom_iff 1 501 (by omega) (by omega)).mp hdis).1
  omega

/-! ## The buses of a session -/

/-- The buses that a session hands out, in order. -/
def issuedBuses : AKSCSynth → List AKSCSynth.Call → List Word
  | _, [] => []
  | synth, c :: calls => (synth.busOf c).toList ++ issuedBuses (synth.call c) calls

/-- The audio channels of a stereo bus. -/
def channels (bus : Word) : List ℤ := [bus.toInt, bus.toInt + 1]

/-- Stereo buses that share no channel, use no hardware channel, and lie in the bus array. -/
structure BusesApart (options : WorldOptions) (buses : List Word) : Prop where
  disjoint : buses.Pairwise fun b b' => (channels b).Disjoint (channels b')
  hardware : ∀ b ∈ buses, ∀ c ∈ channels b,
    ((options.mNumOutputBusChannels + options.mNumInputBusChannels : ℕ) : ℤ) ≤ c
  inside : ∀ b ∈ buses, ∀ c ∈ channels b, 0 ≤ c ∧ c < options.mNumAudioBusChannels

/-- The n-th bus is two channels above the one before, whatever is called in between. -/
theorem issuedBuses_eq (calls : List AKSCSynth.Call) (synth : AKSCSynth) :
    issuedBuses synth calls
      = (List.range (calls.countP AKSCSynth.Call.isBus)).map
        fun i => synth.lastBusID + 2#32 + 2#32 * BitVec.ofNat 32 i := by
  induction calls generalizing synth with
  | nil => rfl
  | cons c calls ih =>
    rw [issuedBuses, ih]
    cases c with
    | synthWithName name arguments addAction target =>
      rw [List.countP_cons_of_neg (by simp [AKSCSynth.Call.isBus])]
      rfl
    | group =>
      rw [List.countP_cons_of_neg (by decide)]
      rfl
    | freeAllInGroup groupID =>
      rw [List.countP_cons_of_neg (by simp [AKSCSynth.Call.isBus])]
      rfl
    | bus =>
      have hshift : ∀ i, synth.lastBusID + 2#32 + 2#32 * BitVec.ofNat 32 (i + 1)
          = synth.lastBusID + 2#32 + 2#32 + 2#32 * BitVec.ofNat 32 i := by
        intro i
        rw [BitVec.ofNat_add, BitVec.mul_add]
        ac_rfl
      rw [List.countP_cons_of_pos rfl, List.range_succ_eq_map, List.map_cons, List.map_map]
      change (synth.lastBusID + 2#32) :: _ = _
      congr 1
      · simp
      · exact List.map_congr_left fun i _ => (hshift i).symm

/-- The buses of a session are apart if and only if it asks for at most 55. -/
theorem busesApart_iff (calls : List AKSCSynth.Call) :
    BusesApart AKSCSynth.init.options (issuedBuses AKSCSynth.init calls) ↔
      calls.countP AKSCSynth.Call.isBus ≤ 55 := by
  rw [issuedBuses_eq]
  generalize calls.countP AKSCSynth.Call.isBus = n
  have hnat : ∀ i, i < 2 ^ 29 →
      (AKSCSynth.init.lastBusID + 2#32 + 2#32 * BitVec.ofNat 32 i).toInt = 18 + 2 * i := by
    intro i hi
    have hinit : AKSCSynth.init.lastBusID = 16#32 := rfl
    rw [hinit, BitVec.toInt_eq_toNat_of_lt]
    · simp only [BitVec.toNat_add, BitVec.toNat_mul, BitVec.toNat_ofNat]
      omega
    · simp only [BitVec.toNat_add, BitVec.toNat_mul, BitVec.toNat_ofNat]
      omega
  constructor
  · intro h
    by_contra hn
    -- the 56th bus starts behind the last channel
    have hinside := (h.inside _ (List.mem_map.mpr ⟨55, by simp; omega, rfl⟩) _
      List.mem_cons_self).2
    rw [hnat 55 (by omega)] at hinside
    exact absurd hinside (by decide)
  · intro hn
    refine ⟨?_, ?_, ?_⟩
    · rw [List.pairwise_map]
      refine List.Pairwise.imp_of_mem (fun {i j} hi hj hij => ?_) List.pairwise_lt_range
      rw [List.mem_range] at hi hj
      intro c hc hc'
      simp only [channels, hnat i (by omega), hnat j (by omega), List.mem_cons,
        List.not_mem_nil, or_false] at hc hc'
      omega
    · intro b hb c hc
      rcases List.mem_map.mp hb with ⟨i, hi, rfl⟩
      rw [List.mem_range] at hi
      simp only [channels, hnat i (by omega), List.mem_cons, List.not_mem_nil, or_false] at hc
      change (16 : ℤ) ≤ c
      omega
    · intro b hb c hc
      rcases List.mem_map.mp hb with ⟨i, hi, rfl⟩
      rw [List.mem_range] at hi
      simp only [channels, hnat i (by omega), List.mem_cons, List.not_mem_nil, or_false] at hc
      change 0 ≤ c ∧ c < (128 : ℤ)
      omega

/-- The 56th bus is channel 128, behind the last channel of the server. -/
theorem not_busesApart :
    ¬ ∀ n : ℕ, BusesApart AKSCSynth.init.options
      (issuedBuses AKSCSynth.init (List.replicate n .bus)) := by
  intro h
  have hapart := h 56
  have hmem : 128#32 ∈ issuedBuses AKSCSynth.init (List.replicate 56 .bus) := by
    rw [issuedBuses_eq, List.countP_replicate]
    decide
  have hinside := (hapart.inside _ hmem _ List.mem_cons_self).2
  exact absurd hinside (by decide)

end PoopWorms.Client
