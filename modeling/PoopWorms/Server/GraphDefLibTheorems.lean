import PoopWorms.Server.GraphDefLib
import Mathlib.Data.List.Perm.Subperm
import Mathlib.Data.List.Perm.Lattice

/-!
# When a synth definition is freed

The reference count of a definition counts the table and the synths that use the definition
itself. The synths that use one of its variants count for the variant alone, so that a
definition can be freed under them.
-/

namespace PoopWorms.Server

open MsgFifo

namespace GraphDefLib

section Lifetime

variable {Name : Type} {k : ℕ}

/-! ## The property -/

/-- The messages that are still to be performed. -/
def pending (w : GraphDefLib Name k) : List DefPtr := waiting w.deleting w.mDeleteGraphDefs.unread

/-- Freed, or queued for freeing. -/
def Gone (w : GraphDefLib Name k) (u : ℕ) : Prop := u ∈ w.freed ∨ .original u ∈ w.pending

/-- The table or a living synth refers to the definition or to one of its variants. -/
def Referred (w : GraphDefLib Name k) (u : ℕ) : Prop :=
  (∃ p ∈ w.mGraphDefLib, p.mOriginal = u) ∨ ∃ p ∈ w.synths, p.mOriginal = u

structure Lifetime (w : GraphDefLib Name k) : Prop where
  notFreed : ∀ u, w.Referred u → u ∉ w.freed
  once : ∀ u, w.freed.count u ≤ 1
  released : ∀ u < w.numRead, u ∉ w.mDefs → ¬ w.Referred u → w.Gone u

/-! ## The invariant -/

/-- `held` are the definitions to which the running command refers. -/
structure Sound (w : GraphDefLib Name k) (held : List ℕ) : Prop where
  tidy : w.mDeleteGraphDefs.Tidy
  busy : w.deleting = true → w.mDeleteGraphDefs.unread ≠ []
  named : (w.mGraphDefLib.map w.nameOf).Nodup
  valid : ∀ u i, .variant u i ∈ w.mGraphDefLib →
    i < (w.names u).mVariants.length ∧ .original u ∈ w.mGraphDefLib
  knownLib : ∀ p ∈ w.mGraphDefLib, p.mOriginal < w.numRead
  knownSynths : ∀ p ∈ w.synths, p.mOriginal < w.numRead
  knownHeld : ∀ u ∈ held, u < w.numRead
  knownGone : ∀ u, w.Gone u → u < w.numRead
  counts : ∀ u < w.numRead, ¬ w.Gone u → 0 < w.mRefCount (.original u) ∧
    w.mRefCount (.original u) =
      w.mGraphDefLib.count (.original u) + w.synths.count (.original u) + held.count u
  gone : ∀ u, w.Gone u → ¬ w.Referred u ∧ u ∉ held
  once : ∀ u, w.freed.count u + w.pending.count (.original u) ≤ 1
  ordered : w.mRealTime = true →
    (w.pending.Pairwise fun p q => ∀ u i, q = .variant u i → p ≠ .original u) ∧
    ∀ u i, .variant u i ∈ w.pending → u ∉ w.freed

variable {w w' : GraphDefLib Name k} {held : List ℕ} {u i : ℕ} {p : DefPtr}

theorem Sound.lifetime (h : w.Sound w.mDefs) : w.Lifetime where
  notFreed u href hfreed := (h.gone u (.inl hfreed)).1 href
  once u := le_trans (Nat.le_add_right _ _) (h.once u)
  released u hu hdefs href := by
    by_contra hgone
    obtain ⟨hpos, hcount⟩ := h.counts u hu hgone
    have hlib : w.mGraphDefLib.count (.original u) = 0 :=
      List.count_eq_zero.mpr fun hmem => href (.inl ⟨_, hmem, rfl⟩)
    have hsynths : w.synths.count (.original u) = 0 :=
      List.count_eq_zero.mpr fun hmem => href (.inr ⟨_, hmem, rfl⟩)
    have hheld : w.mDefs.count u = 0 := List.count_eq_zero.mpr hdefs
    omega

theorem sound_new (mRealTime : Bool) (mMaxGraphDefs : ℕ) (names : ℕ → DefNames Name) :
    (new mRealTime mMaxGraphDefs names : GraphDefLib Name k).Sound [] := by
  have hfifo := MsgFifoNoFree.tidy_new (k := k) fun _ => DefPtr.original 0
  have hpending : (new mRealTime mMaxGraphDefs names : GraphDefLib Name k).pending = [] :=
    congrArg (List.drop 0) hfifo.2
  have hgone : ∀ u, ¬ (new mRealTime mMaxGraphDefs names : GraphDefLib Name k).Gone u := by
    intro u hu
    rw [Gone, hpending] at hu
    simp [new] at hu
  refine ⟨hfifo.1, nofun, .nil, nofun, nofun, nofun, nofun, fun u hu => absurd hu (hgone u),
    nofun, fun u hu => absurd hu (hgone u), ?_, ?_⟩
  · intro u
    rw [hpending]
    exact Nat.zero_le 1
  · intro _
    rw [hpending]
    exact ⟨.nil, nofun⟩

/-! ## One reference is given up -/

theorem deleteMsg_spec (htidy : w.mDeleteGraphDefs.Tidy)
    (hbusy : w.deleting = true → w.mDeleteGraphDefs.unread ≠ []) (p : DefPtr) :
    ∃ fifo more, w.deleteMsg p = { w with mDeleteGraphDefs := fifo } ∧ fifo.Tidy ∧
      (w.deleting = true → fifo.unread ≠ []) ∧
      waiting w.deleting fifo.unread = w.pending ++ more ∧ more.Sublist [p] ∧
      (w.mDeleteGraphDefs.HasRoom → more = [p]) := by
  unfold deleteMsg
  cases hwrite : w.mDeleteGraphDefs.write p with
  | some fifo =>
    obtain ⟨htidy', hunread⟩ := htidy.write hwrite
    refine ⟨fifo, [p], rfl, htidy', ?_, ?_, List.Sublist.refl _, fun _ => rfl⟩
    · intro _
      simp [hunread]
    · rw [hunread, waiting_append hbusy]
      rfl
  | none =>
    refine ⟨w.mDeleteGraphDefs, [], rfl, htidy, hbusy, (List.append_nil _).symm, by simp, ?_⟩
    intro hroom
    obtain ⟨fifo, hsome⟩ := MsgFifoNoFree.write_of_hasRoom hroom p
    rw [hsome] at hwrite
    cases hwrite

/-- A change of the queue that leaves what is gone. -/
theorem Sound.requeue (h : w.Sound held) {fifo : MsgFifoNoFree DefPtr (2 ^ k)} {deleting : Bool}
    {freed : List ℕ} (htidy : fifo.Tidy) (hbusy : deleting = true → fifo.unread ≠ [])
    (hgone : ∀ v, Gone { w with
      mDeleteGraphDefs := fifo, deleting := deleting, freed := freed } v ↔ w.Gone v)
    (honce : ∀ v, freed.count v + (waiting deleting fifo.unread).count (.original v) ≤ 1)
    (hordered : w.mRealTime = true →
      ((waiting deleting fifo.unread).Pairwise
        fun p q => ∀ u i, q = .variant u i → p ≠ .original u) ∧
      ∀ u i, .variant u i ∈ waiting deleting fifo.unread → u ∉ freed) :
    Sound { w with mDeleteGraphDefs := fifo, deleting := deleting, freed := freed } held :=
  { h with
    tidy := htidy
    busy := hbusy
    knownGone := fun v hv => h.knownGone v ((hgone v).mp hv)
    counts := fun v hv hnot => h.counts v hv fun hg => hnot ((hgone v).mpr hg)
    gone := fun v hv => h.gone v ((hgone v).mp hv)
    once := honce
    ordered := hordered }

/-- A message for a variant does nothing in the end, whether it is queued or not. -/
theorem Sound.deleteVariant (h : w.Sound held) (hu : ¬ w.Gone u) (i : ℕ) :
    (w.deleteMsg (.variant u i)).Sound held := by
  obtain ⟨fifo, more, hdelete, htidy, hbusy, hpending, hmore, -⟩ :=
    deleteMsg_spec h.tidy h.busy (.variant u i)
  have hgone : ∀ v, Gone { w with mDeleteGraphDefs := fifo } v ↔ w.Gone v := by
    intro v
    show v ∈ w.freed ∨ .original v ∈ waiting w.deleting fifo.unread ↔ _
    rw [hpending, List.mem_append]
    have hnot : .original v ∉ more := fun hmem => by simpa using hmore.subset hmem
    simp [Gone, hnot]
  rw [hdelete]
  apply h.requeue htidy hbusy hgone
  · intro v
    rw [hpending, List.count_append]
    have hzero : more.count (.original v) = 0 :=
      List.count_eq_zero.mpr fun hmem => by simpa using hmore.subset hmem
    have hle := h.once v
    omega
  · intro hreal
    obtain ⟨hpairwise, hfreed⟩ := h.ordered hreal
    rw [hpending]
    constructor
    · rw [List.pairwise_append]
      refine ⟨hpairwise, (List.pairwise_singleton _ _).sublist hmore, ?_⟩
      intro q hq r hr v j hrv hqv
      have hr' := List.mem_singleton.mp (hmore.subset hr)
      rw [hrv] at hr'
      cases hr'
      exact hu (.inr (hqv ▸ hq))
    · intro v j hmem
      rcases List.mem_append.mp hmem with hmem | hmem
      · exact hfreed v j hmem
      · have hv := List.mem_singleton.mp (hmore.subset hmem)
        cases hv
        exact fun hin => hu (.inl hin)

/-- The running command gives up the last reference to a definition. -/
theorem Sound.retire (h : w.Sound (u :: held)) (hlast : w.mRefCount (.original u) = 1)
    (hsynths : ∀ p ∈ w.synths, p.mOriginal ≠ u) {fifo : MsgFifoNoFree DefPtr (2 ^ k)}
    {more : List DefPtr} {freed : List ℕ} (htidy : fifo.Tidy)
    (hbusy : w.deleting = true → fifo.unread ≠ [])
    (hpending : waiting w.deleting fifo.unread = w.pending ++ more)
    (hone : more = [.original u] ∧ freed = [] ∨
      w.mRealTime = false ∧ more = [] ∧ freed = [u]) :
    Sound { w.decRef (.original u) with
      mDeleteGraphDefs := fifo
      freed := w.freed ++ freed } held := by
  have hlive : ¬ w.Gone u := fun hg => (h.gone u hg).2 List.mem_cons_self
  have hknown := h.knownHeld u List.mem_cons_self
  obtain ⟨-, hcount⟩ := h.counts u hknown hlive
  rw [List.count_cons_self, hlast] at hcount
  have hlib : .original u ∉ w.mGraphDefLib := by
    rw [← List.count_eq_zero]
    omega
  have hheld : u ∉ held := by
    rw [← List.count_eq_zero]
    omega
  have hgone : ∀ v, Gone { w.decRef (.original u) with
      mDeleteGraphDefs := fifo, freed := w.freed ++ freed } v ↔ w.Gone v ∨ v = u := by
    intro v
    show v ∈ w.freed ++ freed ∨ .original v ∈ waiting w.deleting fifo.unread ↔ _
    rw [hpending]
    rcases hone with ⟨rfl, rfl⟩ | ⟨-, rfl, rfl⟩
    · simp [Gone, or_assoc]
    · simp [Gone, or_right_comm]
  refine ⟨htidy, hbusy, h.named, h.valid, h.knownLib, h.knownSynths,
    fun v hv => h.knownHeld v (List.mem_cons_of_mem u hv), ?_, ?_, ?_, ?_, ?_⟩
  · intro v hv
    rcases (hgone v).mp hv with hv | rfl
    · exact h.knownGone v hv
    · exact hknown
  · intro v hv hnot
    have hne : v ≠ u := fun heq => hnot ((hgone v).mpr (.inr heq))
    have hcounts := h.counts v hv fun hg => hnot ((hgone v).mpr (.inl hg))
    rw [List.count_cons_of_ne hne.symm] at hcounts
    show 0 < Function.update w.mRefCount _ _ (.original v) ∧
      Function.update w.mRefCount _ _ (.original v) = _
    rw [Function.update_of_ne (by simpa using hne)]
    exact hcounts
  · intro v hv
    rcases (hgone v).mp hv with hv | rfl
    · exact ⟨(h.gone v hv).1, fun hmem => (h.gone v hv).2 (List.mem_cons_of_mem u hmem)⟩
    · refine ⟨?_, hheld⟩
      rintro (⟨p, hp, hpu⟩ | ⟨p, hp, hpu⟩)
      · cases p with
        | original v =>
          cases hpu
          exact hlib hp
        | variant v i =>
          cases hpu
          exact hlib (h.valid _ i hp).2
      · exact hsynths p hp hpu
  · intro v
    have hle := h.once v
    show (w.freed ++ freed).count v + (waiting w.deleting fifo.unread).count (.original v) ≤ 1
    rw [hpending, List.count_append, List.count_append]
    by_cases hv : v = u
    · subst hv
      have hfreed : w.freed.count v = 0 :=
        List.count_eq_zero.mpr fun hmem => hlive (.inl hmem)
      have hqueued : w.pending.count (.original v) = 0 :=
        List.count_eq_zero.mpr fun hmem => hlive (.inr hmem)
      rcases hone with ⟨rfl, rfl⟩ | ⟨-, rfl, rfl⟩
      · simp [hfreed, hqueued]
      · simp [hfreed, hqueued]
    · rcases hone with ⟨rfl, rfl⟩ | ⟨-, rfl, rfl⟩
      · rw [List.count_nil, List.count_singleton, if_neg (by simpa using Ne.symm hv)]
        omega
      · rw [List.count_nil, List.count_singleton, if_neg (by simpa using Ne.symm hv)]
        omega
  · intro hreal
    obtain ⟨hpairwise, hfreed⟩ := h.ordered hreal
    rcases hone with ⟨rfl, rfl⟩ | ⟨hreal', -, -⟩
    · show (waiting w.deleting fifo.unread).Pairwise _ ∧
        ∀ v j, .variant v j ∈ waiting w.deleting fifo.unread → v ∉ w.freed ++ []
      rw [hpending, List.append_nil]
      constructor
      · rw [List.pairwise_append]
        refine ⟨hpairwise, List.pairwise_singleton _ _, ?_⟩
        intro q _ r hr v j hrv
        rw [List.mem_singleton.mp hr] at hrv
        cases hrv
      · intro v j hmem
        rcases List.mem_append.mp hmem with hmem | hmem
        · exact hfreed v j hmem
        · cases List.mem_singleton.mp hmem
    · have hreal'' : w.mRealTime = true := hreal
      rw [hreal'] at hreal''
      cases hreal''

theorem Sound.retireQueued (h : w.Sound (u :: held)) (hlast : w.mRefCount (.original u) = 1)
    (hsynths : ∀ p ∈ w.synths, p.mOriginal ≠ u) (hroom : w.mDeleteGraphDefs.HasRoom) :
    ((w.decRef (.original u)).deleteMsg (.original u)).Sound held := by
  obtain ⟨fifo, more, hdelete, htidy, hbusy, hpending, -, hmore⟩ :=
    deleteMsg_spec (w := w.decRef (.original u)) h.tidy h.busy (.original u)
  have hsound := h.retire hlast hsynths htidy hbusy hpending (.inl ⟨hmore hroom, rfl⟩)
  rw [List.append_nil] at hsound
  rw [hdelete]
  exact hsound

theorem Sound.retireFreed (h : w.Sound (u :: held)) (hlast : w.mRefCount (.original u) = 1)
    (hsynths : ∀ p ∈ w.synths, p.mOriginal ≠ u) (hreal : w.mRealTime = false) :
    Sound { w.decRef (.original u) with freed := w.freed ++ [u] } held :=
  h.retire hlast hsynths h.tidy h.busy (List.append_nil _).symm (.inr ⟨hreal, rfl, rfl⟩)

/-- The running command gives up a reference that is not the last one. -/
theorem Sound.decRef (h : w.Sound (u :: held)) (hmore : w.mRefCount (.original u) ≠ 1) :
    (w.decRef (.original u)).Sound held := by
  have hlive : ¬ w.Gone u := fun hg => (h.gone u hg).2 List.mem_cons_self
  refine { h with knownHeld := ?_, counts := ?_, gone := ?_ }
  · exact fun v hv => h.knownHeld v (List.mem_cons_of_mem u hv)
  · intro v hv hnot
    obtain ⟨hpos, hcount⟩ := h.counts v hv hnot
    show 0 < Function.update w.mRefCount _ _ (.original v) ∧
      Function.update w.mRefCount _ _ (.original v) = _
    by_cases heq : v = u
    · subst heq
      rw [Function.update_self]
      rw [List.count_cons_self] at hcount
      show 0 < w.mRefCount (.original v) - 1 ∧ w.mRefCount (.original v) - 1 =
        w.mGraphDefLib.count (.original v) + w.synths.count (.original v) + held.count v
      constructor
      · omega
      · omega
    · rw [Function.update_of_ne (by simpa using heq)]
      rw [List.count_cons_of_ne (Ne.symm heq)] at hcount
      exact ⟨hpos, hcount⟩
  · exact fun v hv => ⟨(h.gone v hv).1, fun hmem => (h.gone v hv).2 (List.mem_cons_of_mem u hmem)⟩

theorem decRef_eq_zero : (w.decRef p).mRefCount p = 0 ↔ w.mRefCount p = 1 := by
  show Function.update w.mRefCount p (w.mRefCount p - 1) p = 0 ↔ _
  rw [Function.update_self]
  omega

/-- The reference count of a variant decides nothing. -/
theorem Sound.decVariant (h : w.Sound held) (u i : ℕ) :
    (w.decRef (.variant u i)).Sound held := by
  refine { h with counts := ?_ }
  intro v hv hnot
  have hcount : (w.decRef (.variant u i)).mRefCount (.original v) = w.mRefCount (.original v) := by
    simp [GraphDefLib.decRef]
  rw [hcount]
  exact h.counts v hv hnot

/-! ## The table -/

theorem mem_diff_erase {lib drops : List DefPtr} (hnodup : lib.Nodup) {p q : DefPtr} :
    q ∈ (lib.diff drops).erase p ↔ q ∈ lib ∧ q ∉ drops ∧ q ≠ p := by
  rw [(hnodup.diff).mem_erase_iff, hnodup.mem_sdiff_iff]
  tauto

theorem Sound.nodup (h : w.Sound held) : w.mGraphDefLib.Nodup := h.named.of_map

theorem removeGraphDef_sublist (w : GraphDefLib Name k) (p : DefPtr) :
    (w.removeGraphDef p).mGraphDefLib.Sublist w.mGraphDefLib :=
  List.erase_sublist.trans (List.diff_sublist _ _)

/-- The table gives its reference to the running command. -/
theorem Sound.removeOriginal (h : w.Sound held) (hu : .original u ∈ w.mGraphDefLib) :
    (w.removeGraphDef (.original u)).Sound (u :: held) := by
  have hsub := removeGraphDef_sublist w (.original u)
  have hmem : ∀ q, q ∈ (w.removeGraphDef (.original u)).mGraphDefLib ↔
      q ∈ w.mGraphDefLib ∧ q ∉ w.variantsOf (.original u) ∧ q ≠ .original u :=
    fun q => mem_diff_erase h.nodup
  have hlive : ¬ w.Gone u := fun hg => (h.gone u hg).1 (.inl ⟨_, hu, rfl⟩)
  have hreferred : ∀ v, (w.removeGraphDef (.original u)).Referred v → w.Referred v := by
    rintro v (⟨p, hp, hpv⟩ | hsynths)
    · exact .inl ⟨p, hsub.subset hp, hpv⟩
    · exact .inr hsynths
  refine { h with named := ?_, valid := ?_, knownLib := ?_, knownHeld := ?_, counts := ?_, gone := ?_ }
  · exact h.named.sublist (hsub.map _)
  · intro v i hv
    obtain ⟨hlib, hnot, -⟩ := (hmem _).mp hv
    obtain ⟨hi, horiginal⟩ := h.valid v i hlib
    refine ⟨hi, (hmem _).mpr ⟨horiginal, ?_, ?_⟩⟩
    · simp [variantsOf]
    · intro heq
      cases heq
      apply hnot
      simpa [variantsOf] using hi
  · exact fun p hp => h.knownLib p (hsub.subset hp)
  · intro v hv
    rcases List.mem_cons.mp hv with rfl | hv
    · exact h.knownLib _ hu
    · exact h.knownHeld v hv
  · intro v hv hnot
    obtain ⟨hpos, hcount⟩ := h.counts v hv hnot
    refine ⟨hpos, hcount.trans ?_⟩
    have hnodup' := h.nodup.sublist hsub
    show _ = ((w.removeGraphDef (.original u)).mGraphDefLib.count (.original v) : ℤ) +
      w.synths.count (.original v) + (u :: held).count v
    by_cases heq : v = u
    · subst heq
      have hout : .original v ∉ (w.removeGraphDef (.original v)).mGraphDefLib := by simp [hmem]
      rw [List.count_eq_zero.mpr hout, List.count_eq_one_of_mem h.nodup hu, List.count_cons_self]
      push_cast
      omega
    · have hiff : .original v ∈ (w.removeGraphDef (.original u)).mGraphDefLib ↔
          .original v ∈ w.mGraphDefLib := by simp [hmem, variantsOf, heq]
      rw [List.count_cons_of_ne (Ne.symm heq), hnodup'.count, h.nodup.count]
      simp only [hiff]
  · intro v hv
    refine ⟨fun href => (h.gone v hv).1 (hreferred v href), ?_⟩
    intro hmem'
    rcases List.mem_cons.mp hmem' with rfl | hmem'
    · exact hlive hv
    · exact (h.gone v hv).2 hmem'

theorem Sound.removeVariant (h : w.Sound held) (u i : ℕ) :
    (w.removeGraphDef (.variant u i)).Sound held := by
  have hsub := removeGraphDef_sublist w (.variant u i)
  have hmem : ∀ q, q ∈ (w.removeGraphDef (.variant u i)).mGraphDefLib ↔
      q ∈ w.mGraphDefLib ∧ q ∉ w.variantsOf (.variant u i) ∧ q ≠ .variant u i :=
    fun q => mem_diff_erase h.nodup
  have hreferred : ∀ v, (w.removeGraphDef (.variant u i)).Referred v → w.Referred v := by
    rintro v (⟨p, hp, hpv⟩ | hsynths)
    · exact .inl ⟨p, hsub.subset hp, hpv⟩
    · exact .inr hsynths
  refine { h with named := ?_, valid := ?_, knownLib := ?_, counts := ?_, gone := ?_ }
  · exact h.named.sublist (hsub.map _)
  · intro v j hv
    obtain ⟨hj, horiginal⟩ := h.valid v j ((hmem _).mp hv).1
    exact ⟨hj, (hmem _).mpr ⟨horiginal, by simp [variantsOf], by simp⟩⟩
  · exact fun p hp => h.knownLib p (hsub.subset hp)
  · intro v hv hnot
    obtain ⟨hpos, hcount⟩ := h.counts v hv hnot
    refine ⟨hpos, hcount.trans ?_⟩
    have hiff : .original v ∈ (w.removeGraphDef (.variant u i)).mGraphDefLib ↔
        .original v ∈ w.mGraphDefLib := by simp [hmem, variantsOf]
    rw [(h.nodup.sublist hsub).count, h.nodup.count]
    simp only [hiff]
    rfl
  · exact fun v hv => ⟨fun href => (h.gone v hv).1 (hreferred v href), (h.gone v hv).2⟩

theorem Sound.perm {held' : List ℕ} (h : w.Sound held) (hperm : held.Perm held') :
    w.Sound held' := by
  refine { h with knownHeld := ?_, counts := ?_, gone := ?_ }
  · exact fun v hv => h.knownHeld v (hperm.mem_iff.mpr hv)
  · intro v hv hnot
    rw [← hperm.count_eq]
    exact h.counts v hv hnot
  · exact fun v hv => ⟨(h.gone v hv).1, fun hmem => (h.gone v hv).2 (hperm.mem_iff.mpr hmem)⟩

/-! ## The synths -/

theorem referred_of_erase {p : DefPtr}
    (h : Referred { w with synths := w.synths.erase p } u) : w.Referred u := by
  rcases h with hlib | ⟨q, hq, hqu⟩
  · exact .inl hlib
  · exact .inr ⟨q, List.mem_of_mem_erase hq, hqu⟩

/-- A synth that ends gives its reference to the running command. -/
theorem Sound.eraseOriginal (h : w.Sound held) (hu : .original u ∈ w.synths) :
    Sound { w with synths := w.synths.erase (.original u) } (u :: held) := by
  have hlive : ¬ w.Gone u := fun hg => (h.gone u hg).1 (.inr ⟨_, hu, rfl⟩)
  refine { h with knownSynths := ?_, knownHeld := ?_, counts := ?_, gone := ?_ }
  · exact fun p hp => h.knownSynths p (List.mem_of_mem_erase hp)
  · intro v hv
    rcases List.mem_cons.mp hv with rfl | hv
    · exact h.knownSynths _ hu
    · exact h.knownHeld v hv
  · intro v hv hnot
    obtain ⟨hpos, hcount⟩ := h.counts v hv hnot
    refine ⟨hpos, hcount.trans ?_⟩
    show _ = (w.mGraphDefLib.count (.original v) : ℤ) +
      (w.synths.erase (.original u)).count (.original v) + (u :: held).count v
    by_cases heq : v = u
    · subst heq
      have hone : 0 < w.synths.count (.original v) := List.count_pos_iff.mpr hu
      rw [List.count_erase_self, List.count_cons_self]
      omega
    · rw [List.count_erase_of_ne (by simpa using heq), List.count_cons_of_ne (Ne.symm heq)]
  · intro v hv
    refine ⟨fun href => (h.gone v hv).1 (referred_of_erase href), ?_⟩
    intro hmem
    rcases List.mem_cons.mp hmem with rfl | hmem
    · exact hlive hv
    · exact (h.gone v hv).2 hmem

theorem Sound.eraseVariant (h : w.Sound held) (u i : ℕ) :
    Sound { w with synths := w.synths.erase (.variant u i) } held := by
  refine { h with knownSynths := ?_, counts := ?_, gone := ?_ }
  · exact fun p hp => h.knownSynths p (List.mem_of_mem_erase hp)
  · intro v hv hnot
    obtain ⟨hpos, hcount⟩ := h.counts v hv hnot
    refine ⟨hpos, hcount.trans ?_⟩
    show _ = (w.mGraphDefLib.count (.original v) : ℤ) +
      (w.synths.erase (.variant u i)).count (.original v) + held.count v
    rw [List.count_erase_of_ne (by simp)]
  · exact fun v hv => ⟨fun href => (h.gone v hv).1 (referred_of_erase href), (h.gone v hv).2⟩

theorem Sound.graphNew (h : w.Sound held) (hp : p ∈ w.mGraphDefLib) :
    (w.graphNew p).Sound held := by
  refine { h with knownSynths := ?_, counts := ?_, gone := ?_ }
  · intro q hq
    rcases List.mem_cons.mp hq with rfl | hq
    · exact h.knownLib _ hp
    · exact h.knownSynths q hq
  · intro v hv hnot
    obtain ⟨hpos, hcount⟩ := h.counts v hv hnot
    show 0 < Function.update w.mRefCount p (w.mRefCount p + 1) (.original v) ∧
      Function.update w.mRefCount p (w.mRefCount p + 1) (.original v) =
        w.mGraphDefLib.count (.original v) + (p :: w.synths).count (.original v) + held.count v
    by_cases heq : p = .original v
    · rw [heq, Function.update_self, List.count_cons_self]
      push_cast
      omega
    · rw [Function.update_of_ne (Ne.symm heq), List.count_cons_of_ne heq]
      exact ⟨hpos, hcount⟩
  · intro v hv
    refine ⟨?_, (h.gone v hv).2⟩
    rintro (hlib | ⟨q, hq, hqv⟩)
    · exact (h.gone v hv).1 (.inl hlib)
    · rcases List.mem_cons.mp hq with rfl | hq
      · exact (h.gone v hv).1 (.inl ⟨_, hp, hqv⟩)
      · exact (h.gone v hv).1 (.inr ⟨q, hq, hqv⟩)

/-! ## The thread that frees -/

/-- The message that is performed is no longer pending. -/
theorem Sound.performDelete (h : w.Sound held) (hidle : w.deleting = false)
    (hreal : w.mRealTime = true) (hp : w.mDeleteGraphDefs.next = some p) :
    ∃ w', graphDefFree { w with deleting := true } p = some w' ∧ w'.Sound held ∧
      w'.mDefs = w.mDefs ∧ ∀ u, w'.Referred u ↔ w.Referred u := by
  rw [h.tidy.next_eq] at hp
  obtain ⟨rest, hunread⟩ : ∃ rest, w.mDeleteGraphDefs.unread = p :: rest :=
    ⟨_, (List.eq_cons_of_mem_head? hp)⟩
  have hpending : w.pending = p :: rest := by rw [pending, hidle, hunread]; rfl
  have hrest : waiting true w.mDeleteGraphDefs.unread = rest := by rw [hunread]; rfl
  obtain ⟨hpairwise, hfreed⟩ := h.ordered hreal
  rw [hpending, List.pairwise_cons] at hpairwise
  cases p with
  | original u =>
    have honce := h.once u
    rw [hpending, List.count_cons_self] at honce
    have hnot : u ∉ w.freed := by
      rw [← List.count_eq_zero]
      omega
    refine ⟨{ w with deleting := true, freed := w.freed ++ [u] }, ?_, ?_, rfl, fun _ => .rfl⟩
    · simp [graphDefFree, isFreed, DefPtr.mOriginal, hnot]
    · have hgone : ∀ v, Gone { w with deleting := true, freed := w.freed ++ [u] } v ↔ w.Gone v := by
        intro v
        show v ∈ w.freed ++ [u] ∨ .original v ∈ waiting true w.mDeleteGraphDefs.unread ↔ _
        rw [hrest, Gone, hpending]
        simp [or_assoc]
      apply h.requeue h.tidy (fun _ => by simp [hunread]) hgone
      · intro v
        have hle := h.once v
        rw [hpending] at hle
        rw [hrest, List.count_append]
        by_cases hv : v = u
        · subst hv
          rw [List.count_cons_self] at hle
          rw [List.count_singleton_self]
          omega
        · rw [List.count_cons_of_ne (by simpa using Ne.symm hv)] at hle
          rw [List.count_singleton, if_neg (by simpa using Ne.symm hv)]
          omega
      · intro _
        rw [hrest]
        refine ⟨hpairwise.2, ?_⟩
        intro v i hv hmem
        rcases List.mem_append.mp hmem with hmem | hmem
        · exact hfreed v i (hpending ▸ List.mem_cons_of_mem _ hv) hmem
        · rw [List.mem_singleton] at hmem
          exact hpairwise.1 _ hv v i rfl (by rw [hmem])
  | variant u i =>
    have hnot : u ∉ w.freed := hfreed u i (hpending ▸ List.mem_cons_self)
    refine ⟨{ w with deleting := true }, ?_, ?_, rfl, fun _ => .rfl⟩
    · simp [graphDefFree, isFreed, DefPtr.mOriginal, hnot]
    · have hgone : ∀ v, Gone { w with deleting := true } v ↔ w.Gone v := by
        intro v
        show v ∈ w.freed ∨ .original v ∈ waiting true w.mDeleteGraphDefs.unread ↔ _
        rw [hrest, Gone, hpending]
        simp
      apply h.requeue h.tidy (fun _ => by simp [hunread]) hgone
      · intro v
        have hle := h.once v
        rw [hpending, List.count_cons_of_ne (by simp)] at hle
        rw [hrest]
        exact hle
      · intro _
        rw [hrest]
        exact ⟨hpairwise.2, fun v j hv => hfreed v j (hpending ▸ List.mem_cons_of_mem _ hv)⟩

theorem Sound.advanceDelete (h : w.Sound held) (hbusy : w.deleting = true) :
    Sound { w with
      mDeleteGraphDefs := w.mDeleteGraphDefs.advance
      deleting := false } held := by
  obtain ⟨m, rest, hunread⟩ := List.exists_cons_of_ne_nil (h.busy hbusy)
  obtain ⟨htidy, hadvance⟩ := h.tidy.advance hunread
  have hpending : w.pending = rest := by rw [pending, hbusy, hunread]; rfl
  have hpending' : pending { w with
      mDeleteGraphDefs := w.mDeleteGraphDefs.advance, deleting := false } = w.pending := by
    rw [hpending, ← hadvance]
    rfl
  have hgone : ∀ v, Gone { w with
      mDeleteGraphDefs := w.mDeleteGraphDefs.advance, deleting := false } v ↔ w.Gone v := by
    intro v
    rw [Gone, hpending']
    rfl
  have hwaiting : waiting false w.mDeleteGraphDefs.advance.unread = w.pending := hpending'
  apply h.requeue htidy (fun hdeleting => absurd hdeleting Bool.false_ne_true) hgone
  · rw [hwaiting]
    exact h.once
  · rw [hwaiting]
    exact h.ordered

/-! ## The table gives up a definition -/

/-- When the last reference to a definition is dropped, no synth uses one of its variants, and
the message finds a free slot. -/
def Droppable (w : GraphDefLib Name k) : DefPtr → Prop
  | .original u => w.mRefCount (.original u) = 1 →
      (∀ p ∈ w.synths, p.mOriginal ≠ u) ∧ w.mDeleteGraphDefs.HasRoom
  | .variant _ _ => True

/-- What giving up a reference of the table leaves alone. -/
structure Dropped (w : GraphDefLib Name k) (p : DefPtr) (w' : GraphDefLib Name k) : Prop where
  mGraphDefLib : w'.mGraphDefLib = (w.removeGraphDef p).mGraphDefLib
  names : w'.names = w.names
  mMaxGraphDefs : w'.mMaxGraphDefs = w.mMaxGraphDefs
  mDefs : w'.mDefs = w.mDefs
  synths : w'.synths = w.synths

theorem Sound.dropGraphDef (h : w.Sound held) (hp : p ∈ w.mGraphDefLib) (hguard : w.Droppable p) :
    ∃ w', w.dropGraphDef p = some w' ∧ w'.Sound held ∧ w.Dropped p w' := by
  have hlive : ¬ w.Gone p.mOriginal := fun hg => (h.gone _ hg).1 (.inl ⟨p, hp, rfl⟩)
  have hfreed : ¬ w.isFreed p = true := by
    simpa [isFreed] using fun hmem => hlive (.inl hmem)
  have hdelete : ((w.removeGraphDef p).decRef p).deleteMsg p = { (w.removeGraphDef p).decRef p with
      mDeleteGraphDefs := (((w.removeGraphDef p).decRef p).deleteMsg p).mDeleteGraphDefs } := by
    obtain ⟨fifo, -, hdelete, -⟩ :=
      deleteMsg_spec (w := (w.removeGraphDef p).decRef p) h.tidy h.busy p
    rw [hdelete]
  unfold GraphDefLib.dropGraphDef
  rw [if_neg hfreed]
  by_cases hzero : ((w.removeGraphDef p).decRef p).mRefCount p = 0
  · refine ⟨((w.removeGraphDef p).decRef p).deleteMsg p, if_pos hzero, ?_, ?_⟩
    · cases p with
      | original u =>
        have hlast : w.mRefCount (.original u) = 1 := decRef_eq_zero.mp hzero
        obtain ⟨hsynths, hroom⟩ := hguard hlast
        exact (h.removeOriginal hp).retireQueued hlast hsynths hroom
      | variant u i => exact ((h.removeVariant u i).decVariant u i).deleteVariant hlive i
    · rw [hdelete]
      exact ⟨rfl, rfl, rfl, rfl, rfl⟩
  · refine ⟨(w.removeGraphDef p).decRef p, if_neg hzero, ?_, rfl, rfl, rfl, rfl, rfl⟩
    cases p with
    | original u =>
      have hmore : w.mRefCount (.original u) ≠ 1 := fun hlast => hzero (decRef_eq_zero.mpr hlast)
      exact (h.removeOriginal hp).decRef hmore
    | variant u i => exact (h.removeVariant u i).decVariant u i

/-! ## A synth ends -/

/-- When the last reference to a definition goes with a synth, no synth uses one of its variants,
and the message of a real-time server finds a free slot. -/
def Endable (w : GraphDefLib Name k) : DefPtr → Prop
  | .original u => w.mRefCount (.original u) = 1 →
      (∀ i, .variant u i ∉ w.synths) ∧ (w.mRealTime = true → w.mDeleteGraphDefs.HasRoom)
  | .variant _ _ => True

/-- The synth with the last reference to a definition is the only one that uses it. -/
theorem Sound.noOtherSynth (h : w.Sound held) (hu : .original u ∈ w.synths)
    (hlast : w.mRefCount (.original u) = 1) (hvariants : ∀ i, .variant u i ∉ w.synths) :
    ∀ p ∈ w.synths.erase (.original u), p.mOriginal ≠ u := by
  intro p hp hpu
  have hlive : ¬ w.Gone u := fun hg => (h.gone u hg).1 (.inr ⟨_, hu, rfl⟩)
  obtain ⟨-, hcount⟩ := h.counts u (h.knownSynths _ hu) hlive
  rw [hlast] at hcount
  cases p with
  | original v =>
    have heq : v = u := hpu
    subst heq
    have hmore : 0 < (w.synths.erase (.original v)).count (.original v) := List.count_pos_iff.mpr hp
    rw [List.count_erase_self] at hmore
    omega
  | variant v i =>
    cases hpu
    exact hvariants i (List.mem_of_mem_erase hp)

theorem Sound.graphDtor (h : w.Sound held) (hp : p ∈ w.synths) (hguard : w.Endable p) :
    ∃ w', w.graphDtor p = some w' ∧ w'.Sound held ∧ w'.mDefs = w.mDefs ∧
      ∀ u, w'.Referred u → w.Referred u := by
  have hlive : ¬ w.Gone p.mOriginal := fun hg => (h.gone _ hg).1 (.inr ⟨p, hp, rfl⟩)
  have hfreed : ¬ w.isFreed p = true := by
    simpa [isFreed] using fun hmem => hlive (.inl hmem)
  let ended : GraphDefLib Name k := { w with synths := w.synths.erase p }
  have hended : { w.decRef p with synths := w.synths.erase p } = ended.decRef p := rfl
  have hreferred : ∀ u, (ended.decRef p).Referred u → w.Referred u :=
    fun u href => referred_of_erase (w := w) (p := p) href
  have hlast : ∀ u, p = .original u → (ended.decRef p).mRefCount p ≤ 0 →
      w.mRefCount (.original u) = 1 := by
    intro u hpu hzero
    subst hpu
    obtain ⟨hpos, -⟩ := h.counts u (h.knownSynths _ hp) hlive
    have hdec : (ended.decRef (.original u)).mRefCount (.original u) =
        w.mRefCount (.original u) - 1 := Function.update_self ..
    omega
  unfold GraphDefLib.graphDtor
  rw [if_neg hfreed, hended]
  by_cases hzero : (ended.decRef p).mRefCount p ≤ 0
  · cases hreal : w.mRealTime with
    | true =>
      obtain ⟨fifo, -, hdelete, -⟩ := deleteMsg_spec (w := ended.decRef p) h.tidy h.busy p
      refine ⟨(ended.decRef p).deleteMsg p, (if_pos hzero).trans (if_pos hreal), ?_, ?_⟩
      · cases p with
        | original u =>
          have hone := hlast u rfl hzero
          obtain ⟨hvariants, hroom⟩ := hguard hone
          exact (h.eraseOriginal hp).retireQueued hone (h.noOtherSynth hp hone hvariants)
            (hroom hreal)
        | variant u i => exact ((h.eraseVariant u i).decVariant u i).deleteVariant hlive i
      · rw [hdelete]
        exact ⟨rfl, hreferred⟩
    | false =>
      have hnot : ¬ (ended.decRef p).mRealTime = true := by
        show ¬ w.mRealTime = true
        simp [hreal]
      have hfreed' : ¬ (ended.decRef p).isFreed p = true := hfreed
      cases p with
      | original u =>
        have hone := hlast u rfl hzero
        obtain ⟨hvariants, -⟩ := hguard hone
        refine ⟨{ ended.decRef (.original u) with freed := w.freed ++ [u] }, ?_, ?_, rfl, hreferred⟩
        · simp only [if_pos hzero, if_neg hnot, graphDefFree, if_neg hfreed']
          rfl
        · exact (h.eraseOriginal hp).retireFreed hone (h.noOtherSynth hp hone hvariants) hreal
      | variant u i =>
        refine ⟨ended.decRef (.variant u i), ?_, ?_, rfl, hreferred⟩
        · simp only [if_pos hzero, if_neg hnot, graphDefFree, if_neg hfreed']
        · exact (h.eraseVariant u i).decVariant u i
  · refine ⟨ended.decRef p, if_neg hzero, ?_, rfl, hreferred⟩
    cases p with
    | original u =>
      have hmore : w.mRefCount (.original u) ≠ 1 := by
        intro hlast
        apply hzero
        exact (decRef_eq_zero (w := ended).mpr hlast).le
      exact (h.eraseOriginal hp).decRef hmore
    | variant u i => exact (h.eraseVariant u i).decVariant u i

/-! ## The table takes a definition -/

theorem named_append (h : (w.mGraphDefLib.map w.nameOf).Nodup)
    (hname : ∀ q ∈ w.mGraphDefLib, w.nameOf q ≠ w.nameOf p) :
    ((w.mGraphDefLib ++ [p]).map w.nameOf).Nodup := by
  rw [List.map_append, List.nodup_append]
  refine ⟨h, List.nodup_singleton _, ?_⟩
  intro n hn m hm
  obtain ⟨q, hq, rfl⟩ := List.mem_map.mp hn
  rw [List.map_singleton, List.mem_singleton] at hm
  rw [hm]
  exact hname q hq

theorem referred_of_append (h : Referred { w with mGraphDefLib := w.mGraphDefLib ++ [p] } u) :
    w.Referred u ∨ p.mOriginal = u := by
  rcases h with ⟨q, hq, hqu⟩ | hsynths
  · rcases List.mem_append.mp hq with hq | hq
    · exact .inl (.inl ⟨q, hq, hqu⟩)
    · rw [List.mem_singleton.mp hq] at hqu
      exact .inr hqu
  · exact .inl (.inr hsynths)

/-- The running command gives its reference to the table. -/
theorem Sound.addOriginal (h : w.Sound (u :: held))
    (hname : ∀ q ∈ w.mGraphDefLib, w.nameOf q ≠ w.nameOf (.original u)) :
    Sound { w with mGraphDefLib := w.mGraphDefLib ++ [.original u] } held := by
  have hlive : ¬ w.Gone u := fun hg => (h.gone u hg).2 List.mem_cons_self
  refine { h with named := named_append h.named hname, valid := ?_, knownLib := ?_, knownHeld := ?_, counts := ?_, gone := ?_ }
  · intro v i hv
    rw [List.mem_append, List.mem_singleton] at hv
    rcases hv with hv | hv
    · exact ⟨(h.valid v i hv).1, List.mem_append_left _ (h.valid v i hv).2⟩
    · cases hv
  · intro q hq
    rcases List.mem_append.mp hq with hq | hq
    · exact h.knownLib q hq
    · rw [List.mem_singleton.mp hq]
      exact h.knownHeld u List.mem_cons_self
  · exact fun v hv => h.knownHeld v (List.mem_cons_of_mem u hv)
  · intro v hv hnot
    obtain ⟨hpos, hcount⟩ := h.counts v hv hnot
    refine ⟨hpos, hcount.trans ?_⟩
    show _ = ((w.mGraphDefLib ++ [DefPtr.original u]).count (.original v) : ℤ) +
      w.synths.count (.original v) + held.count v
    rw [List.count_append]
    by_cases heq : v = u
    · subst heq
      rw [List.count_cons_self, List.count_singleton_self]
      push_cast
      omega
    · rw [List.count_cons_of_ne (Ne.symm heq), List.count_singleton,
        if_neg (by simpa using Ne.symm heq)]
      omega
  · intro v hv
    refine ⟨?_, fun hmem => (h.gone v hv).2 (List.mem_cons_of_mem u hmem)⟩
    intro href
    rcases referred_of_append href with href | rfl
    · exact (h.gone v hv).1 href
    · exact hlive hv

/-! ## Between two events -/

/-- The invariant of a run: the definitions that are still to be defined are not in use. -/
structure Steady (w : GraphDefLib Name k) : Prop where
  sound : w.Sound w.mDefs
  defs : w.mDefs.Nodup
  fresh : ∀ u ∈ w.mDefs, ¬ w.Referred u

/-- What is read and used is held until it is defined. -/
theorem Steady.libRead (h : w.Steady) {defs : List (DefNames Name)} {used : Bool}
    (hused : used = true ∨ defs = []) : (w.libRead defs false used).Steady := by
  let new := (List.range defs.length).map (w.numRead + ·)
  have hmem : ∀ v, v ∈ new ↔ w.numRead ≤ v ∧ v < w.numRead + defs.length := by
    intro v
    simp only [new, List.mem_map, List.mem_range]
    constructor
    · rintro ⟨i, hi, rfl⟩
      omega
    · intro hv
      exact ⟨v - w.numRead, by omega, by omega⟩
  have hnew : new.Nodup := List.nodup_range.map fun i j hij => Nat.add_left_cancel hij
  have hmDefs : (w.libRead defs false used).mDefs = new.reverse ++ w.mDefs := by
    rcases hused with rfl | rfl
    · rfl
    · cases used with
      | true => rfl
      | false => rfl
  have hnames : ∀ v < w.numRead, (w.libRead defs false used).names v = w.names v :=
    fun v hv => if_neg (Nat.not_le.mpr hv)
  have hnameOf : ∀ p ∈ w.mGraphDefLib, (w.libRead defs false used).nameOf p = w.nameOf p := by
    intro p hp
    have hknown := hnames _ (h.sound.knownLib p hp)
    cases p with
    | original v => exact congrArg (fun n => some n.mName) hknown
    | variant v i => exact congrArg (fun n => n.mVariants[i]?) hknown
  have hdisjoint : ∀ v ∈ new, v ∉ w.mDefs := by
    intro v hv hdefs
    have hknown := h.sound.knownHeld v hdefs
    have hbounds := (hmem v).mp hv
    omega
  have hfresh : ∀ v ∈ new, ¬ w.Referred v := by
    rintro v hv (⟨p, hp, rfl⟩ | ⟨p, hp, rfl⟩)
    · have hknown := h.sound.knownLib p hp
      have hbounds := (hmem _).mp hv
      omega
    · have hknown := h.sound.knownSynths p hp
      have hbounds := (hmem _).mp hv
      omega
  have hmore : ∀ v < w.numRead, v < (w.libRead defs false used).numRead :=
    fun v hv => Nat.lt_of_lt_of_le hv (Nat.le_add_right_of_le (Nat.le_add_right _ _))
  refine ⟨?_, ?_, ?_⟩
  · rw [hmDefs]
    refine { h.sound with named := ?_, valid := ?_, knownLib := ?_, knownSynths := ?_, knownHeld := ?_, knownGone := ?_, counts := ?_, gone := ?_ }
    · rw [show (w.libRead defs false used).mGraphDefLib = w.mGraphDefLib from rfl,
        List.map_congr_left hnameOf]
      exact h.sound.named
    · intro v i hv
      rw [hnames v (h.sound.knownLib _ hv)]
      exact h.sound.valid v i hv
    · exact fun p hp => hmore _ (h.sound.knownLib p hp)
    · exact fun p hp => hmore _ (h.sound.knownSynths p hp)
    · intro v hv
      rcases List.mem_append.mp hv with hv | hv
      · exact ((hmem v).mp (List.mem_reverse.mp hv)).2
      · exact hmore v (h.sound.knownHeld v hv)
    · exact fun v hv => hmore v (h.sound.knownGone v hv)
    · intro v hv hnot
      have hv' : v < w.numRead + defs.length := hv
      show 0 < (if w.numRead ≤ v then 1 else w.mRefCount (.original v)) ∧
        (if w.numRead ≤ v then 1 else w.mRefCount (.original v)) =
          (w.mGraphDefLib.count (.original v) : ℤ) + w.synths.count (.original v) +
            (new.reverse ++ w.mDefs).count v
      rw [List.count_append, List.count_reverse]
      by_cases hold : v < w.numRead
      · have hout : v ∉ new := fun hin => absurd ((hmem v).mp hin).1 (Nat.not_le.mpr hold)
        rw [if_neg (Nat.not_le.mpr hold), List.count_eq_zero.mpr hout, Nat.zero_add]
        exact h.sound.counts v hold hnot
      · have hin : v ∈ new := (hmem v).mpr ⟨Nat.not_lt.mp hold, hv'⟩
        have hlib : .original v ∉ w.mGraphDefLib := fun hp => hfresh v hin (.inl ⟨_, hp, rfl⟩)
        have hsynths : .original v ∉ w.synths := fun hp => hfresh v hin (.inr ⟨_, hp, rfl⟩)
        rw [if_pos (Nat.not_lt.mp hold), List.count_eq_zero.mpr hlib,
          List.count_eq_zero.mpr hsynths, List.count_eq_zero.mpr (hdisjoint v hin),
          List.count_eq_one_of_mem hnew hin]
        omega
    · intro v hv
      refine ⟨(h.sound.gone v hv).1, ?_⟩
      intro hheld
      rcases List.mem_append.mp hheld with hin | hin
      · have hknown := h.sound.knownGone v hv
        have hbounds := (hmem v).mp (List.mem_reverse.mp hin)
        omega
      · exact (h.sound.gone v hv).2 hin
  · rw [hmDefs, List.nodup_append]
    refine ⟨List.nodup_reverse.mpr hnew, h.defs, ?_⟩
    intro v hv v' hv' heq
    exact hdisjoint v (List.mem_reverse.mp hv) (heq ▸ hv')
  · intro v hv
    rw [hmDefs] at hv
    rcases List.mem_append.mp hv with hv | hv
    · exact hfresh v (List.mem_reverse.mp hv)
    · exact h.fresh v hv

/-! ## All definitions are freed -/

/-- The definitions among the pointers, without the variants. -/
def originals : List DefPtr → List ℕ
  | [] => []
  | .original u :: ps => u :: originals ps
  | .variant _ _ :: ps => originals ps

theorem mem_originals : ∀ {ps : List DefPtr}, u ∈ originals ps ↔ .original u ∈ ps
  | [] => by simp [originals]
  | .original v :: ps => by simp [originals, mem_originals]
  | .variant v i :: ps => by simp [originals, mem_originals]

theorem count_originals : ∀ ps : List DefPtr, (originals ps).count u = ps.count (.original u)
  | [] => rfl
  | .original v :: ps => by simp [originals, List.count_cons, count_originals ps]
  | .variant v i :: ps => by simp [originals, count_originals ps]

/-- Every definition is freed after its variants have been read. -/
theorem foldlM_graphDefFree : ∀ (slots : List DefPtr) (w : GraphDefLib Name k),
    (∀ p ∈ slots, p.mOriginal ∉ w.freed) → slots.Nodup →
    (slots.Pairwise fun p q => ∀ u i, q = .variant u i → p ≠ .original u) →
    slots.foldlM graphDefFree w = some { w with freed := w.freed ++ originals slots }
  | [], w, _, _, _ => by simp [originals]
  | .original u :: slots, w, hlive, hnodup, hordered => by
    have hfree : w.graphDefFree (.original u) = some { w with freed := w.freed ++ [u] } :=
      if_neg (by simpa [isFreed, DefPtr.mOriginal] using hlive _ List.mem_cons_self)
    rw [List.foldlM_cons, hfree, Option.bind_eq_bind, Option.bind_some,
      foldlM_graphDefFree slots _ ?_ hnodup.of_cons hordered.of_cons]
    · simp [originals]
    · intro q hq hmem
      rcases List.mem_append.mp hmem with hmem | hmem
      · exact hlive q (List.mem_cons_of_mem _ hq) hmem
      · rw [List.mem_singleton] at hmem
        cases q with
        | original v =>
          have heq : v = u := hmem
          exact (List.nodup_cons.mp hnodup).1 (heq ▸ hq)
        | variant v i =>
          have heq : v = u := hmem
          exact (List.pairwise_cons.mp hordered).1 _ hq v i rfl (by rw [heq])
  | .variant u i :: slots, w, hlive, hnodup, hordered => by
    have hfree : w.graphDefFree (.variant u i) = some w :=
      if_neg (by simpa [isFreed, DefPtr.mOriginal] using hlive _ List.mem_cons_self)
    rw [List.foldlM_cons, hfree, Option.bind_eq_bind, Option.bind_some]
    exact foldlM_graphDefFree slots w (fun q hq => hlive q (List.mem_cons_of_mem _ hq))
      hnodup.of_cons hordered.of_cons

theorem Steady.freeAll (h : w.Steady) {slots : List DefPtr} (hperm : slots.Perm w.mGraphDefLib)
    (hsynths : ∀ u, .original u ∈ w.mGraphDefLib → ∀ p ∈ w.synths, p.mOriginal ≠ u)
    (hpending : w.mRealTime = true →
      ∀ u, .original u ∈ w.mGraphDefLib → ∀ i, .variant u i ∉ w.pending)
    (hordered : slots.Pairwise fun p q => ∀ u i, q = .variant u i → p ≠ .original u) :
    ∃ w', w.freeAllGraphDefs slots = some w' ∧ w'.Steady := by
  have hlive : ∀ p ∈ slots, p.mOriginal ∉ w.freed := by
    intro p hp hfreed
    exact (h.sound.gone _ (.inl hfreed)).1 (.inl ⟨p, hperm.subset hp, rfl⟩)
  have hfold := foldlM_graphDefFree slots w hlive (hperm.nodup_iff.mpr h.sound.nodup) hordered
  have hmem : ∀ v, v ∈ originals slots ↔ .original v ∈ w.mGraphDefLib :=
    fun v => mem_originals.trans hperm.mem_iff
  let w' : GraphDefLib Name k :=
    { w with freed := w.freed ++ originals slots, mGraphDefLib := [] }
  have hgone : ∀ v, w'.Gone v ↔ w.Gone v ∨ .original v ∈ w.mGraphDefLib := by
    intro v
    show v ∈ w.freed ++ originals slots ∨ .original v ∈ w.pending ↔ _
    rw [List.mem_append, hmem, Gone]
    tauto
  have hreferred : ∀ v, w'.Referred v → w.Referred v := by
    rintro v (⟨p, hp, -⟩ | hmore)
    · cases hp
    · exact .inr hmore
  refine ⟨w', ?_, ?_, h.defs, fun v hv href => h.fresh v hv (hreferred v href)⟩
  · rw [freeAllGraphDefs, hfold]
    rfl
  · refine { h.sound with named := .nil, valid := nofun, knownLib := nofun, knownGone := ?_, counts := ?_, gone := ?_, once := ?_, ordered := ?_ }
    · intro v hv
      rcases (hgone v).mp hv with hv | hv
      · exact h.sound.knownGone v hv
      · exact h.sound.knownLib _ hv
    · intro v hv hnot
      have hlib : .original v ∉ w.mGraphDefLib := fun hin => hnot ((hgone v).mpr (.inr hin))
      have hcounts := h.sound.counts v hv fun hg => hnot ((hgone v).mpr (.inl hg))
      rw [List.count_eq_zero.mpr hlib] at hcounts
      exact hcounts
    · intro v hv
      rcases (hgone v).mp hv with hv | hv
      · exact ⟨fun href => (h.sound.gone v hv).1 (hreferred v href), (h.sound.gone v hv).2⟩
      · refine ⟨?_, fun hdefs => h.fresh v hdefs (.inl ⟨_, hv, rfl⟩)⟩
        rintro (⟨p, hp, -⟩ | ⟨p, hp, hpv⟩)
        · cases hp
        · exact hsynths v hv p hp hpv
    · intro v
      have hle := h.sound.once v
      show (w.freed ++ originals slots).count v + w.pending.count (.original v) ≤ 1
      rw [List.count_append, count_originals, hperm.count_eq]
      by_cases hin : .original v ∈ w.mGraphDefLib
      · have hlive : ¬ w.Gone v := fun hg => (h.sound.gone v hg).1 (.inl ⟨_, hin, rfl⟩)
        rw [List.count_eq_zero.mpr fun hfreed => hlive (.inl hfreed),
          List.count_eq_zero.mpr fun hqueued => hlive (.inr hqueued),
          List.count_eq_one_of_mem h.sound.nodup hin]
      · rw [List.count_eq_zero.mpr hin]
        omega
    · intro hreal
      obtain ⟨hpairwise, hfreed⟩ := h.sound.ordered hreal
      refine ⟨hpairwise, ?_⟩
      intro v i hv hin
      rcases List.mem_append.mp hin with hin | hin
      · exact hfreed v i hv hin
      · exact hpending hreal v ((hmem v).mp hin) i hv

end Lifetime

variable {Name : Type} [DecidableEq Name] {k : ℕ}

/-! ## The condition -/

/-- The table has room for a definition of the name, when the previous one is removed. -/
def HasSlot (w : GraphDefLib Name k) (name : Name) : Prop :=
  match w.getGraphDef name with
  | none => w.mGraphDefLib.length < w.mMaxGraphDefs
  | some p => (w.removeGraphDef p).mGraphDefLib.length < w.mMaxGraphDefs

/-- The condition on an event. -/
def Keeps (w : GraphDefLib Name k) : DefEvent Name → Prop
  | .read defs throws used => throws = false ∧ (used = true ∨ defs = [])
  | .define u => u ∈ w.mDefs → (∀ p ∈ w.getGraphDef (w.names u).mName, w.Droppable p) ∧
      w.HasSlot (w.names u).mName
  | .dFree name => ∀ p ∈ w.getGraphDef name, w.Droppable p
  | .dFreeAll slots => slots.Perm w.mGraphDefLib →
      (∀ u, .original u ∈ w.mGraphDefLib → (∀ p ∈ w.synths, p.mOriginal ≠ u) ∧
        (w.mRealTime = true → ∀ i, .variant u i ∉ w.pending)) ∧
      slots.Pairwise fun p q => ∀ u i, q = .variant u i → p ≠ .original u
  | .nodeDelete p => p ∈ w.synths → w.Endable p
  | _ => True

/-- Every event of the run meets the condition. -/
def Guarded : GraphDefLib Name k → List (DefEvent Name) → Prop
  | _, [] => True
  | w, e :: es => w.Keeps e ∧ ∀ w' ∈ w.next e, w'.Guarded es

/-! ## The events -/

variable {w w' : GraphDefLib Name k} {held : List ℕ} {u : ℕ} {p : DefPtr} {name : Name}

theorem getGraphDef_spec (hget : w.getGraphDef name = some p) :
    p ∈ w.mGraphDefLib ∧ w.nameOf p = some name :=
  ⟨List.mem_of_find?_eq_some hget, by simpa using List.find?_some hget⟩

theorem Sound.getGraphDef_remove (h : w.Sound held) (hget : w.getGraphDef name = some p) :
    (w.removeGraphDef p).getGraphDef name = none := by
  obtain ⟨hp, hname⟩ := getGraphDef_spec hget
  show (w.removeGraphDef p).mGraphDefLib.find? (fun q => w.nameOf q = some name) = none
  rw [List.find?_eq_none]
  intro q hq hqname
  obtain ⟨hqlib, -, hne⟩ := (mem_diff_erase h.nodup).mp hq
  -- the table has the name once
  have heq : w.nameOf q = w.nameOf p := (of_decide_eq_true hqname).trans hname.symm
  exact hne (List.inj_on_of_nodup_map h.named hqlib hp heq)

/-- The definition can be looked up: its name is new, and the table has room. -/
theorem libAdd_eq (hfull : w.mGraphDefLib.length < w.mMaxGraphDefs)
    (hname : ∀ q ∈ w.mGraphDefLib, w.nameOf q ≠ w.nameOf p) :
    w.libAdd p = { w with mGraphDefLib := w.mGraphDefLib ++ [p] } := by
  have hany : ¬ (w.mGraphDefLib.any fun q => w.nameOf q = w.nameOf p) = true := by
    simpa using hname
  rw [libAdd, if_neg (Nat.not_le.mpr hfull), if_neg hany]

/-- A variant is added behind its original, if there is room for it. -/
theorem Sound.addVariant (h : w.Sound held) {i : ℕ} (hu : .original u ∈ w.mGraphDefLib)
    (hi : i < (w.names u).mVariants.length) : (w.libAdd (.variant u i)).Sound held := by
  have hlive : ¬ w.Gone u := fun hg => (h.gone u hg).1 (.inl ⟨_, hu, rfl⟩)
  unfold libAdd
  split_ifs with hfull hany
  · exact h
  · exact h
  have hname : ∀ q ∈ w.mGraphDefLib, w.nameOf q ≠ w.nameOf (.variant u i) := by
    simpa using hany
  refine { h with named := named_append h.named hname, valid := ?_, knownLib := ?_, counts := ?_, gone := ?_ }
  · intro v j hv
    rw [List.mem_append, List.mem_singleton] at hv
    rcases hv with hv | hv
    · exact ⟨(h.valid v j hv).1, List.mem_append_left _ (h.valid v j hv).2⟩
    · cases hv
      exact ⟨hi, List.mem_append_left _ hu⟩
  · intro q hq
    rcases List.mem_append.mp hq with hq | hq
    · exact h.knownLib q hq
    · rw [List.mem_singleton.mp hq]
      exact h.knownLib (.original u) hu
  · intro v hv hnot
    obtain ⟨hpos, hcount⟩ := h.counts v hv hnot
    refine ⟨hpos, hcount.trans ?_⟩
    show _ = ((w.mGraphDefLib ++ [DefPtr.variant u i]).count (.original v) : ℤ) +
      w.synths.count (.original v) + held.count v
    rw [List.count_append, List.count_singleton, if_neg (by simp)]
    omega
  · intro v hv
    refine ⟨?_, (h.gone v hv).2⟩
    intro href
    rcases referred_of_append href with href | rfl
    · exact (h.gone v hv).1 href
    · exact hlive hv

theorem libAdd_frame (w : GraphDefLib Name k) (p : DefPtr) :
    ∃ lib, w.libAdd p = { w with mGraphDefLib := lib } ∧ w.mGraphDefLib ⊆ lib ∧
      ∀ q ∈ lib, q ∈ w.mGraphDefLib ∨ q = p := by
  unfold libAdd
  split_ifs with hfull hany
  · exact ⟨_, rfl, List.Subset.refl _, fun q hq => .inl hq⟩
  · exact ⟨_, rfl, List.Subset.refl _, fun q hq => .inl hq⟩
  · refine ⟨_, rfl, List.subset_append_left _ _, ?_⟩
    intro q hq
    rwa [List.mem_append, List.mem_singleton] at hq

/-- The variants of a definition in the table are added. -/
theorem Sound.addVariants : ∀ {w : GraphDefLib Name k} (is : List ℕ), w.Sound held →
    .original u ∈ w.mGraphDefLib → (∀ i ∈ is, i < (w.names u).mVariants.length) →
    ∃ lib, (is.map (DefPtr.variant u)).foldl libAdd w = { w with mGraphDefLib := lib } ∧
      Sound { w with mGraphDefLib := lib } held ∧
      ∀ q ∈ lib, q ∈ w.mGraphDefLib ∨ q.mOriginal = u
  | w, [], h, _, _ => ⟨w.mGraphDefLib, rfl, h, fun q hq => .inl hq⟩
  | w, i :: is, h, hu, his => by
    have h' := h.addVariant hu (his i List.mem_cons_self)
    obtain ⟨lib, hadd, hsub, hlib⟩ := libAdd_frame w (.variant u i)
    rw [hadd] at h'
    obtain ⟨lib', hfold, h'', hlib'⟩ := Sound.addVariants is h' (hsub hu)
      fun j hj => his j (List.mem_cons_of_mem i hj)
    refine ⟨lib', ?_, h'', ?_⟩
    · rw [List.map_cons, List.foldl_cons, hadd]
      exact hfold
    · intro q hq
      rcases hlib' q hq with hq | hq
      · rcases hlib q hq with hq | rfl
        · exact .inl hq
        · exact .inr rfl
      · exact .inr hq

theorem getGraphDef_eq_none (h : w.getGraphDef name = none) :
    ∀ q ∈ w.mGraphDefLib, w.nameOf q ≠ some name := by
  simpa [getGraphDef] using h

theorem Sound.graphDefRemove (h : w.Sound held)
    (hguard : ∀ p ∈ w.getGraphDef name, w.Droppable p) :
    ∃ w', w.graphDefRemove name = some w' ∧ w'.Sound held ∧ w'.names = w.names ∧
      w'.mDefs = w.mDefs ∧ (∀ u, w'.Referred u → w.Referred u) ∧ w'.getGraphDef name = none ∧
      (w.HasSlot name → w'.mGraphDefLib.length < w'.mMaxGraphDefs) := by
  unfold GraphDefLib.graphDefRemove HasSlot
  cases hget : w.getGraphDef name with
  | none => exact ⟨w, rfl, h, rfl, rfl, fun _ => id, hget, id⟩
  | some p =>
    obtain ⟨w', hdrop, hsound, hdropped⟩ :=
      h.dropGraphDef (getGraphDef_spec hget).1 (hguard p hget)
    refine ⟨w', hdrop, hsound, hdropped.names, hdropped.mDefs, ?_, ?_, ?_⟩
    · rintro u (⟨q, hq, hqu⟩ | ⟨q, hq, hqu⟩)
      · rw [hdropped.mGraphDefLib] at hq
        exact .inl ⟨q, (removeGraphDef_sublist w p).subset hq, hqu⟩
      · rw [hdropped.synths] at hq
        exact .inr ⟨q, hq, hqu⟩
    · have hnone := h.getGraphDef_remove hget
      have hnameOf : w'.nameOf = (w.removeGraphDef p).nameOf := by
        funext q
        cases q with
        | original v => simp only [nameOf, hdropped.names]; rfl
        | variant v i => simp only [nameOf, hdropped.names]; rfl
      rw [getGraphDef] at hnone ⊢
      rw [hdropped.mGraphDefLib, hnameOf]
      exact hnone
    · intro hslot
      rw [hdropped.mGraphDefLib, hdropped.mMaxGraphDefs]
      exact hslot

theorem Steady.define (h : w.Steady) (hu : u ∈ w.mDefs)
    (hguard : ∀ p ∈ w.getGraphDef (w.names u).mName, w.Droppable p)
    (hslot : w.HasSlot (w.names u).mName) :
    ∃ w', graphDefDefine { w with mDefs := w.mDefs.erase u } u = some w' ∧ w'.Steady := by
  let w₁ : GraphDefLib Name k := { w with mDefs := w.mDefs.erase u }
  have h₁ : w₁.Sound (u :: w.mDefs.erase u) :=
    { h.sound.perm (List.perm_cons_erase hu) with }
  obtain ⟨w₂, hremove, h₂, hnames, hdefs₁, href, hnone, hroom⟩ :=
    Sound.graphDefRemove h₁ hguard
  have hdefs : w₂.mDefs = w.mDefs.erase u := hdefs₁
  have hnew : ∀ q ∈ w₂.mGraphDefLib, w₂.nameOf q ≠ w₂.nameOf (.original u) := by
    show ∀ q ∈ w₂.mGraphDefLib, w₂.nameOf q ≠ some (w₂.names u).mName
    rw [hnames]
    exact getGraphDef_eq_none hnone
  have hadd := libAdd_eq (hroom hslot) hnew
  obtain ⟨lib, hfold, h₃, hlib⟩ := (h₂.addOriginal hnew).addVariants (u := u)
    (List.range (w₂.names u).mVariants.length) (by simp) (by simp)
  refine ⟨{ w₂ with mGraphDefLib := lib }, ?_, ?_, ?_, ?_⟩
  · show (w₁.graphDefRemove (w.names u).mName).bind _ = _
    rw [hremove, Option.bind_some]
    show some ((w₂.variantsOf (.original u)).foldl libAdd (w₂.libAdd (.original u))) = _
    rw [hadd]
    exact congrArg some hfold
  · have h₄ : Sound { w₂ with mGraphDefLib := lib } (w.mDefs.erase u) := h₃
    rw [← hdefs] at h₄
    exact h₄
  · show w₂.mDefs.Nodup
    rw [hdefs]
    exact h.defs.erase u
  · intro v hv hreferred
    have hv' : v ∈ w.mDefs.erase u := hdefs ▸ hv
    obtain ⟨hne, hmem⟩ := h.defs.mem_erase_iff.mp hv'
    rcases hreferred with ⟨q, hq, hqv⟩ | hsynths
    · rcases hlib q hq with hq | hqu
      · rcases List.mem_append.mp hq with hq | hq
        · exact h.fresh v hmem (href v (.inl ⟨q, hq, hqv⟩))
        · rw [List.mem_singleton.mp hq] at hqv
          exact hne hqv.symm
      · exact hne (hqv.symm.trans hqu)
    · exact h.fresh v hmem (href v (.inr hsynths))

/-! ## Runs -/

theorem Steady.next (h : w.Steady) (e : DefEvent Name) (hkeeps : w.Keeps e) :
    ∃ w', w.next e = some w' ∧ w'.Steady := by
  cases e with
  | read defs throws used =>
    obtain ⟨rfl, hused⟩ := hkeeps
    exact ⟨_, rfl, h.libRead hused⟩
  | performDelete =>
    simp only [GraphDefLib.next]
    split_ifs with hoff
    · exact ⟨w, rfl, h⟩
    have hon : w.deleting = false ∧ w.mRealTime = true := by simpa using hoff
    cases hnext : w.mDeleteGraphDefs.next with
    | none => exact ⟨w, rfl, h⟩
    | some p =>
      obtain ⟨w', hfree, hsound, hdefs, hreferred⟩ := h.sound.performDelete hon.1 hon.2 hnext
      refine ⟨w', hfree, ?_, ?_, ?_⟩
      · rw [hdefs]
        exact hsound
      · rw [hdefs]
        exact h.defs
      · intro v hv href
        exact h.fresh v (hdefs ▸ hv) ((hreferred v).mp href)
  | advanceDelete =>
    simp only [GraphDefLib.next]
    split_ifs with hbusy
    · exact ⟨_, rfl, h.sound.advanceDelete hbusy, h.defs, h.fresh⟩
    · exact ⟨w, rfl, h⟩
  | define u =>
    simp only [GraphDefLib.next]
    split_ifs with hcontains
    · have hu : u ∈ w.mDefs := List.contains_iff_mem.mp hcontains
      obtain ⟨hguard, hslot⟩ := hkeeps hu
      exact h.define hu hguard hslot
    · exact ⟨w, rfl, h⟩
  | dFree name =>
    obtain ⟨w', hremove, hsound, -, hdefs, hreferred, -⟩ := h.sound.graphDefRemove hkeeps
    refine ⟨w', hremove, ?_, ?_, ?_⟩
    · rw [hdefs]
      exact hsound
    · rw [hdefs]
      exact h.defs
    · intro v hv href
      exact h.fresh v (hdefs ▸ hv) (hreferred v href)
  | dFreeAll slots =>
    simp only [GraphDefLib.next]
    split_ifs with hperm
    · have hperm' := List.isPerm_iff.mp hperm
      obtain ⟨hall, hordered⟩ := hkeeps hperm'
      exact h.freeAll hperm' (fun v hv => (hall v hv).1) (fun hreal v hv => (hall v hv).2 hreal)
        hordered
    · exact ⟨w, rfl, h⟩
  | sNew name =>
    simp only [GraphDefLib.next]
    cases hget : w.getGraphDef name with
    | none => exact ⟨w, rfl, h⟩
    | some p =>
      obtain ⟨hp, -⟩ := getGraphDef_spec hget
      have hfreed : ¬ w.isFreed p = true := by
        intro hfreed
        have hin : p.mOriginal ∈ w.freed := List.contains_iff_mem.mp hfreed
        exact (h.sound.gone _ (.inl hin)).1 (.inl ⟨p, hp, rfl⟩)
      refine ⟨w.graphNew p, if_neg hfreed, h.sound.graphNew hp, h.defs, ?_⟩
      rintro v hv (hlib | ⟨q, hq, hqv⟩)
      · exact h.fresh v hv (.inl hlib)
      · rcases List.mem_cons.mp hq with rfl | hq
        · exact h.fresh v hv (.inl ⟨_, hp, hqv⟩)
        · exact h.fresh v hv (.inr ⟨q, hq, hqv⟩)
  | nodeDelete p =>
    simp only [GraphDefLib.next]
    split_ifs with hcontains
    · have hp : p ∈ w.synths := List.contains_iff_mem.mp hcontains
      obtain ⟨w', hdtor, hsound, hdefs, hreferred⟩ := h.sound.graphDtor hp (hkeeps hp)
      refine ⟨w', hdtor, ?_, ?_, ?_⟩
      · rw [hdefs]
        exact hsound
      · rw [hdefs]
        exact h.defs
      · intro v hv href
        exact h.fresh v (hdefs ▸ hv) (hreferred v href)
    · exact ⟨w, rfl, h⟩

theorem Steady.run : ∀ {w : GraphDefLib Name k} (es : List (DefEvent Name)), w.Steady →
    w.Guarded es → ∃ w', w.run es = some w' ∧ w'.Steady
  | w, [], h, _ => ⟨w, rfl, h⟩
  | w, e :: es, h, hguard => by
    obtain ⟨w₁, hnext, h₁⟩ := h.next e hguard.1
    obtain ⟨w₂, hrun, h₂⟩ := Steady.run es h₁ (hguard.2 w₁ hnext)
    refine ⟨w₂, ?_, h₂⟩
    rw [GraphDefLib.run, hnext]
    exact hrun

/-- In a run that meets the condition no freed memory is used, a definition is freed once, after
the table and the synths have given it up, and then it is freed or queued. -/
theorem lifetime_of_guarded (mRealTime : Bool) (mMaxGraphDefs : ℕ) (names : ℕ → DefNames Name)
    (es : List (DefEvent Name))
    (hguard : (new mRealTime mMaxGraphDefs names : GraphDefLib Name k).Guarded es) :
    ∃ w, (new mRealTime mMaxGraphDefs names : GraphDefLib Name k).run es = some w ∧
      w.Lifetime := by
  have hsteady : (new mRealTime mMaxGraphDefs names : GraphDefLib Name k).Steady :=
    ⟨sound_new mRealTime mMaxGraphDefs names, .nil, nofun⟩
  obtain ⟨w, hrun, h⟩ := hsteady.run es hguard
  exact ⟨w, hrun, h.sound.lifetime⟩

/-- The next state of a run, as a term. -/
theorem eq_next {e : DefEvent Name} (hnext : w' ∈ w.next e) : w' = (w.next e).getD w := by
  rw [Option.mem_def.mp hnext, Option.getD_some]

/-- The names in the runs below: the definition is `0`, its variant is `1`. -/
def withVariant : DefNames ℕ := ⟨0, [1]⟩

/-- The synth of a variant ends before `/d_free`. -/
theorem lifetime_of_guarded_variant :
    let w : GraphDefLib ℕ 9 := new true 1024 fun _ => withVariant
    let run : List (DefEvent ℕ) := [.read [withVariant] false true, .define 0, .sNew 1,
      .nodeDelete (.variant 0 0), .dFree 0, .performDelete, .advanceDelete]
    w.Guarded run ∧ ∃ w', w.run run = some w' ∧ w'.Lifetime := by
  intro w run
  have hguarded : w.Guarded run := by
    refine ⟨⟨rfl, .inl rfl⟩, fun w₁ h₁ => ?_⟩
    rw [eq_next h₁]
    refine ⟨fun _ => ⟨?_, ?_⟩, fun w₂ h₂ => ?_⟩
    · intro p hp
      cases hp
    · exact Nat.zero_lt_succ 1023
    rw [eq_next h₂]
    refine ⟨trivial, fun w₃ h₃ => ?_⟩
    rw [eq_next h₃]
    refine ⟨fun _ => trivial, fun w₄ h₄ => ?_⟩
    rw [eq_next h₄]
    refine ⟨?_, fun w₅ h₅ => ⟨trivial, fun w₆ h₆ => ⟨trivial, fun _ _ => trivial⟩⟩⟩
    intro p hp
    have horiginal : p = .original 0 := by
      have hget : some p = some (.original 0) := (Option.mem_def.mp hp).symm.trans (by decide)
      exact Option.some.inj hget
    subst horiginal
    refine fun _ => ⟨?_, ?_⟩
    · decide
    · unfold MsgFifoNoFree.HasRoom
      decide
  exact ⟨hguarded, lifetime_of_guarded true 1024 _ run hguarded⟩

/-- `/d_free` frees a definition under the synth of its variant, and the end of the synth uses the
freed memory. -/
theorem not_lifetime_variant :
    let w : GraphDefLib ℕ 9 := new true 1024 fun _ => withVariant
    let run : List (DefEvent ℕ) := [.read [withVariant] false true, .define 0, .sNew 1, .dFree 0,
      .performDelete]
    (∃ w', w.run run = some w' ∧ ¬ w'.Lifetime) ∧ w.run (run ++ [.nodeDelete (.variant 0 0)]) = none := by
  intro w run
  have hsome : (w.run run).isSome = true := by decide
  have hended : (w.run (run ++ [.nodeDelete (.variant 0 0)])).isNone = true := by decide
  obtain ⟨w', hw'⟩ := Option.isSome_iff_exists.mp hsome
  have hstate : (w.run run).map (fun w => (w.freed, w.synths)) = some ([0], [.variant 0 0]) := by
    decide
  rw [hw', Option.map_some, Option.some.injEq, Prod.mk.injEq] at hstate
  obtain ⟨hfreed, hsynths⟩ := hstate
  refine ⟨⟨w', hw', ?_⟩, Option.isNone_iff_eq_none.mp hended⟩
  intro h
  apply h.notFreed 0 (.inr ⟨.variant 0 0, ?_, rfl⟩)
  · rw [hfreed]
    exact List.mem_cons_self
  · rw [hsynths]
    exact List.mem_cons_self

end GraphDefLib

end PoopWorms.Server
