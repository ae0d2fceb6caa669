import PoopWorms.Osc.Bundle
import PoopWorms.Server.Alignment

/-!
# The loop over a bundle

`PerformOSCBundle` takes the size of each element from the packet and hands so many bytes to
`PerformOSCMessage`. Nothing is compared with the size of the packet but the pointer, before
each turn. The commands may change the packet in place.
-/

namespace PoopWorms.Server.BundleLoop

open Octets Osc Loops Live

/-- What a call of `PerformOSCMessage` is given. -/
structure Handed where
  inSize : ℤ
  inData : ℤ
deriving DecidableEq

/-- The packet, the pointer into it, and the calls so far. -/
structure BundleState where
  mem : List Byte
  data : ℤ
  handed : List Handed

/-- What `PerformOSCMessage` leaves of the packet. -/
abbrev Performing := List Byte → Handed → List Byte

/-- One turn of the loop of `PerformOSCBundle`. -/
def bundleTurn (perform : Performing) (dataEnd : ℤ) (s : BundleState) :
    Option (Turn BundleState BundleState) :=
  if s.data < dataEnd then do
    let msgSize ← intAt s.mem s.data
    let msg : Handed := ⟨msgSize.toInt, s.data + 4⟩
    return .again ⟨perform s.mem msg, s.data + 4 + msgSize.toInt, s.handed ++ [msg]⟩
  else some (.stop s)

/-- `PerformOSCBundle` comes to its end. -/
def Performs (perform : Performing) (packet : List Byte) (s : BundleState) : Prop :=
  Ends (bundleTurn perform packet.length) ⟨packet, 16, []⟩ s

/-- The message lies in the packet. -/
def Handed.Inside (msg : Handed) (size : ℤ) : Prop :=
  0 ≤ msg.inSize ∧ 0 ≤ msg.inData ∧ msg.inData + msg.inSize ≤ size

/-- `PerformOSCBundle` comes to its end, and has handed out messages in the packet only. -/
def Bounded (perform : Performing) (packet : List Byte) : Prop :=
  ∃ s, Performs perform packet s ∧ ∀ msg ∈ s.handed, msg.Inside packet.length

/-- From `data` on, every size that is met is one of an element in the packet, as the packet
is then. -/
inductive Fits (perform : Performing) (dataEnd : ℤ) : List Byte → ℤ → Prop
  | ended {mem : List Byte} {data : ℤ} (h : ¬ data < dataEnd) : Fits perform dataEnd mem data
  | element {mem : List Byte} {data : ℤ} {msgSize : Word} (h : data < dataEnd)
    (hsize : intAt mem data = some msgSize) (hpos : 0 ≤ msgSize.toInt)
    (hfits : data + 4 + msgSize.toInt ≤ dataEnd)
    (rest : Fits perform dataEnd (perform mem ⟨msgSize.toInt, data + 4⟩)
      (data + 4 + msgSize.toInt)) : Fits perform dataEnd mem data

/-- The commands leave the size of the packet and all bytes behind their message. -/
def KeepsRest (perform : Performing) : Prop :=
  ∀ mem msg, Handed.Inside msg mem.length → (perform mem msg).length = mem.length ∧
    (perform mem msg).drop (msg.inData + msg.inSize).toNat =
      mem.drop (msg.inData + msg.inSize).toNat

/-- The size of an element in front of it. -/
def element (bytes : List Byte) : List Byte := lengthBytes bytes.length ++ bytes

/-- Behind the first sixteen bytes of the packet there are elements, and nothing else. -/
def Elements (packet : List Byte) : Prop :=
  ∃ elements : List (List Byte), (∀ bytes ∈ elements, bytes.length < 2 ^ 31) ∧
    packet.drop 16 = elements.flatMap element

variable {perform : Performing} {dataEnd data : ℤ} {mem packet : List Byte} {s s' : BundleState}

theorem bundleTurn_stop (h : ¬ s.data < dataEnd) :
    bundleTurn perform dataEnd s = some (.stop s) := if_neg h

theorem bundleTurn_again {msgSize : Word} (h : s.data < dataEnd)
    (hsize : intAt s.mem s.data = some msgSize) :
    bundleTurn perform dataEnd s = some (.again
      ⟨perform s.mem ⟨msgSize.toInt, s.data + 4⟩, s.data + 4 + msgSize.toInt,
        s.handed ++ [⟨msgSize.toInt, s.data + 4⟩]⟩) := by
  rw [bundleTurn, if_pos h, hsize]
  rfl

/-- A turn stops at the end of the packet, or reads a size. -/
theorem bundleTurn_cases {r : Turn BundleState BundleState}
    (h : bundleTurn perform dataEnd s = some r) :
    (¬ s.data < dataEnd ∧ r = .stop s) ∨
    ∃ msgSize, s.data < dataEnd ∧ intAt s.mem s.data = some msgSize ∧ r = .again
      ⟨perform s.mem ⟨msgSize.toInt, s.data + 4⟩, s.data + 4 + msgSize.toInt,
        s.handed ++ [⟨msgSize.toInt, s.data + 4⟩]⟩ := by
  by_cases hlt : s.data < dataEnd
  · cases hsize : intAt s.mem s.data with
    | none =>
      rw [bundleTurn, if_pos hlt, hsize] at h
      cases h
    | some msgSize =>
      rw [bundleTurn_again hlt hsize] at h
      exact .inr ⟨msgSize, hlt, rfl, (Option.some.inj h).symm⟩
  · rw [bundleTurn_stop hlt] at h
    exact .inl ⟨hlt, (Option.some.inj h).symm⟩

/-- What has been handed out stays so. -/
theorem handed_subset (h : Ends (bundleTurn perform dataEnd) s s') : s.handed ⊆ s'.handed := by
  induction h with
  | stop hturn =>
    rcases bundleTurn_cases hturn with ⟨-, heq⟩ | ⟨_, -, -, heq⟩
    · cases heq
      exact List.Subset.refl _
    · cases heq
  | again hturn _ ih =>
    rcases bundleTurn_cases hturn with ⟨-, heq⟩ | ⟨_, -, -, heq⟩
    · cases heq
    · cases heq
      exact fun msg hmsg => ih (List.mem_append_left _ hmsg)

/-- Where all messages are inside, the sizes on the way fit. -/
theorem fits_of_ends (h : Ends (bundleTurn perform dataEnd) s s')
    (hinside : ∀ msg ∈ s'.handed, msg.Inside dataEnd) : Fits perform dataEnd s.mem s.data := by
  induction h with
  | stop hturn =>
    rcases bundleTurn_cases hturn with ⟨hend, -⟩ | ⟨_, -, -, heq⟩
    · exact .ended hend
    · cases heq
  | again hturn hrest ih =>
    rcases bundleTurn_cases hturn with ⟨-, heq⟩ | ⟨msgSize, hlt, hsize, heq⟩
    · cases heq
    · cases heq
      have hmsg := hinside _ (handed_subset hrest (List.mem_append_right _ List.mem_cons_self))
      exact .element hlt hsize hmsg.1 hmsg.2.2 (ih hinside)

/-- Where the sizes fit, each element is behind the one before it, up to the end. -/
theorem ends_of_fits (h : Fits perform dataEnd mem data) (hdata : 0 ≤ data)
    (handed : List Handed) (hinside : ∀ msg ∈ handed, msg.Inside dataEnd) :
    ∃ s, Ends (bundleTurn perform dataEnd) ⟨mem, data, handed⟩ s ∧
      ∀ msg ∈ s.handed, msg.Inside dataEnd := by
  induction h generalizing handed with
  | ended hend => exact ⟨_, .stop (bundleTurn_stop hend), hinside⟩
  | @element mem data msgSize hlt hsize hpos hfits _ ih =>
    have hinside' : ∀ msg ∈ handed ++ [⟨msgSize.toInt, data + 4⟩], msg.Inside dataEnd := by
      intro msg hmsg
      rcases List.mem_append.mp hmsg with hmsg | hmsg
      · exact hinside msg hmsg
      · rw [List.mem_singleton.mp hmsg]
        exact ⟨hpos, show 0 ≤ data + 4 by omega, hfits⟩
    obtain ⟨s, hends, hs⟩ := ih (by omega) _ hinside'
    exact ⟨s, .again (bundleTurn_again hlt hsize) hends, hs⟩

/-! ## In terms of the bytes -/

theorem length_lengthBytes (n : ℕ) : (lengthBytes n).length = 4 := rfl

theorem intAt_lengthBytes {xs ys : List Byte} {n : ℕ} (hmem : mem = xs ++ (lengthBytes n ++ ys))
    (hdata : data = xs.length) : intAt mem data = some (BitVec.ofNat 32 n) := by
  rw [intAt_append hmem hdata (length_lengthBytes n)]
  exact congrArg some (MsgIter.swap32_wordOf_beBytes _)

/-- The four bytes that a size is read from. -/
theorem lengthBytes_of_intAt {msgSize : Word} (hdata : 0 ≤ data)
    (hsize : intAt mem data = some msgSize) (hpos : 0 ≤ msgSize.toInt) :
    ∃ rest, mem.drop data.toNat = lengthBytes msgSize.toInt.toNat ++ rest := by
  rw [intAt, if_pos hdata] at hsize
  obtain ⟨x, y, z, w, rest, hdrop, rfl⟩ := oscInt_eq_some hsize
  refine ⟨rest, ?_⟩
  have hnat : ((swap32 (leWord x y z w)).toInt.toNat : ℤ) = (swap32 (leWord x y z w)).toInt :=
    Int.toNat_of_nonneg hpos
  rw [hdrop, lengthBytes, ← BitVec.ofInt_natCast, hnat, BitVec.ofInt_toInt, swap32_swap32,
    leBytes_leWord]
  rfl

/-- An element that fits is in the bytes. -/
theorem elements_of_fits (hkeeps : KeepsRest perform) (h : Fits perform dataEnd mem data)
    (hdata : 0 ≤ data) (hmem : mem.length = dataEnd) :
    ∃ elements : List (List Byte), (∀ bytes ∈ elements, bytes.length < 2 ^ 31) ∧
      mem.drop data.toNat = elements.flatMap element := by
  induction h with
  | @ended mem data hend => exact ⟨[], by simp, by simp; omega⟩
  | @element mem data msgSize hlt hsize hpos hfits _ ih =>
    obtain ⟨hlength, hrest⟩ := hkeeps mem ⟨msgSize.toInt, data + 4⟩
      ⟨hpos, show 0 ≤ data + 4 by omega, show data + 4 + msgSize.toInt ≤ mem.length by omega⟩
    obtain ⟨elements, hsmall, helements⟩ := ih (by omega) (by rw [hlength, hmem])
    obtain ⟨rest, hdrop⟩ := lengthBytes_of_intAt hdata hsize hpos
    generalize hn : msgSize.toInt.toNat = n at hdrop
    have hsize' : msgSize.toInt = n := by omega
    have hlen := congrArg List.length hdrop
    rw [List.length_drop, List.length_append, length_lengthBytes] at hlen
    -- the bytes behind the size, up to the next element
    have hbehind : mem.drop (data + 4 + msgSize.toInt).toNat = rest.drop n := by
      have hsum : (data + 4 + msgSize.toInt).toNat = data.toNat + (4 + n) := by omega
      rw [hsum, ← List.drop_drop, hdrop, ← List.drop_drop, ← length_lengthBytes n, List.drop_left]
    have htake : (rest.take n).length = n := by
      rw [List.length_take]
      omega
    refine ⟨rest.take n :: elements, ?_, ?_⟩
    · intro bytes hbytes
      rcases List.mem_cons.mp hbytes with rfl | hbytes
      · have hlt := msgSize.toInt_lt
        omega
      · exact hsmall bytes hbytes
    · rw [List.flatMap_cons, ← helements, hrest, hbehind, element, htake, hdrop, List.append_assoc,
        List.take_append_drop]

/-- Elements in the bytes fit, one after the other. -/
theorem fits_of_elements (hkeeps : KeepsRest perform) (elements : List (List Byte))
    (hsmall : ∀ bytes ∈ elements, bytes.length < 2 ^ 31) (hdata : 0 ≤ data)
    (hmem : mem.length = dataEnd) (helements : mem.drop data.toNat = elements.flatMap element) :
    Fits perform dataEnd mem data := by
  induction elements generalizing mem data with
  | nil =>
    have hlen := congrArg List.length helements
    rw [List.length_drop] at hlen
    exact .ended (by change _ = 0 at hlen; omega)
  | cons bytes elements ih =>
    rw [List.flatMap_cons, element, List.append_assoc] at helements
    have hlen := congrArg List.length helements
    rw [List.length_drop, List.length_append, List.length_append, length_lengthBytes] at hlen
    have hcut : mem = mem.take data.toNat ++ (lengthBytes bytes.length ++
        (bytes ++ elements.flatMap element)) := by
      rw [← helements, List.take_append_drop]
    have hfront : (mem.take data.toNat).length = data.toNat := by
      rw [List.length_take]
      omega
    have hint : intAt mem data = some (BitVec.ofNat 32 bytes.length) :=
      intAt_lengthBytes hcut (by omega)
    have hlt := hsmall bytes List.mem_cons_self
    have htoInt : (BitVec.ofNat 32 bytes.length).toInt = bytes.length := by
      have hnat : (BitVec.ofNat 32 bytes.length).toNat = bytes.length := by
        rw [BitVec.toNat_ofNat, Nat.mod_eq_of_lt (by omega)]
      rw [BitVec.toInt_eq_toNat_of_lt (by omega), hnat]
    obtain ⟨hlength, hrest⟩ := hkeeps mem ⟨bytes.length, data + 4⟩
      ⟨Int.natCast_nonneg _, show 0 ≤ data + 4 by omega,
        show data + 4 + bytes.length ≤ mem.length by omega⟩
    refine .element (by omega) hint (by omega) (by omega) ?_
    rw [htoInt]
    apply ih (fun b hb => hsmall b (List.mem_cons_of_mem _ hb)) (by omega) (by rw [hlength, hmem])
    have hsum : (data + 4 + bytes.length).toNat = data.toNat + 4 + bytes.length := by omega
    change (perform mem ⟨bytes.length, data + 4⟩).drop (data + 4 + bytes.length).toNat = _ at hrest
    rw [hrest, hsum, ← List.drop_drop, ← List.drop_drop, helements,
      ← length_lengthBytes bytes.length, List.drop_left, List.drop_left]

theorem bounded_iff_fits : Bounded perform packet ↔ Fits perform packet.length packet 16 := by
  constructor
  · intro hbounded
    obtain ⟨s, hends, hinside⟩ := hbounded
    exact fits_of_ends hends hinside
  · intro hfits
    exact ends_of_fits hfits (by omega) [] nofun

/-- The loop ends and hands out messages in the packet only, if and only if each size it meets
fits; where the commands leave what is behind their message, if and only if the packet is one
of whole elements. -/
theorem bounded_iff (perform : Performing) (packet : List Byte) :
    (Bounded perform packet ↔ Fits perform packet.length packet 16) ∧
    (KeepsRest perform → (Bounded perform packet ↔ Elements packet)) := by
  refine ⟨bounded_iff_fits, fun hkeeps => ?_⟩
  rw [bounded_iff_fits]
  constructor
  · intro hfits
    exact elements_of_fits hkeeps hfits (by omega) rfl
  · intro helements
    obtain ⟨elements, hsmall, hdrop⟩ := helements
    exact fits_of_elements hkeeps elements hsmall (by omega) rfl hdrop

/-- Commands that change nothing, and two elements, the second of them empty. -/
theorem bounded_iff_twoElements :
    KeepsRest (fun mem _ => mem) ∧ Bounded (fun mem _ => mem)
      (bundleString ++ [0#8] ++ [0#8, 0#8, 0#8, 0#8, 0#8, 0#8, 0#8, 1#8] ++
        element [47#8, 97#8, 0#8, 0#8] ++ element []) := by
  have hkeeps : KeepsRest (fun mem _ => mem) := fun _ _ _ => ⟨rfl, rfl⟩
  refine ⟨hkeeps, ((bounded_iff _ _).2 hkeeps).mpr ⟨[[47#8, 97#8, 0#8, 0#8], []], ?_, rfl⟩⟩
  simp

/-- A bundle with the size -4 in it. -/
def backwards : List Byte :=
  bundleString ++ [0#8] ++ [0#8, 0#8, 0#8, 0#8, 0#8, 0#8, 0#8, 1#8] ++
    [0xFF#8, 0xFF#8, 0xFF#8, 0xFC#8]

/-- The loop comes back to the same element, and never ends. -/
theorem not_bounded_backwards :
    (∀ s, ¬ Performs (fun mem _ => mem) backwards s) ∧ ¬ Bounded (fun mem _ => mem) backwards := by
  have hnever : ∀ s, ¬ Performs (fun mem _ => mem) backwards s := by
    intro s hends
    unfold Performs at hends
    generalize hs : (⟨backwards, 16, []⟩ : BundleState) = s₀ at hends
    have hmem : s₀.mem = backwards ∧ s₀.data = 16 := by
      rw [← hs]
      exact ⟨rfl, rfl⟩
    clear hs
    induction hends with
    | stop hturn =>
      rcases bundleTurn_cases hturn with ⟨hend, -⟩ | ⟨_, -, -, heq⟩
      · rw [hmem.2] at hend
        exact hend (by decide)
      · cases heq
    | again hturn _ ih =>
      rcases bundleTurn_cases hturn with ⟨-, heq⟩ | ⟨msgSize, -, hsize, heq⟩
      · cases heq
      · cases heq
        rw [hmem.1, hmem.2] at hsize
        have hfour : msgSize = 0xFFFFFFFC#32 := (Option.some.inj hsize).symm
        apply ih
        rw [hmem.2, hfour]
        exact ⟨hmem.1, rfl⟩
  exact ⟨hnever, fun ⟨s, hperforms, _⟩ => hnever s hperforms⟩

end PoopWorms.Server.BundleLoop
