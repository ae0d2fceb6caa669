import PoopWorms.Server.Alignment

/-!
# What a dump does to a packet

The dumper reads a packet with the accessors of the commands, before the commands do. `Plain` says
of the bytes of a packet that the dumper comes to its end in them and that every float on its way
reads the same from both ends; such a packet is handed on as it was received. A message with any
other float in it is handed on with the bytes of its floats swapped.
-/

namespace PoopWorms.Server.Live

open Octets Osc Loops

/-! ## Plain packets -/

/-- The tags that the dumper knows. -/
def dumpedTags : List Byte :=
  [chr 'i', chr 'f', chr 'd', chr 's', chr 'b', chr '[', chr ']']

/-- Where the data of the tag `c` ends that begins at `a`. -/
def dataEnd (mem : List Byte) (c : Byte) (a : ℤ) : Option ℤ :=
  if c = chr 'i' ∨ c = chr 'f' then (intAt mem a).map fun _ => a + 4
  else if c = chr 'd' then (doubleAt mem a).map fun _ => a + 8
  else if c = chr 's' then strskipAt mem a
  else if c = chr 'b' then (intAt mem a).map fun len => a + 4 + len4 len
  else some a

/-- The word at `a` is the same with its bytes swapped. -/
def Palindrome (mem : List Byte) (a : ℤ) : Prop := ∃ u, intAt mem a = some u ∧ swap32 u = u

/-- The rest of a message ends, and its floats are palindromes. -/
inductive ArgsPlain : LiveIter → Prop
  | ended {it : LiveIter} (hend : it.remain = 0) : ArgsPlain it
  | unknown {it : LiveIter} {c : Byte} (hc : it.nextTag (chr 'i') = some c)
    (hunknown : c ∉ dumpedTags) : ArgsPlain it
  | argument {it : LiveIter} {c : Byte} {b : ℤ} (hmore : it.remain ≠ 0)
    (hc : it.nextTag (chr 'i') = some c) (hknown : c ∈ dumpedTags)
    (hinside : c ∈ [chr 'i', chr 'f', chr 'd', chr 's'] → 0 < it.remain)
    (hfloat : c = chr 'f' → Palindrome it.mem it.rdpos)
    (hend : dataEnd it.mem c it.rdpos = some b)
    (rest : ArgsPlain (LiveIter.next { it with rdpos := b })) : ArgsPlain it

def MessagePlain (mem : List Byte) (inSize inData : ℤ) : Prop :=
  ∃ it, openMsg mem inSize inData = some it ∧ ArgsPlain it

/-- The elements of a bundle, from `data` on. -/
inductive ElementsPlain (mem : List Byte) (dataEnd : ℤ) : ℤ → Prop
  | ended {data : ℤ} (h : ¬ data < dataEnd) : ElementsPlain mem dataEnd data
  | element {data : ℤ} {msgSize : Word} (h : data < dataEnd)
    (hsize : intAt mem data = some msgSize) (hmsg : MessagePlain mem msgSize.toInt (data + 4))
    (rest : ElementsPlain mem dataEnd (data + 4 + msgSize.toInt)) : ElementsPlain mem dataEnd data

/-- A bundle of plain messages, or a plain message. -/
def PacketPlain (mem : List Byte) : Prop :=
  strcmpAt mem bundleTag 0 = some true ∧ (doubleAt mem 8).isSome ∧
      ElementsPlain mem mem.length 16 ∨
    strcmpAt mem bundleTag 0 = some false ∧ MessagePlain mem mem.length 0

/-- The mode does not ask for the arguments, or the packet is plain. -/
def Plain (mDumpOSC : Word) (data : List Byte) : Prop :=
  mDumpOSC &&& 1#32 ≠ 0#32 → PacketPlain data

/-- The engine is given the bytes that have been received. -/
def Transparent (fpu : DoubleUnit) (mDumpOSC : Word) (data : List Byte) : Prop :=
  ∃ turns, received fpu turns mDumpOSC data = some data

/-! ## What a dump leaves, without a bound on the turns -/

section Dumps

variable {fpu : DoubleUnit} {mem mem' mem'' : List Byte} {inSize inData dataEnd : ℤ}

/-- `dumpOSCmsg` ends, and leaves `mem'`. -/
def Dumps (fpu : DoubleUnit) (mem : List Byte) (inSize inData : ℤ) (mem' : List Byte) : Prop :=
  ∃ it it', openMsg mem inSize inData = some it ∧ Ends (dumpTurn fpu) it it' ∧ it'.mem = mem'

/-- The loop over the elements of a bundle ends, and leaves `mem'`. -/
inductive DumpsElements (fpu : DoubleUnit) (dataEnd : ℤ) : List Byte → ℤ → List Byte → Prop
  | ended {mem : List Byte} {data : ℤ} (h : ¬ data < dataEnd) :
    DumpsElements fpu dataEnd mem data mem
  | element {mem mem' mem'' : List Byte} {data : ℤ} {msgSize : Word} (h : data < dataEnd)
    (hsize : intAt mem data = some msgSize)
    (hmsg : Dumps fpu mem msgSize.toInt (data + 4) mem')
    (rest : DumpsElements fpu dataEnd mem' (data + 4 + msgSize.toInt) mem'') :
    DumpsElements fpu dataEnd mem data mem''

/-- `dumpOSC` ends, and leaves `mem'`. -/
def DumpsPacket (fpu : DoubleUnit) (mem mem' : List Byte) : Prop :=
  strcmpAt mem bundleTag 0 = some true ∧ (doubleAt mem 8).isSome ∧
      DumpsElements fpu mem.length mem 16 mem' ∨
    strcmpAt mem bundleTag 0 = some false ∧ Dumps fpu mem mem.length 0 mem'

theorem dumpOSCmsg_mono {n n' : ℕ} (hn : n ≤ n')
    (h : dumpOSCmsg fpu n mem inSize inData = some mem') :
    dumpOSCmsg fpu n' mem inSize inData = some mem' := by
  simp only [dumpOSCmsg, Option.bind_eq_bind, Option.bind_eq_some_iff] at h ⊢
  obtain ⟨it, hopen, it', hloop, hmem⟩ := h
  exact ⟨it, hopen, it', loop_mono (fun _ _ h => h) hn hloop, hmem⟩

theorem bundleTurn_mono {n n' : ℕ} (hn : n ≤ n') (s : List Byte × ℤ)
    (r : Turn (List Byte × ℤ) (List Byte)) (h : bundleTurn fpu n dataEnd s = some r) :
    bundleTurn fpu n' dataEnd s = some r := by
  unfold bundleTurn at h ⊢
  by_cases hlt : s.2 < dataEnd
  · rw [if_pos hlt] at h ⊢
    simp only [Option.bind_eq_bind, Option.bind_eq_some_iff] at h ⊢
    obtain ⟨msgSize, hsize, mem, hmsg, hr⟩ := h
    exact ⟨msgSize, hsize, mem, dumpOSCmsg_mono hn hmsg, hr⟩
  · rw [if_neg hlt] at h ⊢
    exact h

theorem dumpPacket_mono {n n' : ℕ} (hn : n ≤ n') {size : ℤ}
    (h : dumpPacket fpu n size mem = some mem') : dumpPacket fpu n' size mem = some mem' := by
  simp only [dumpPacket, Option.bind_eq_bind, Option.bind_eq_some_iff] at h ⊢
  obtain ⟨isBundle, hcmp, h⟩ := h
  refine ⟨isBundle, hcmp, ?_⟩
  cases isBundle with
  | true =>
    simp only [if_true, Option.bind_eq_some_iff] at h ⊢
    obtain ⟨time, htime, hloop⟩ := h
    exact ⟨time, htime, loop_mono (bundleTurn_mono hn) hn hloop⟩
  | false => exact dumpOSCmsg_mono hn h

theorem Dumps.eventually (h : Dumps fpu mem inSize inData mem') :
    ∃ enough, ∀ turns, enough ≤ turns → dumpOSCmsg fpu turns mem inSize inData = some mem' := by
  obtain ⟨it, it', hopen, hends, hmem⟩ := h
  obtain ⟨n, hloop⟩ := exists_loop_iff.mpr hends
  refine ⟨n, fun turns hturns => dumpOSCmsg_mono hturns ?_⟩
  unfold dumpOSCmsg
  rw [hopen]
  simp only [Option.bind_eq_bind, Option.bind_some, hloop, ← hmem]
  rfl

theorem DumpsElements.eventually {data : ℤ} (h : DumpsElements fpu dataEnd mem data mem') :
    ∃ enough, ∀ turns, enough ≤ turns →
      loop (bundleTurn fpu turns dataEnd) turns (mem, data) = some mem' := by
  induction h with
  | @ended mem data h =>
    refine ⟨1, fun turns hturns => ?_⟩
    obtain ⟨n, rfl⟩ : ∃ n, turns = n + 1 := ⟨turns - 1, by omega⟩
    exact loop_stop (if_neg h)
  | @element mem mem' mem'' data msgSize h hsize hmsg _ ih =>
    obtain ⟨first, hfirst⟩ := hmsg.eventually
    obtain ⟨enough, hrest⟩ := ih
    refine ⟨max first enough + 1, fun turns hturns => ?_⟩
    obtain ⟨n, rfl⟩ : ∃ n, turns = n + 1 := ⟨turns - 1, by omega⟩
    have hturn : bundleTurn fpu (n + 1) dataEnd (mem, data) =
        some (.again (mem', data + 4 + msgSize.toInt)) := by
      unfold bundleTurn
      rw [if_pos h]
      simp only [Option.bind_eq_bind, hsize, Option.bind_some, hfirst (n + 1) (by omega)]
      rfl
    rw [loop_again hturn]
    -- the turns inside an element have one to spare
    exact loop_mono (bundleTurn_mono (Nat.le_succ n)) (Nat.le_refl n) (hrest n (by omega))

theorem DumpsPacket.eventually (h : DumpsPacket fpu mem mem') :
    ∃ enough, ∀ turns, enough ≤ turns → dumpPacket fpu turns mem.length mem = some mem' := by
  rcases h with ⟨hcmp, htime, helements⟩ | ⟨hcmp, hmsg⟩
  · obtain ⟨enough, hloop⟩ := helements.eventually
    obtain ⟨time, htime⟩ := Option.isSome_iff_exists.mp htime
    refine ⟨enough, fun turns hturns => ?_⟩
    unfold dumpPacket
    rw [hcmp]
    simp only [Option.bind_eq_bind, Option.bind_some, if_true, htime]
    exact hloop turns hturns
  · obtain ⟨enough, hdump⟩ := hmsg.eventually
    refine ⟨enough, fun turns hturns => ?_⟩
    unfold dumpPacket
    rw [hcmp]
    exact hdump turns hturns

/-- The bytes of a packet are there to be printed. -/
theorem hexdump_eq (data : List Byte) : hexdump data.length data = some () := by
  have hall : ∀ is : List ℕ, (∀ i ∈ is, i < data.length) →
      (is.forM fun i => (byteAt data i).map fun _ => ()) = some () := by
    intro is his
    induction is with
    | nil => rfl
    | cons i is ih =>
      have hi : i < data.length := his i (by simp)
      have hbyte : byteAt data i = some data[i] := by
        rw [byteAt, if_pos (by omega), Int.toNat_natCast, List.getElem?_eq_getElem hi]
      show (((byteAt data i).map fun _ => ()).bind fun _ => is.forM _) = _
      rw [hbyte]
      exact ih fun j hj => his j (by simp [hj])
  exact hall _ fun i hi => by simpa using hi

theorem received_mono {n n' : ℕ} (hn : n ≤ n') {mDumpOSC : Word} {data data' : List Byte}
    (h : received fpu n mDumpOSC data = some data') :
    received fpu n' mDumpOSC data = some data' := by
  unfold received at h ⊢
  by_cases hmode : mDumpOSC ≠ 0#32
  · rw [if_pos hmode] at h ⊢
    simp only [dumpOSC, Option.bind_eq_bind, Option.bind_eq_some_iff] at h ⊢
    obtain ⟨mem, hdump, hhex⟩ := h
    refine ⟨mem, ?_, hhex⟩
    unfold dumpArgs at hdump ⊢
    by_cases hargs : mDumpOSC &&& 1#32 ≠ 0#32
    · rw [if_pos hargs] at hdump ⊢
      exact dumpPacket_mono hn hdump
    · rw [if_neg hargs] at hdump ⊢
      exact hdump
  · rw [if_neg hmode] at h ⊢
    exact h

theorem dumpHex_eq (mode : Word) (data : List Byte) :
    dumpHex mode data.length data = some () := by
  unfold dumpHex
  by_cases hhex : mode &&& 2#32 ≠ 0#32
  · rw [if_pos hhex, hexdump_eq]
  · rw [if_neg hhex]

/-- Without the first bit of the mode the bytes are not touched. -/
theorem received_of_not {mDumpOSC : Word} (hargs : ¬ mDumpOSC &&& 1#32 ≠ 0#32) (turns : ℕ)
    (data : List Byte) : received fpu turns mDumpOSC data = some data := by
  unfold received
  by_cases hmode : mDumpOSC ≠ 0#32
  · rw [if_pos hmode]
    unfold dumpOSC dumpArgs
    rw [if_neg hargs]
    simp only [Option.bind_eq_bind, Option.bind_some, dumpHex_eq]
    rfl
  · rw [if_neg hmode]

theorem DumpsPacket.received {mDumpOSC : Word} (hargs : mDumpOSC &&& 1#32 ≠ 0#32)
    {data data' : List Byte} (h : DumpsPacket fpu data data') (hlen : data'.length = data.length) :
    ∃ turns, received fpu turns mDumpOSC data = some data' := by
  obtain ⟨turns, hdump⟩ := h.eventually
  have hmode : mDumpOSC ≠ 0#32 := by
    intro hzero
    rw [hzero] at hargs
    exact hargs (by decide)
  have hhex := dumpHex_eq mDumpOSC data'
  rw [hlen] at hhex
  refine ⟨turns, ?_⟩
  unfold Live.received
  rw [if_pos hmode]
  unfold dumpOSC dumpArgs
  rw [if_pos hargs, hdump turns (Nat.le_refl turns)]
  simp only [Option.bind_eq_bind, Option.bind_some, hhex]
  rfl

/-- What the engine is given is decided by what the dump leaves. -/
theorem transparent_iff {mDumpOSC : Word} (hargs : mDumpOSC &&& 1#32 ≠ 0#32)
    {data data' : List Byte} (h : DumpsPacket fpu data data') (hlen : data'.length = data.length) :
    Transparent fpu mDumpOSC data ↔ data' = data := by
  obtain ⟨n, hn⟩ := h.received hargs hlen
  constructor
  · intro htransparent
    obtain ⟨n', hn'⟩ := htransparent
    have hmax := received_mono (Nat.le_max_left n n') hn
    rw [received_mono (Nat.le_max_right n n') hn'] at hmax
    exact (Option.some.inj hmax).symm
  · intro hsame
    exact ⟨n, hsame ▸ hn⟩

end Dumps

/-! ## Plain packets are not changed -/

section Plain

variable {fpu : DoubleUnit} {mem : List Byte}

theorem bind_again {α : Type} {o : Option (α × LiveIter)} {it : LiveIter}
    (h : o.map Prod.snd = some it) :
    (o.bind fun r => some (.again r.2)) = some (.again it : Turn LiveIter LiveIter) := by
  obtain ⟨r, hr, rfl⟩ := Option.map_eq_some_iff.mp h
  rw [hr]
  rfl

/-- Swapping a palindrome leaves the memory as it was. -/
theorem floatAt_palindrome {a : ℤ} (h : Palindrome mem a) : ∃ u, floatAt mem a = some (u, mem) := by
  obtain ⟨u, hint, hswap⟩ := h
  refine ⟨u, ?_⟩
  unfold floatAt
  rw [hint]
  have hpos : 0 ≤ a := by
    by_contra hneg
    rw [intAt, if_neg hneg] at hint
    exact absurd hint (by simp)
  rw [intAt, if_pos hpos] at hint
  obtain ⟨x, y, z, w, rest, hdrop, hu⟩ := oscInt_eq_some hint
  have hbytes : leBytes u = [x, y, z, w] := by
    rw [← hswap, hu, swap32_swap32, leBytes_leWord]
  have hmem : mem = mem.take a.toNat ++ ([x, y, z, w] ++ rest) := by
    conv_lhs => rw [← List.take_append_drop a.toNat mem, hdrop]
    rfl
  have hlt : a.toNat < mem.length := by
    have hlength := congrArg List.length hdrop
    simp only [List.length_drop, List.length_cons] at hlength
    omega
  have hat : a = (mem.take a.toNat).length := by
    rw [List.length_take]
    omega
  have hpoke : poke mem a.toNat (leBytes u) = _ := poke_at hmem hat (by rw [length_leBytes]; rfl)
  rw [hbytes, ← hmem] at hpoke
  simp only [Option.bind_eq_bind, Option.bind_some, hbytes, hpoke]
  rfl

variable {it : LiveIter} {b : ℤ}

theorem readInt_plain (hend : (intAt it.mem it.rdpos).map (fun _ => it.rdpos + 4) = some b) :
    ∃ u, it.readInt = some (u, { it with rdpos := b }) := by
  obtain ⟨u, hu, rfl⟩ := Option.map_eq_some_iff.mp hend
  refine ⟨u, ?_⟩
  unfold LiveIter.readInt
  rw [hu]
  rfl

/-- A turn takes the argument, and leaves the memory. -/
theorem dumpTurn_plain {c : Byte} (hmore : it.remain ≠ 0) (hc : it.nextTag (chr 'i') = some c)
    (hknown : c ∈ dumpedTags)
    (hinside : c ∈ [chr 'i', chr 'f', chr 'd', chr 's'] → 0 < it.remain)
    (hfloat : c = chr 'f' → Palindrome it.mem it.rdpos)
    (hend : dataEnd it.mem c it.rdpos = some b) :
    dumpTurn fpu it = some (.again (LiveIter.next { it with rdpos := b })) := by
  -- only the tag `'i'` can be there without type tags
  have htag : c = chr 'i' ∧ it.tags = none ∨ it.tags.isSome ∧ ∀ d, it.nextTag d = some c := by
    cases ht : it.tags with
    | none =>
      unfold LiveIter.nextTag at hc
      rw [ht] at hc
      exact .inl ⟨(Option.some.inj hc).symm, rfl⟩
    | some tags =>
      refine .inr ⟨rfl, fun d => ?_⟩
      unfold LiveIter.nextTag at hc ⊢
      rw [ht] at hc ⊢
      exact hc
  unfold dumpTurn
  rw [if_neg hmore, hc]
  simp only [dumpedTags, List.mem_cons, List.not_mem_nil, or_false] at hknown
  rcases hknown with rfl | rfl | rfl | rfl | rfl | rfl | rfl
  · -- an int, with its tag or without tags
    have hpos := hinside (by simp)
    obtain ⟨u, hread⟩ := readInt_plain hend
    refine bind_again (o := it.geti fpu 0#32) ?_
    unfold LiveIter.geti LiveIter.getNumber
    rw [if_neg (by omega)]
    rcases htag with ⟨-, hnone⟩ | ⟨hsome, htag⟩
    · rw [if_neg (by simp [hnone]), hread]
      rfl
    · rw [if_pos hsome, htag, hread]
      rfl
  · have hpos := hinside (by simp)
    obtain ⟨hsome, htag⟩ := htag.resolve_left fun h => absurd h.1 (by decide)
    obtain ⟨u, hu⟩ := floatAt_palindrome (hfloat rfl)
    obtain ⟨v, hread⟩ := readInt_plain hend
    have hb : it.rdpos + 4 = b := by
      obtain ⟨-, -, hb⟩ := Option.map_eq_some_iff.mp hend
      exact hb
    have hread : it.readFloat = some (u, { it with rdpos := b }) := by
      unfold LiveIter.readFloat
      rw [hu, hb]
      rfl
    refine bind_again (o := it.getf fpu 0#32) ?_
    unfold LiveIter.getf LiveIter.getNumber
    rw [if_neg (by omega), if_pos hsome, htag, hread]
    rfl
  · have hpos := hinside (by simp)
    obtain ⟨hsome, htag⟩ := htag.resolve_left fun h => absurd h.1 (by decide)
    obtain ⟨u, hu, rfl⟩ := Option.map_eq_some_iff.mp hend
    have hread : it.readDouble = some (u, { it with rdpos := it.rdpos + 8 }) := by
      unfold LiveIter.readDouble
      rw [hu]
      rfl
    refine bind_again (o := it.getd fpu 0#64) ?_
    unfold LiveIter.getd LiveIter.getNumber
    rw [if_neg (by omega), if_pos hsome, htag]
    show Option.map Prod.snd (it.readDouble.bind fun r => some (r.1, r.2.next)) = _
    rw [hread]
    rfl
  · have hpos := hinside (by simp)
    obtain ⟨-, htag⟩ := htag.resolve_left fun h => absurd h.1 (by decide)
    have hread : it.skipString = some { it with rdpos := b } := by
      have hskip : strskipAt it.mem it.rdpos = some b := hend
      unfold LiveIter.skipString
      rw [hskip]
      rfl
    refine bind_again (o := it.gets none) ?_
    unfold LiveIter.gets
    rw [if_neg (by omega), htag, hread]
    rfl
  · obtain ⟨-, htag⟩ := htag.resolve_left fun h => absurd h.1 (by decide)
    obtain ⟨len, hlen, rfl⟩ := Option.map_eq_some_iff.mp hend
    have hsize : ∃ size, it.getbsize = some size := by
      unfold LiveIter.getbsize
      rw [htag, hlen]
      split
      · exact ⟨_, rfl⟩
      · exact ⟨_, rfl⟩
    obtain ⟨size, hsize⟩ := hsize
    show (it.getbsize.bind fun _ => it.skipb.bind fun r => some (Turn.again r)) = _
    unfold LiveIter.skipb
    rw [hsize, hlen]
    rfl
  · obtain rfl : it.rdpos = b := Option.some.inj hend
    rfl
  · obtain rfl : it.rdpos = b := Option.some.inj hend
    rfl

theorem dumpTurn_unknown {c : Byte} (hmore : it.remain ≠ 0) (hc : it.nextTag (chr 'i') = some c)
    (hunknown : c ∉ dumpedTags) : dumpTurn fpu it = some (.stop it) := by
  unfold dumpTurn
  rw [if_neg hmore, hc]
  simp only [dumpedTags, List.mem_cons, List.not_mem_nil, or_false, not_or] at hunknown
  simp only [Option.bind_eq_bind, Option.bind_some, hunknown, or_self, if_false]
  rfl

theorem dumpTurn_ended (hend : it.remain = 0) : dumpTurn fpu it = some (.stop it) := if_pos hend

theorem ArgsPlain.ends (h : ArgsPlain it) :
    ∃ it', Ends (dumpTurn fpu) it it' ∧ it'.mem = it.mem := by
  induction h with
  | ended hend => exact ⟨_, .stop (dumpTurn_ended hend), rfl⟩
  | @unknown it c hc hunknown =>
    by_cases hend : it.remain = 0
    · exact ⟨_, .stop (dumpTurn_ended hend), rfl⟩
    · exact ⟨_, .stop (dumpTurn_unknown hend hc hunknown), rfl⟩
  | argument hmore hc hknown hinside hfloat hend _ ih =>
    obtain ⟨it', hends, hmem⟩ := ih
    exact ⟨it', .again (dumpTurn_plain hmore hc hknown hinside hfloat hend) hends, hmem⟩

/-- An iterator is made over the memory that it is given. -/
theorem openMsg_mem {inSize inData : ℤ} (h : openMsg mem inSize inData = some it) :
    it.mem = mem := by
  simp only [openMsg, LiveIter.init, Option.bind_eq_bind, Option.bind_eq_some_iff] at h
  obtain ⟨data, -, first, -, h⟩ := h
  split at h
  · obtain ⟨rdpos, -, h⟩ := Option.bind_eq_some_iff.mp h
    exact (Option.some.inj h) ▸ rfl
  · exact (Option.some.inj h) ▸ rfl

theorem MessagePlain.dumps {inSize inData : ℤ} (h : MessagePlain mem inSize inData) :
    Dumps fpu mem inSize inData mem := by
  obtain ⟨it, hopen, hplain⟩ := h
  obtain ⟨it', hends, hmem⟩ := hplain.ends
  exact ⟨it, it', hopen, hends, hmem.trans (openMsg_mem hopen)⟩

theorem ElementsPlain.dumps {dataEnd data : ℤ} (h : ElementsPlain mem dataEnd data) :
    DumpsElements fpu dataEnd mem data mem := by
  induction h with
  | ended h => exact .ended h
  | element h hsize hmsg _ ih => exact .element h hsize hmsg.dumps ih

theorem PacketPlain.dumps (h : PacketPlain mem) : DumpsPacket fpu mem mem := by
  rcases h with ⟨hcmp, htime, helements⟩ | ⟨hcmp, hmsg⟩
  · exact .inl ⟨hcmp, htime, helements.dumps⟩
  · exact .inr ⟨hcmp, hmsg.dumps⟩

/-- A plain packet is handed on as it was received. -/
theorem Plain.transparent {mDumpOSC : Word} {data : List Byte} (h : Plain mDumpOSC data) :
    Transparent fpu mDumpOSC data := by
  by_cases hargs : mDumpOSC &&& 1#32 ≠ 0#32
  · exact (transparent_iff hargs (h hargs).dumps rfl).mpr rfl
  · exact ⟨0, received_of_not hargs 0 data⟩

end Plain

/-! ## The arguments of a message -/

section Items

variable {fpu : DoubleUnit} {it : LiveIter} {front tags passed data post : List Byte}
  {items : List DumpItem} {x : DumpItem}

/-- The floats of an item. -/
def itemFloats : DumpItem → List Word
  | .float bits => [bits]
  | _ => []

/-- The data of the items behind a dump. -/
def turnedData (items : List DumpItem) : List Byte := items.flatMap turned

theorem length_turnedData (items : List DumpItem) :
    (turnedData items).length = (dumpData items).length := by
  induction items with
  | nil => rfl
  | cons x items ih =>
    have hx := length_turned x
    simp only [turnedData, dumpData, List.flatMap_cons, List.length_append] at ih ⊢
    omega

theorem tag_mem_dumpedTags (x : DumpItem) : x.tag ∈ dumpedTags := by
  cases x <;> simp [DumpItem.tag, dumpedTags]

/-- A turn takes the first item, and turns it round if it is a float. -/
theorem dumpTurn_item (h : it.Before front (x.tag :: tags) passed (x.data ++ data) post)
    (hmore : it.remain ≠ 0) :
    ∃ it', dumpTurn fpu it = some (.again it') ∧
      it'.Before (front ++ [x.tag]) tags (passed ++ turned x) data post := by
  have htag : it.nextTag (chr 'i') = some x.tag := h.nextTag_head (chr 'i')
  unfold dumpTurn
  rw [if_neg hmore, htag]
  cases x with
  | int n =>
    obtain ⟨it', hget, hiff, hbefore⟩ := getNumber_item (by show ¬ chr 'i' ∈ _; decide) h 0#32
    exact ⟨it', bind_again (o := it.geti fpu 0#32) hget,
      hbefore (hiff.mpr (.inl (by simp [DumpItem.tag])))⟩
  | float bits =>
    obtain ⟨it', hget, hiff, hbefore⟩ := getNumber_item (by show ¬ chr 'f' ∈ _; decide) h 0#32
    exact ⟨it', bind_again (o := it.getf fpu 0#32) hget,
      hbefore (hiff.mpr (.inl (by simp [DumpItem.tag])))⟩
  | double hi lo =>
    obtain ⟨it', hget, hiff, hbefore⟩ := getNumber_item (by show ¬ chr 'd' ∈ _; decide) h 0#64
    exact ⟨it', bind_again (o := it.getd fpu 0#64) hget, hbefore (hiff.mpr (.inr ⟨rfl, rfl⟩))⟩
  | string s =>
    obtain ⟨it', hget, hiff, hbefore⟩ := gets_item (by show ¬ chr 's' ∈ _; decide) h none
    exact ⟨it', bind_again (o := it.gets none) hget, hbefore (hiff.mpr rfl)⟩
  | blob len body hlen hbody =>
    obtain ⟨it', hskip, hiff, hbefore⟩ := skipb_item (by show ¬ chr 'b' ∈ _; decide) h
    have hblob := h
    rw [DumpItem.data, List.append_assoc] at hblob
    have hint := hblob.intAt_eq rfl
    rw [MsgIter.swap32_wordOf_beBytes] at hint
    have hfits : Read.skipb.Fits (.blob len body hlen hbody) := by
      refine ⟨BitVec.ofNat 32 len, ?_, ?_⟩
      · rw [DumpItem.data, oscInt_append rfl, MsgIter.swap32_wordOf_beBytes]
      · rw [len4_ofNat hlen, DumpItem.data, List.length_append, OSCValue.length_beBytes, hbody]
        omega
    have hsize : ∃ size, it.getbsize = some size := by
      have hagain : it.nextTag (chr 'b') = some (chr 'b') := h.nextTag_head (chr 'b')
      unfold LiveIter.getbsize
      rw [hagain, hint]
      split
      · exact ⟨_, rfl⟩
      · exact ⟨_, rfl⟩
    obtain ⟨size, hsize⟩ := hsize
    refine ⟨it', ?_, hbefore (hiff.mpr hfits)⟩
    show (it.getbsize.bind fun _ => it.skipb.bind fun r => some (Turn.again r)) = _
    rw [hsize, hskip]
    rfl
  | opening | closing =>
    refine ⟨it.next, rfl, ?_⟩
    have hnil : it.Before front (_ :: tags) passed ([] ++ data) post := h
    exact hnil.pass (by simp)

theorem before_cons
    (h : it.Before front (dumpTags (x :: items) ++ tags) passed (dumpData (x :: items) ++ data)
      post) :
    it.Before front (x.tag :: (dumpTags items ++ tags)) passed (x.data ++ (dumpData items ++ data))
      post := by
  simpa [dumpTags, dumpData] using h

/-- The dumper takes all the items, and leaves them turned round. -/
theorem dumpItems_ends (hdata : data = [] ∨ tags.headD 0#8 ∉ dumpedTags)
    (h : it.Before front (dumpTags items ++ tags) passed (dumpData items ++ data) post) :
    ∃ it', Ends (dumpTurn fpu) it it' ∧
      it'.mem = front ++ (dumpTags items ++ tags ++ 0#8 :: passed) ++
        (turnedData items ++ data ++ post) := by
  induction items generalizing it front passed with
  | nil =>
    refine ⟨it, .stop ?_, h.mem_eq⟩
    by_cases hend : it.remain = 0
    · exact dumpTurn_ended hend
    · have hunknown := hdata.resolve_left fun hnil => hend (by
        rw [h.remain_eq, hnil]
        rfl)
      exact dumpTurn_unknown hend (h.nextTag_head _) hunknown
  | cons x items ih =>
    by_cases hend : it.remain = 0
    · refine ⟨it, .stop (dumpTurn_ended hend), ?_⟩
      -- what is left has no data
      have hlen := length_turnedData (x :: items)
      have hremain := h.remain_eq
      rw [hend, List.length_append] at hremain
      have hnil : dumpData (x :: items) = [] := List.eq_nil_of_length_eq_zero (by omega)
      have hnil' : turnedData (x :: items) = [] := List.eq_nil_of_length_eq_zero (by omega)
      rw [h.mem_eq, hnil, hnil']
    · obtain ⟨it₁, hturn, h₁⟩ := dumpTurn_item (before_cons h) hend
      obtain ⟨it', hends, hmem⟩ := ih h₁
      refine ⟨it', .again hturn hends, ?_⟩
      rw [hmem]
      simp only [dumpTags, turnedData, List.map_cons, List.flatMap_cons, List.append_assoc,
        List.cons_append, List.nil_append]

theorem dataEnd_item (h : it.Before front (x.tag :: tags) passed (x.data ++ data) post) :
    dataEnd it.mem x.tag it.rdpos = some (it.rdpos + x.data.length) := by
  cases x with
  | int n => exact congrArg (Option.map _) (LiveIter.Before.intAt_eq h rfl)
  | float bits => exact congrArg (Option.map _) (LiveIter.Before.intAt_eq h rfl)
  | double hi lo => exact congrArg (Option.map _) (LiveIter.Before.doubleAt_eq h rfl rfl)
  | string s => exact LiveIter.Before.strskipAt_eq s.2 h
  | blob len body hlen hbody =>
    have hblob := h
    rw [DumpItem.data, List.append_assoc] at hblob
    have hint := hblob.intAt_eq rfl
    rw [MsgIter.swap32_wordOf_beBytes] at hint
    show (intAt it.mem it.rdpos).map (fun len => it.rdpos + 4 + len4 len) = _
    rw [hint, Option.map_some, len4_ofNat hlen, DumpItem.data, List.length_append,
      OSCValue.length_beBytes, hbody]
    congr 1
    omega
  | opening | closing => exact congrArg some (by simp [DumpItem.data])

theorem argsPlain_items (hdata : data = [] ∨ tags.headD 0#8 ∉ dumpedTags)
    (hfloats : ∀ bits ∈ items.flatMap itemFloats, swap32 bits = bits)
    (h : it.Before front (dumpTags items ++ tags) passed (dumpData items ++ data) post) :
    ArgsPlain it := by
  induction items generalizing it front passed with
  | nil =>
    by_cases hend : it.remain = 0
    · exact .ended hend
    · have hunknown := hdata.resolve_left fun hnil => hend (by
        rw [h.remain_eq, hnil]
        rfl)
      exact .unknown (h.nextTag_head _) hunknown
  | cons x items ih =>
    by_cases hend : it.remain = 0
    · exact .ended hend
    · have hx := before_cons h
      have hremain := h.remain_eq
      refine .argument hend (hx.nextTag_head _) (tag_mem_dumpedTags x) (fun _ => by omega) ?_
        (dataEnd_item hx) (ih (fun bits hbits => hfloats bits ?_) (hx.pass rfl))
      · intro hfloat
        cases x with
        | float bits =>
          have hint := LiveIter.Before.intAt_eq hx rfl
          have hbits : swap32 (wordOf (DumpItem.float bits).data) = bits :=
            MsgIter.swap32_wordOf_beBytes bits
          rw [hbits] at hint
          exact ⟨bits, hint, hfloats bits (by simp [itemFloats])⟩
        | int | double | string | blob | opening | closing =>
          exact absurd hfloat (by show ¬ chr _ = _; decide)
      · rw [List.flatMap_cons]
        exact List.mem_append_right _ hbits

end Items

/-- Words without type tags are read as integers. -/
theorem argsPlain_words {it : LiveIter} (n : ℕ) {front bytes post : List Byte}
    (hlength : bytes.length = 4 * n) (hsmall : bytes.length < 2 ^ 31)
    (hmem : it.mem = front ++ (bytes ++ post)) (hrdpos : it.rdpos = front.length)
    (hendpos : it.endpos = it.rdpos + bytes.length) (htags : it.tags = none) : ArgsPlain it := by
  have hremain : it.remain = bytes.length := by
    have hdiff : it.endpos - it.rdpos = bytes.length := by omega
    rw [LiveIter.remain, hdiff, int_eq_self hsmall]
  induction n generalizing it front bytes with
  | zero => exact .ended (by omega)
  | succ n ih =>
    have hfour : (bytes.take 4).length = 4 := by
      rw [List.length_take]
      omega
    have hdrop : (bytes.drop 4).length = 4 * n := by
      rw [List.length_drop]
      omega
    have hsplit : it.mem = front ++ (bytes.take 4 ++ (bytes.drop 4 ++ post)) := by
      rw [hmem, ← List.append_assoc (bytes.take 4), List.take_append_drop]
    have htag : it.nextTag (chr 'i') = some (chr 'i') := by
      unfold LiveIter.nextTag
      rw [htags]
    have hint := intAt_append hsplit hrdpos hfour
    have hend : dataEnd it.mem (chr 'i') it.rdpos = some (it.rdpos + 4) := by
      show (intAt it.mem it.rdpos).map (fun _ => it.rdpos + 4) = _
      rw [hint]
      rfl
    have hdiff : it.endpos - (it.rdpos + 4) = (bytes.drop 4).length := by omega
    refine .argument (by omega) htag (by simp [dumpedTags]) (fun _ => by omega)
      (fun hf => absurd hf (by decide)) hend ?_
    refine @ih _ (front ++ bytes.take 4) _ hdrop (by omega) ?_ ?_ ?_ htags ?_
    · show it.mem = _
      rw [hsplit, List.append_assoc]
    · show it.rdpos + 4 = _
      rw [List.length_append]
      omega
    · show it.endpos = it.rdpos + 4 + _
      omega
    · show int (it.endpos - (it.rdpos + 4)) = _
      rw [hdiff, int_eq_self (by omega)]

/-! ## Messages -/

/-- What stands behind the address of a message: arguments with their tags, and perhaps a tag that
the dumper does not know with what is behind it, or words without tags. -/
inductive Payload
  | tagged (items : List DumpItem) (tags data : List Byte) (hnz : ∀ b ∈ tags, b ≠ 0#8)
    (hdata : data = [] ∨ tags.headD 0#8 ∉ dumpedTags)
  | words (bytes : List Byte) (hwords : UntaggedArgs bytes)

namespace Payload

def bytes : Payload → List Byte
  | tagged items tags data _ _ => taggedPayload (dumpTags items ++ tags) (dumpData items ++ data)
  | words bytes _ => bytes

def floats : Payload → List Word
  | tagged items _ _ _ _ => items.flatMap itemFloats
  | words _ _ => []

/-- What a dump leaves of the payload. -/
def dumped : Payload → List Byte
  | tagged items tags data _ _ => taggedPayload (dumpTags items ++ tags) (turnedData items ++ data)
  | words bytes _ => bytes

theorem length_dumped (payload : Payload) : payload.dumped.length = payload.bytes.length := by
  cases payload with
  | tagged items tags data hnz hdata =>
    have hlen := length_turnedData items
    simp only [dumped, bytes, taggedPayload, List.length_append]
    omega
  | words bytes hwords => rfl

theorem four_le_length (payload : Payload) : 4 ≤ payload.bytes.length := by
  cases payload with
  | tagged items tags data hnz hdata =>
    have hpadded := length_padded (chr ',' :: (dumpTags items ++ tags))
    simp only [bytes, taggedPayload, List.length_append]
    omega
  | words bytes hwords =>
    obtain ⟨⟨first, hfirst, -⟩, hlen⟩ := hwords
    have hpos : bytes.length ≠ 0 := by
      intro hzero
      rw [List.eq_nil_of_length_eq_zero hzero] at hfirst
      exact absurd hfirst (by simp)
    show 4 ≤ bytes.length
    omega

variable {fpu : DoubleUnit}

/-- The iterator of the payload, and what the loop over it comes to. -/
theorem init_dumped (payload : Payload) (front post : List Byte)
    (hsmall : payload.bytes.length < 2 ^ 31) :
    ∃ it, LiveIter.init (front ++ (payload.bytes ++ post)) payload.bytes.length front.length =
        some it ∧
      (∃ it', Ends (dumpTurn fpu) it it' ∧ it'.mem = front ++ (payload.dumped ++ post)) ∧
      ((∀ bits ∈ payload.floats, swap32 bits = bits) → ArgsPlain it) := by
  cases payload with
  | tagged items tags data hnz hdata =>
    have htags : ∀ b ∈ dumpTags items ++ tags, b ≠ 0#8 := by
      intro b hb
      rcases List.mem_append.mp hb with hb | hb
      · exact dumpTags_ne_zero items b hb
      · exact hnz b hb
    have hless : (dumpData items ++ data).length < 2 ^ 31 := by
      simp only [bytes, taggedPayload, List.length_append] at hsmall ⊢
      omega
    obtain ⟨it, pad, hinit, -, -, -, hpad, hbefore⟩ := init_before front post htags hless
    refine ⟨it, hinit, ?_, fun hfloats => argsPlain_items hdata hfloats hbefore⟩
    obtain ⟨it', hends, hmem⟩ := @dumpItems_ends fpu _ _ _ _ _ _ _ hdata hbefore
    refine ⟨it', hends, ?_⟩
    rw [hmem]
    simp only [dumped, taggedPayload, hpad, List.append_assoc, List.cons_append, List.nil_append]
  | words bytes hwords =>
    obtain ⟨⟨first, hfirst, hcomma⟩, hlen⟩ := hwords
    have hhead : (bytes ++ post).head? = some first := by
      rw [List.head?_append, hfirst]
      rfl
    obtain ⟨it, hinit, hit⟩ : ∃ it, LiveIter.init (front ++ (bytes ++ post)) bytes.length
        front.length = some it ∧ it = ⟨front ++ (bytes ++ post), front.length,
          front.length + bytes.length, none, 0⟩ := by
      refine ⟨_, ?_, rfl⟩
      unfold LiveIter.init
      rw [byteAt_append rfl rfl, hhead]
      simp only [Option.bind_eq_bind, Option.bind_some, if_neg hcomma]
      rfl
    have hless : bytes.length < 2 ^ 31 := hsmall
    have hplain : ArgsPlain it := by
      subst hit
      exact argsPlain_words (bytes.length / 4) (by omega) hless rfl rfl rfl rfl
    obtain ⟨it', hends, hmem⟩ := @ArgsPlain.ends fpu it hplain
    refine ⟨it, hinit, ⟨it', hends, ?_⟩, fun _ => hplain⟩
    rw [hmem, hit]
    rfl

end Payload

/-- A message: an address, or four bytes in its place, and its payload. -/
structure Message where
  address : List Byte
  payload : Payload
  haddress : (∃ s : OscString, s.1 ≠ [] ∧ address = padded s.1) ∨
    address.length = 4 ∧ address.head? = some 0#8

namespace Message

def bytes (m : Message) : List Byte := m.address ++ m.payload.bytes

def dumped (m : Message) : List Byte := m.address ++ m.payload.dumped

theorem length_dumped (m : Message) : m.dumped.length = m.bytes.length := by
  have hpayload := m.payload.length_dumped
  simp only [dumped, bytes, List.length_append]
  omega

theorem behindAddress_eq (m : Message) (front rest : List Byte) :
    behindAddress (front ++ (m.address ++ rest)) front.length =
      some ((front.length : ℤ) + m.address.length) := by
  unfold behindAddress
  rw [byteAt_append rfl rfl]
  rcases m.haddress with ⟨s, hs, haddress⟩ | ⟨hlen, hhead⟩
  · obtain ⟨c, cs, hcs⟩ := List.exists_cons_of_ne_nil hs
    have hc : c ≠ 0#8 := s.2 c (by rw [hcs]; simp)
    have hhead : (m.address ++ rest).head? = some c := by
      rw [haddress, hcs, padded]
      rfl
    rw [hhead, haddress]
    simp only [Option.bind_eq_bind, Option.bind_some, ne_eq, hc, not_false_eq_true, if_true]
    exact strskipAt_append s.2 rfl rfl
  · have hhead' : (m.address ++ rest).head? = some 0#8 := by
      rw [List.head?_append, hhead]
      rfl
    rw [hhead', hlen]
    simp only [Option.bind_eq_bind, Option.bind_some, ne_eq, not_true_eq_false, if_false,
      intAt_append rfl rfl hlen]
    rfl

variable {fpu : DoubleUnit}

/-- Inside a packet, the dumper opens the message and comes to its end. -/
theorem openMsg_dumped (m : Message) (front post : List Byte) (hsmall : m.bytes.length < 2 ^ 31) :
    ∃ it, openMsg (front ++ (m.bytes ++ post)) m.bytes.length front.length = some it ∧
      (∃ it', Ends (dumpTurn fpu) it it' ∧ it'.mem = front ++ (m.dumped ++ post)) ∧
      ((∀ bits ∈ m.payload.floats, swap32 bits = bits) → ArgsPlain it) := by
  have hlen : m.bytes.length = m.address.length + m.payload.bytes.length := List.length_append
  obtain ⟨it, hinit, hends, hplain⟩ :=
    @Payload.init_dumped fpu m.payload (front ++ m.address) post (by omega)
  have hat : ((front ++ m.address).length : ℤ) = front.length + m.address.length := by
    rw [List.length_append]
    omega
  have hsize : (m.bytes.length : ℤ) - (front.length + m.address.length - front.length) =
      m.payload.bytes.length := by omega
  rw [hat, List.append_assoc] at hinit
  refine ⟨it, ?_, ?_, hplain⟩
  · unfold openMsg
    rw [bytes, List.append_assoc, m.behindAddress_eq]
    simp only [Option.bind_eq_bind, Option.bind_some]
    rw [← bytes, hsize, int_eq_self (by omega)]
    exact hinit
  · obtain ⟨it', hends, hmem⟩ := hends
    refine ⟨it', hends, ?_⟩
    rw [hmem, dumped]
    simp only [List.append_assoc]

/-- The message in a bundle, behind its size. -/
def element (m : Message) : List Byte :=
  OSCValue.beBytes (BitVec.ofNat 32 m.bytes.length) ++ m.bytes

def elementDumped (m : Message) : List Byte :=
  OSCValue.beBytes (BitVec.ofNat 32 m.bytes.length) ++ m.dumped

theorem length_elementDumped (m : Message) : m.elementDumped.length = m.element.length := by
  rw [elementDumped, element, List.length_append, List.length_append, m.length_dumped]

theorem eight_le_length (m : Message) : 8 ≤ m.bytes.length := by
  have hpayload := m.payload.four_le_length
  have haddress : 4 ≤ m.address.length := by
    rcases m.haddress with ⟨s, -, haddress⟩ | ⟨hlen, -⟩
    · have hpadded := length_padded s.1
      rw [haddress]
      omega
    · omega
  rw [bytes, List.length_append]
  omega

end Message

/-! ## Packets -/

/-- A message that is no bundle, or a bundle of messages. A bundle inside a bundle, which the dumper
takes for a message, is one of words if its time tag does not begin with a comma. -/
inductive Packet
  | message (m : Message) (hmessage : ¬ bundleTag <+: m.bytes)
  | bundle (timeTag : List Byte) (htime : timeTag.length = 8) (elements : List Message)

namespace Packet

def bytes : Packet → List Byte
  | message m _ => m.bytes
  | bundle timeTag _ elements => bundleTag ++ (timeTag ++ elements.flatMap Message.element)

def floats : Packet → List Word
  | message m _ => m.payload.floats
  | bundle _ _ elements => elements.flatMap fun m => m.payload.floats

/-- What a dump leaves of the packet. -/
def dumped : Packet → List Byte
  | message m _ => m.dumped
  | bundle timeTag _ elements => bundleTag ++ (timeTag ++ elements.flatMap Message.elementDumped)

end Packet

section Packets

variable {fpu : DoubleUnit}

theorem length_flatMap_eq {α : Type} {f g : α → List Byte} :
    ∀ (xs : List α), (∀ x ∈ xs, (f x).length = (g x).length) →
      (xs.flatMap f).length = (xs.flatMap g).length
  | [], _ => rfl
  | x :: xs, h => by
    have hx := h x (by simp)
    have hxs := length_flatMap_eq xs fun y hy => h y (by simp [hy])
    rw [List.flatMap_cons, List.flatMap_cons, List.length_append, List.length_append, hx, hxs]

/-- Pieces of the same lengths are equal together only if each is. -/
theorem flatMap_inj {α : Type} {f g : α → List Byte} :
    ∀ (xs : List α), (∀ x ∈ xs, (f x).length = (g x).length) → xs.flatMap f = xs.flatMap g →
      ∀ x ∈ xs, f x = g x
  | [], _, _ => by simp
  | x :: xs, hlen, h => by
    rw [List.flatMap_cons, List.flatMap_cons] at h
    obtain ⟨hx, hxs⟩ := List.append_inj h (hlen x (by simp))
    exact List.forall_mem_cons.mpr
      ⟨hx, flatMap_inj xs (fun y hy => hlen y (by simp [hy])) hxs⟩

theorem Packet.length_dumped (p : Packet) : p.dumped.length = p.bytes.length := by
  cases p with
  | message m hmessage => exact m.length_dumped
  | bundle timeTag htime elements =>
    have hlen : (elements.flatMap Message.elementDumped).length =
        (elements.flatMap Message.element).length :=
      length_flatMap_eq elements fun m _ => m.length_elementDumped
    simp only [dumped, bytes, List.length_append, hlen]

/-- A comparison in memory that is long enough says whether the literal is there. -/
theorem strcmpAt_eq : ∀ (cs : List Byte) {mem xs ys : List Byte} {a : ℤ}, mem = xs ++ ys →
    a = xs.length → cs.length ≤ ys.length → strcmpAt mem cs a = some (decide (cs <+: ys))
  | [], _, _, _, _, _, _, _ => by simp [strcmpAt]
  | c :: cs, mem, xs, y :: ys, a, hmem, ha, hlen => by
    have hnext := @strcmpAt_eq cs mem (xs ++ [y]) ys (a + 1) (by simp [hmem])
      (by rw [List.length_append, List.length_singleton]; omega) (by simpa using hlen)
    unfold strcmpAt
    rw [byteAt_append hmem ha, hnext]
    simp only [List.head?_cons, Option.bind_eq_bind, Option.bind_some, List.cons_prefix_cons]
    by_cases hy : y = c
    · simp [hy]
    · have hc : ¬ c = y := fun h => hy h.symm
      simp [hy, hc]

theorem toInt_ofNat {n : ℕ} (h : n < 2 ^ 31) : (BitVec.ofNat 32 n).toInt = n := by
  have hint := int_eq_self h
  rwa [int, BitVec.ofInt_natCast] at hint

theorem Message.toInt_length {m : Message} (h : m.bytes.length < 2 ^ 31) :
    (BitVec.ofNat 32 m.bytes.length).toInt = m.bytes.length := toInt_ofNat h

/-- The dumper finds the size of an element, and opens the message behind it. -/
theorem Message.openElement (m : Message) (front rest : List Byte)
    (hsmall : m.bytes.length < 2 ^ 31) :
    intAt (front ++ (m.element ++ rest)) front.length = some (BitVec.ofNat 32 m.bytes.length) ∧
    ∃ it, openMsg (front ++ (m.element ++ rest)) (BitVec.ofNat 32 m.bytes.length).toInt
        (front.length + 4) = some it ∧
      (∃ it', Ends (dumpTurn fpu) it it' ∧ it'.mem = front ++ (m.elementDumped ++ rest)) ∧
      ((∀ bits ∈ m.payload.floats, swap32 bits = bits) → ArgsPlain it) := by
  have hmem : front ++ (m.element ++ rest) =
      front ++ (OSCValue.beBytes (BitVec.ofNat 32 m.bytes.length) ++ (m.bytes ++ rest)) := by
    rw [element, List.append_assoc]
  have hat : ((front ++ OSCValue.beBytes (BitVec.ofNat 32 m.bytes.length)).length : ℤ) =
      front.length + 4 := by
    rw [List.length_append]
    rfl
  obtain ⟨it, hopen, ⟨it', hends, hleft⟩, hplain⟩ := @openMsg_dumped fpu m
    (front ++ OSCValue.beBytes (BitVec.ofNat 32 m.bytes.length)) rest hsmall
  rw [hat, List.append_assoc, ← hmem, ← toInt_length hsmall] at hopen
  refine ⟨?_, it, hopen, ⟨it', hends, ?_⟩, hplain⟩
  · rw [intAt_append hmem rfl rfl, MsgIter.swap32_wordOf_beBytes]
  · rw [hleft, elementDumped]
    simp only [List.append_assoc]

/-- The loop over the elements of a bundle, and what it comes to. -/
theorem elements_dumped (elements : List Message) (front : List Byte)
    (hsmall : (elements.flatMap Message.element).length < 2 ^ 31) {dataEnd : ℤ}
    (hend : dataEnd = (front ++ elements.flatMap Message.element).length) :
    DumpsElements fpu dataEnd (front ++ elements.flatMap Message.element) front.length
      (front ++ elements.flatMap Message.elementDumped) := by
  induction elements generalizing front with
  | nil => exact .ended (by rw [hend]; simp)
  | cons m elements ih =>
    have helement : m.element.length = 4 + m.bytes.length := List.length_append
    have hlen := m.length_elementDumped
    simp only [List.flatMap_cons, List.length_append] at hsmall hend ⊢
    obtain ⟨hint, it, hopen, ⟨it', hends, hleft⟩, -⟩ := @Message.openElement fpu m front
      (elements.flatMap Message.element) (by omega)
    have hrest := ih (front ++ m.elementDumped) (by omega) (by
      simp only [List.length_append]
      omega)
    have hnext : (front.length : ℤ) + 4 + (BitVec.ofNat 32 m.bytes.length).toInt =
        (front ++ m.elementDumped).length := by
      rw [m.toInt_length (by omega), List.length_append]
      omega
    refine .element (by omega) hint ⟨it, it', hopen, hends, hleft⟩ ?_
    rw [hnext]
    simp only [List.append_assoc] at hrest ⊢
    exact hrest

theorem elements_plain (elements : List Message) (front : List Byte)
    (hsmall : (elements.flatMap Message.element).length < 2 ^ 31) {dataEnd : ℤ}
    (hend : dataEnd = (front ++ elements.flatMap Message.element).length)
    (hfloats : ∀ bits ∈ elements.flatMap (fun m => m.payload.floats), swap32 bits = bits) :
    ElementsPlain (front ++ elements.flatMap Message.element) dataEnd front.length := by
  induction elements generalizing front with
  | nil => exact .ended (by rw [hend]; simp)
  | cons m elements ih =>
    have helement : m.element.length = 4 + m.bytes.length := List.length_append
    simp only [List.flatMap_cons, List.length_append, List.mem_append] at hsmall hend hfloats ⊢
    obtain ⟨hint, it, hopen, -, hplain⟩ := @Message.openElement plainUnit m front
      (elements.flatMap Message.element) (by omega)
    have hrest := ih (front ++ m.element) (by omega) (by
      simp only [List.length_append]
      omega) fun bits hbits => hfloats bits (.inr hbits)
    have hnext : (front.length : ℤ) + 4 + (BitVec.ofNat 32 m.bytes.length).toInt =
        (front ++ m.element).length := by
      rw [m.toInt_length (by omega), List.length_append]
      omega
    refine .element (by omega) hint
      ⟨it, hopen, hplain fun bits hbits => hfloats bits (.inl hbits)⟩ ?_
    rw [hnext]
    simp only [List.append_assoc] at hrest ⊢
    exact hrest

theorem length_bundleTag : bundleTag.length = 8 := by decide

/-- `dumpOSC` tells the bundles, and looks at their time tag. -/
theorem bundle_opens (timeTag : List Byte) (htime : timeTag.length = 8) (rest : List Byte) :
    strcmpAt (bundleTag ++ (timeTag ++ rest)) bundleTag 0 = some true ∧
      (doubleAt (bundleTag ++ (timeTag ++ rest)) 8).isSome := by
  have hcmp := @strcmpAt_eq bundleTag (bundleTag ++ (timeTag ++ rest)) []
    (bundleTag ++ (timeTag ++ rest)) 0 rfl rfl (by rw [List.length_append]; omega)
  rw [hcmp]
  refine ⟨by simp, ?_⟩
  have hhi : (timeTag.take 4).length = 4 := by
    rw [List.length_take]
    omega
  have hlo : (timeTag.drop 4).length = 4 := by
    rw [List.length_drop]
    omega
  have hmem : bundleTag ++ (timeTag ++ rest) =
      bundleTag ++ (timeTag.take 4 ++ (timeTag.drop 4 ++ rest)) := by
    rw [← List.append_assoc (timeTag.take 4), List.take_append_drop]
  have hmem' : bundleTag ++ (timeTag ++ rest) =
      (bundleTag ++ timeTag.take 4) ++ (timeTag.drop 4 ++ rest) := by
    rw [hmem, List.append_assoc]
  unfold doubleAt
  rw [intAt_append hmem (by rw [length_bundleTag]; rfl) hhi,
    intAt_append hmem' (by rw [List.length_append, hhi, length_bundleTag]; rfl) hlo]
  rfl

theorem message_no_bundle {m : Message} (hmessage : ¬ bundleTag <+: m.bytes) :
    strcmpAt m.bytes bundleTag 0 = some false := by
  have hcmp := @strcmpAt_eq bundleTag m.bytes [] m.bytes 0 rfl rfl
    (by rw [length_bundleTag]; exact m.eight_le_length)
  rw [hcmp]
  simp [hmessage]

/-- What a dump leaves of a packet. -/
theorem Packet.dumps (p : Packet) (hsmall : p.bytes.length < 2 ^ 31) :
    DumpsPacket fpu p.bytes p.dumped := by
  cases p with
  | message m hmessage =>
    obtain ⟨it, hopen, ⟨it', hends, hmem⟩, -⟩ := @Message.openMsg_dumped fpu m [] [] hsmall
    simp only [List.nil_append, List.append_nil] at hopen hmem
    exact .inr ⟨message_no_bundle hmessage, it, it', hopen, hends, hmem⟩
  | bundle timeTag htime elements =>
    obtain ⟨hcmp, hdouble⟩ := bundle_opens timeTag htime (elements.flatMap Message.element)
    have hfront : (bundleTag ++ timeTag).length = 16 := by
      rw [List.length_append, htime, length_bundleTag]
    have hdump := @elements_dumped fpu elements (bundleTag ++ timeTag) (by
      simp only [bytes, List.length_append] at hsmall
      omega) _ rfl
    rw [hfront, List.append_assoc, List.append_assoc] at hdump
    exact .inl ⟨hcmp, hdouble, hdump⟩

theorem Packet.plain (p : Packet) (hsmall : p.bytes.length < 2 ^ 31)
    (hfloats : ∀ bits ∈ p.floats, swap32 bits = bits) : PacketPlain p.bytes := by
  cases p with
  | message m hmessage =>
    obtain ⟨it, hopen, -, hplain⟩ := @Message.openMsg_dumped plainUnit m [] [] hsmall
    simp only [List.nil_append, List.append_nil] at hopen
    exact .inr ⟨message_no_bundle hmessage, it, hopen, hplain hfloats⟩
  | bundle timeTag htime elements =>
    obtain ⟨hcmp, hdouble⟩ := bundle_opens timeTag htime (elements.flatMap Message.element)
    have hfront : (bundleTag ++ timeTag).length = 16 := by
      rw [List.length_append, htime, length_bundleTag]
    have hplain := elements_plain elements (bundleTag ++ timeTag) (by
      simp only [bytes, List.length_append] at hsmall
      omega) rfl hfloats
    rw [hfront, List.append_assoc] at hplain
    exact .inl ⟨hcmp, hdouble, hplain⟩

/-- A message that a dump does not change has palindromes for its floats. -/
theorem Message.floats_of_dumped {m : Message} (h : m.dumped = m.bytes) :
    ∀ bits ∈ m.payload.floats, swap32 bits = bits := by
  have hpayload : m.payload.dumped = m.payload.bytes := List.append_cancel_left h
  intro bits hbits
  cases hp : m.payload with
  | words bytes hwords =>
    rw [hp] at hbits
    exact absurd hbits (by simp [Payload.floats])
  | tagged items tags data hnz hdata =>
    rw [hp] at hbits hpayload
    have hdata : turnedData items = dumpData items :=
      List.append_cancel_right (List.append_cancel_left hpayload)
    have hitems := flatMap_inj items (fun x _ => length_turned x) hdata
    obtain ⟨x, hx, hfloat⟩ := List.mem_flatMap.mp hbits
    have hturned := hitems x hx
    cases x with
    | float bits' =>
      obtain rfl : bits = bits' := by simpa [itemFloats] using hfloat
      exact (leBytes_injective hturned).symm
    | int | double | string | blob | opening | closing =>
      exact absurd hfloat (by simp [itemFloats])

theorem Packet.floats_of_dumped (p : Packet) (h : p.dumped = p.bytes) :
    ∀ bits ∈ p.floats, swap32 bits = bits := by
  cases p with
  | message m hmessage => exact Message.floats_of_dumped h
  | bundle timeTag htime elements =>
    have helements := List.append_cancel_left (List.append_cancel_left h)
    have heach := flatMap_inj elements (fun m _ => m.length_elementDumped) helements
    intro bits hbits
    obtain ⟨m, hm, hfloat⟩ := List.mem_flatMap.mp hbits
    exact Message.floats_of_dumped (List.append_cancel_left (heach m hm)) bits hfloat

/-- Whatever has been received is handed on unchanged if it is plain; and a packet of well-formed
messages is handed on unchanged only if it is plain. -/
theorem received_transparent (fpu : DoubleUnit) :
    (∀ mDumpOSC data, Plain mDumpOSC data → Transparent fpu mDumpOSC data) ∧
    ∀ mDumpOSC (p : Packet), p.bytes.length < 2 ^ 31 →
      (Transparent fpu mDumpOSC p.bytes ↔ Plain mDumpOSC p.bytes) := by
  refine ⟨fun _ _ h => h.transparent, fun mDumpOSC p hsmall => ⟨fun h hargs => ?_,
    fun h => h.transparent⟩⟩
  rw [transparent_iff hargs (p.dumps hsmall) p.length_dumped] at h
  exact p.plain hsmall (p.floats_of_dumped h)

/-- The message `/x 440.0`. -/
def floatPacket : Packet :=
  .message ⟨padded [chr '/', chr 'x'], .tagged [.float 0x43dc0000#32] [] [] (by simp) (.inl rfl),
    .inl ⟨⟨[chr '/', chr 'x'], by decide⟩, by simp, rfl⟩⟩ (by decide)

/-- With the mode 1, `440.0` is handed on with its bytes swapped. -/
theorem not_transparent_float :
    ¬ ∀ (fpu : DoubleUnit) (mDumpOSC : Word) (data : List Byte), Transparent fpu mDumpOSC data := by
  intro h
  have htransparent := h plainUnit 1#32 floatPacket.bytes
  rw [transparent_iff (by decide) (floatPacket.dumps (by decide)) floatPacket.length_dumped]
    at htransparent
  exact absurd htransparent (by decide)

end Packets

end PoopWorms.Server.Live
