import PoopWorms.Lib.Trickle
import PoopWorms.Server.OscPackets

/-!
# The TCP port

`SC_TcpConnectionPort::Run` asks for a password, if there is one, and then takes packets from the
connection, each behind its size. `recv` and `send` handle as many bytes at a time as they like. A
connection that is closed, or fails, has no more bytes.
-/

namespace PoopWorms.Server

open Octets Osc Live BundleLoop
open scoped List

def kMaxPasswordLen : ℕ := 32

/-- A packet as it is handed to `ProcessOSCPacket`. -/
structure TcpPacket where
  mSize : ℤ
  mData : List Byte
deriving DecidableEq

/-- The login messages: whether the password was among them, and the stream behind it. What
is left of a size that does not come is `junk`. -/
def validate (mPassword : List Byte) (junk : ℕ → Word) :
    ℕ → Trickle Byte → List Byte → Bool × Trickle Byte
  | 0, s, _ => (false, s)
  | tries + 1, s, buf =>
    let (size, s) := s.all 4
    let msglen := ((oscInt size).getD (junk tries)).toInt
    if (kMaxPasswordLen : ℤ) < msglen then (false, s)
    else
      let (bytes, s) := s.all msglen.toNat
      -- the bytes behind the message stay in the buffer
      let buf := bytes ++ buf.drop bytes.length
      if buf.takeWhile (· ≠ 0#8) = mPassword then (true, s)
      else validate mPassword junk tries s buf

/-- The packets of the connection. Each turn but the last takes a size from the stream. -/
def tcpPackets : ℕ → Trickle Byte → List TcpPacket
  | 0, _ => []
  | turns + 1, s =>
    let (size, s) := s.all 4
    match oscInt size with
    | none => []
    | some msglen =>
      let (data, s) := s.all msglen.toInt.toNat
      if (data.length : ℤ) < msglen.toInt then []
      else ⟨msglen.toInt, data⟩ :: tcpPackets turns s

/-- `SC_TcpConnectionPort::Run`: the packets that go to the engine. -/
def tcpRun (mPassword buf : List Byte) (junk : ℕ → Word) (s : Trickle Byte) : List TcpPacket :=
  if mPassword = [] then tcpPackets (s.rest.length + 1) s
  else
    match validate mPassword junk 4 s buf with
    | (true, s) => tcpPackets (s.rest.length + 1) s
    | (false, _) => []

/-- `sendall`, with the numbers of bytes that each `send` takes. -/
def sendall (msg : List Byte) (bound : ℕ → ℕ) : List Byte :=
  ((⟨msg, bound⟩ : Trickle Byte).all msg.length).1

/-- `tcp_reply_func`: a message behind its size. -/
def tcpReplyFunc (msg : List Byte) (bound bound' : ℕ → ℕ) : List Byte :=
  sendall (lengthBytes msg.length) bound ++ sendall msg bound'

theorem sendall_eq (msg : List Byte) (bound : ℕ → ℕ) : sendall msg bound = msg := by
  rw [sendall, Trickle.all_fst, List.take_length]

/-- However `send` takes them, the bytes of a message are those of an element of a bundle. -/
theorem tcpReplyFunc_eq (msg : List Byte) (bound bound' : ℕ → ℕ) :
    tcpReplyFunc msg bound bound' = element msg := by
  rw [tcpReplyFunc, sendall_eq, sendall_eq]
  rfl

/-! ## Packets -/

/-- The messages that are whole within the first `n` bytes. -/
def arrived : ℕ → List (List Byte) → List (List Byte)
  | _, [] => []
  | n, msg :: msgs =>
    if (element msg).length ≤ n then msg :: arrived (n - (element msg).length) msgs else []

def TcpPacket.ofMessage (msg : List Byte) : TcpPacket := ⟨msg.length, msg⟩

variable {msg : List Byte} {msgs : List (List Byte)} {n turns : ℕ} {s : Trickle Byte}

theorem length_element (msg : List Byte) : (element msg).length = msg.length + 4 := by
  rw [element, List.length_append, length_lengthBytes, Nat.add_comm]

theorem oscInt_lengthBytes (n : ℕ) (rest : List Byte) :
    oscInt (lengthBytes n ++ rest) = some (BitVec.ofNat 32 n) := by
  rw [oscInt_append (length_lengthBytes n)]
  exact congrArg some (MsgIter.swap32_wordOf_beBytes _)

theorem oscInt_of_length_lt {bytes : List Byte} (h : bytes.length < 4) : oscInt bytes = none := by
  match bytes, h with
  | [], _ => rfl
  | [_], _ => rfl
  | [_, _], _ => rfl
  | [_, _, _], _ => rfl

/-- The size in front of a message is read in one go, or the stream ends before. -/
theorem take_size (msg rest : List Byte) (hn : 4 ≤ n) :
    oscInt (((element msg ++ rest).take n).take 4) = some (BitVec.ofNat 32 msg.length) := by
  have hfour : ((element msg ++ rest).take n).take 4 = lengthBytes msg.length := by
    rw [List.take_take, Nat.min_eq_left hn, element, List.append_assoc]
    exact List.take_left' (length_lengthBytes _)
  rw [hfour]
  have hint := oscInt_lengthBytes msg.length []
  rw [List.append_nil] at hint
  exact hint

theorem drop_size (rest : List Byte) :
    ((element msg ++ rest).take n).drop 4 = (msg ++ rest).take (n - 4) := by
  rw [List.drop_take, element, List.append_assoc]
  rfl

theorem tcpPackets_ended (hs : s.rest = []) : tcpPackets turns s = [] := by
  cases turns with
  | zero => rfl
  | succ turns =>
    rw [tcpPackets]
    dsimp only
    rw [Trickle.all_fst, hs]
    rfl

/-- Every message has a size in front. -/
theorem arrived_zero (msgs : List (List Byte)) : arrived 0 msgs = [] := by
  cases msgs with
  | nil => rfl
  | cons msg msgs =>
    rw [arrived, length_element, if_neg (by omega)]

/-- The packets are the messages that have arrived whole. -/
theorem tcpPackets_eq (hmsgs : ∀ msg ∈ msgs, msg.length < 2 ^ 31)
    (hs : s.rest = (msgs.flatMap element).take n) (hturns : s.rest.length < turns) :
    tcpPackets turns s = (arrived n msgs).map .ofMessage := by
  induction msgs generalizing s n turns with
  | nil =>
    rw [tcpPackets_ended (hs.trans List.take_nil)]
    rfl
  | cons msg msgs ih =>
    obtain ⟨turns, rfl⟩ : ∃ m, turns = m + 1 := ⟨turns - 1, by omega⟩
    have hshort := hmsgs msg List.mem_cons_self
    have helement := length_element msg
    rw [List.flatMap_cons] at hs
    rw [tcpPackets]
    dsimp only
    rw [Trickle.all_fst, hs]
    by_cases hn : 4 ≤ n
    · rw [take_size _ _ hn]
      dsimp only
      rw [toInt_ofNat_of_lt hshort, Int.toNat_natCast, Trickle.all_fst, Trickle.all_rest, hs,
        drop_size]
      by_cases hwhole : (element msg).length ≤ n
      · -- the whole message is there, and the rest of the stream behind it
        have hdata : ((msg ++ msgs.flatMap element).take (n - 4)).take msg.length = msg := by
          rw [List.take_take, Nat.min_eq_left (by omega)]
          exact List.take_left
        rw [hdata, if_neg (by omega), arrived, if_pos hwhole, List.map_cons]
        congr 1
        apply ih (fun m hm => hmsgs m (List.mem_cons_of_mem _ hm))
        · rw [Trickle.all_rest, Trickle.all_rest, hs, drop_size, List.drop_take, List.drop_left,
            helement]
          congr 1
          omega
        · rw [Trickle.all_rest, Trickle.all_rest, List.drop_drop, List.length_drop]
          have hlength := congrArg List.length hs
          rw [List.length_take, List.length_append] at hlength
          omega
      · have hdata : (((msg ++ msgs.flatMap element).take (n - 4)).take msg.length).length
            < msg.length := by
          rw [List.take_take, List.length_take]
          omega
        rw [if_pos (by omega), arrived, if_neg hwhole]
        rfl
    · have hsize : (((element msg ++ msgs.flatMap element).take n).take 4).length < 4 := by
        rw [List.take_take, List.length_take]
        omega
      rw [oscInt_of_length_lt hsize, arrived, if_neg (by omega)]
      rfl

/-! ## The password -/

/-- The login message of a client that knows the password. -/
def login (mPassword : List Byte) : List Byte :=
  if mPassword = [] then [] else element (mPassword ++ [0#8])

section Login

variable {mPassword : List Byte} (buf : List Byte) (junk : ℕ → Word) (tries : ℕ)

/-- Nothing comes out of a stream that has ended. -/
theorem validate_ended (h : s.rest = []) :
    (validate mPassword junk tries s buf).2.rest = [] := by
  induction tries generalizing s buf with
  | zero => exact h
  | succ tries ih =>
    have hsize : (s.all 4).2.rest = [] := by
      rw [Trickle.all_rest, h]
      rfl
    rw [validate]
    dsimp only
    split_ifs
    · exact hsize
    · rw [Trickle.all_rest, hsize, List.drop_nil]
    · apply ih
      rw [Trickle.all_rest, hsize, List.drop_nil]

/-- The password is accepted at once. -/
theorem validate_login (hzero : ∀ b ∈ mPassword, b ≠ 0#8)
    (hlen : mPassword.length < kMaxPasswordLen) {rest : List Byte}
    (hs : s.rest = element (mPassword ++ [0#8]) ++ rest) :
    ∃ s', validate mPassword junk (tries + 1) s buf = (true, s') ∧ s'.rest = rest := by
  have hlength : (mPassword ++ [0#8]).length = mPassword.length + 1 := List.length_append
  have hshort : (mPassword ++ [0#8]).length < 2 ^ 31 := by
    rw [hlength]
    unfold kMaxPasswordLen at hlen
    omega
  have hsize : oscInt (s.rest.take 4) = some (BitVec.ofNat 32 (mPassword ++ [0#8]).length) := by
    have hlong : 4 ≤ s.rest.length := by
      rw [hs, List.length_append, length_element]
      omega
    have htake := take_size (mPassword ++ [0#8]) rest hlong
    rw [← hs, List.take_length] at htake
    exact htake
  have hdrop : s.rest.drop 4 = (mPassword ++ [0#8]) ++ rest := by
    rw [hs, element, List.append_assoc]
    exact List.drop_left' (length_lengthBytes _)
  have hpass : ∀ behind : List Byte,
      ((mPassword ++ [0#8]) ++ behind).takeWhile (· ≠ 0#8) = mPassword := by
    intro behind
    rw [List.append_assoc, List.takeWhile_append_of_pos (by simpa using hzero)]
    simp
  rw [validate]
  dsimp only
  rw [Trickle.all_fst, hsize, Option.getD_some, toInt_ofNat_of_lt hshort, Int.toNat_natCast,
    if_neg (by rw [hlength]; omega), Trickle.all_fst, Trickle.all_rest, hdrop, List.take_left,
    if_pos (hpass _)]
  refine ⟨_, rfl, ?_⟩
  rw [Trickle.all_rest, Trickle.all_rest, hdrop, List.drop_left]

/-- A login message that does not come whole leaves nothing in the stream. -/
theorem validate_cut (hlen : mPassword.length < kMaxPasswordLen) {rest : List Byte}
    (hs : s.rest = (element (mPassword ++ [0#8]) ++ rest).take n)
    (hn : n < (element (mPassword ++ [0#8])).length) :
    (validate mPassword junk (tries + 1) s buf).2.rest = [] := by
  have hlength : (mPassword ++ [0#8]).length = mPassword.length + 1 := List.length_append
  have helement := length_element (mPassword ++ [0#8])
  have hrest : s.rest.length ≤ n := by
    rw [hs, List.length_take]
    omega
  by_cases hfour : 4 ≤ n
  · have hshort : (mPassword ++ [0#8]).length < 2 ^ 31 := by
      rw [hlength]
      unfold kMaxPasswordLen at hlen
      omega
    have hempty : ((s.all 4).2.all (mPassword ++ [0#8]).length).2.rest = [] := by
      rw [Trickle.all_rest, Trickle.all_rest, List.drop_drop]
      exact List.drop_eq_nil_of_le (by omega)
    rw [validate]
    dsimp only
    rw [Trickle.all_fst, hs, take_size _ _ hfour, Option.getD_some, toInt_ofNat_of_lt hshort,
      Int.toNat_natCast, if_neg (by rw [hlength]; omega)]
    split_ifs
    · exact hempty
    · exact validate_ended _ _ _ hempty
  · have hempty : (s.all 4).2.rest = [] := by
      rw [Trickle.all_rest]
      exact List.drop_eq_nil_of_le (by omega)
    have hbehind : ∀ len, ((s.all 4).2.all len).2.rest = [] := by
      intro len
      rw [Trickle.all_rest, hempty, List.drop_nil]
    rw [validate]
    dsimp only
    split_ifs
    · exact hempty
    · exact hbehind _
    · exact validate_ended _ _ _ (hbehind _)

/-- However the bytes of a client that knows the password are cut into pieces, and wherever the
connection breaks off, the engine gets the messages that have arrived whole, in order. -/
theorem tcpRun_eq (hzero : ∀ b ∈ mPassword, b ≠ 0#8) (hlen : mPassword.length < kMaxPasswordLen)
    (hmsgs : ∀ msg ∈ msgs, msg.length < 2 ^ 31)
    (hs : s.rest = (login mPassword ++ msgs.flatMap element).take n) :
    tcpRun mPassword buf junk s = (arrived (n - (login mPassword).length) msgs).map .ofMessage := by
  unfold tcpRun login at *
  by_cases hnone : mPassword = []
  · rw [if_pos hnone] at hs ⊢
    rw [if_pos hnone]
    exact tcpPackets_eq hmsgs hs (Nat.lt_succ_self _)
  · rw [if_neg hnone] at hs ⊢
    rw [if_neg hnone]
    by_cases hn : (element (mPassword ++ [0#8])).length ≤ n
    · rw [List.take_append, List.take_of_length_le hn] at hs
      obtain ⟨s', hvalid, hrest⟩ := validate_login buf junk 3 hzero hlen hs
      rw [hvalid]
      exact tcpPackets_eq hmsgs hrest (Nat.lt_succ_self _)
    · have hcut := validate_cut buf junk 3 hlen hs (by omega)
      have hzeros : n - (element (mPassword ++ [0#8])).length = 0 := by omega
      rw [hzeros, arrived_zero]
      generalize validate mPassword junk 4 s buf = r at hcut
      obtain ⟨valid, s'⟩ := r
      cases valid with
      | false => rfl
      | true => exact tcpPackets_ended hcut

/-- A client that knows the password sends it and then messages. However `send` and `recv` cut the
bytes into pieces, and wherever the connection breaks off, the engine gets the messages that have
arrived whole, in order. -/
theorem tcp_roundTrip (mPassword : List Byte) (msgs : List (List Byte))
    (hzero : ∀ b ∈ mPassword, b ≠ 0#8) (hlen : mPassword.length < kMaxPasswordLen)
    (hmsgs : ∀ msg ∈ msgs, msg.length < 2 ^ 31) (sent : List (List Byte))
    (hsent : List.Forall₂ (fun bytes msg => ∃ bound bound', bytes = tcpReplyFunc msg bound bound')
      sent msgs) (n : ℕ) (s : Trickle Byte)
    (hs : s.rest = (login mPassword ++ sent.flatten).take n) :
    tcpRun mPassword buf junk s =
      (arrived (n - (login mPassword).length) msgs).map .ofMessage := by
  have hflatten : sent.flatten = msgs.flatMap element := by
    clear hmsgs hs
    induction hsent with
    | nil => rfl
    | @cons bytes msg sent msgs hbytes _ ih =>
      obtain ⟨bound, bound', rfl⟩ := hbytes
      rw [List.flatten_cons, List.flatMap_cons, tcpReplyFunc_eq, ih]
  rw [hflatten] at hs
  exact tcpRun_eq buf junk hzero hlen hmsgs hs

/-- Two messages, of which the connection breaks off the second, in pieces of one byte. -/
theorem tcp_roundTrip_brokenOff :
    tcpRun [97#8] [] (fun _ => 0#32) ⟨(login [97#8] ++
        [tcpReplyFunc [1#8, 2#8] (fun _ => 0) fun _ => 0,
          tcpReplyFunc [3#8] (fun _ => 2) fun _ => 0].flatten).take 16, fun _ => 0⟩ =
      [⟨2, [1#8, 2#8]⟩] :=
  tcp_roundTrip [] (fun _ => 0#32) [97#8] [[1#8, 2#8], [3#8]] (by decide) (by decide) (by decide) _
    (.cons ⟨_, _, rfl⟩ (.cons ⟨_, _, rfl⟩ .nil)) 16 _ rfl

/-! ## Without the password -/

/-- The data of the first login messages, as far as they come and are not too long. -/
def loginFrames : ℕ → List Byte → List (List Byte)
  | 0, _ => []
  | tries + 1, bytes =>
    match oscInt bytes with
    | none => []
    | some msglen =>
      if (kMaxPasswordLen : ℤ) < msglen.toInt then []
      else (bytes.drop 4).take msglen.toInt.toNat ::
        loginFrames tries (bytes.drop (4 + msglen.toInt.toNat))

theorem oscInt_take (bytes : List Byte) : oscInt (bytes.take 4) = oscInt bytes := by
  match bytes with
  | [] => rfl
  | [_] => rfl
  | [_, _] => rfl
  | [_, _, _] => rfl
  | _ :: _ :: _ :: _ :: _ => rfl

/-- A buffer with a C string in it that is shorter than the buffer has the NUL behind it. -/
theorem getElem?_of_takeWhile {buf : List Byte} (h : buf.takeWhile (· ≠ 0#8) = mPassword)
    (hlen : mPassword.length < buf.length) {j : ℕ} {b : Byte}
    (hb : (mPassword ++ [0#8])[j]? = some b) : buf[j]? = some b := by
  have hsplit := List.takeWhile_append_dropWhile (p := (· ≠ 0#8)) (l := buf)
  have hhead := List.head?_dropWhile_not (· ≠ 0#8) buf
  rw [h] at hsplit
  cases hdrop : buf.dropWhile (· ≠ 0#8) with
  | nil =>
    rw [hdrop, List.append_nil] at hsplit
    rw [hsplit] at hlen
    omega
  | cons c behind =>
    rw [hdrop] at hhead hsplit
    have hzero : c = 0#8 := by simpa using hhead
    obtain ⟨hj, -⟩ := List.getElem?_eq_some_iff.mp hb
    rw [← hsplit, hzero, List.append_cons, List.getElem?_append_left hj]
    exact hb

/-- A byte of the buffer that a message was written to was there before, or is from the message. -/
theorem getElem?_overlay {bytes : List Byte} {j : ℕ} {b : Byte}
    (h : (bytes ++ buf.drop bytes.length)[j]? = some b) :
    buf[j]? = some b ∨ bytes[j]? = some b := by
  by_cases hj : j < bytes.length
  · rw [List.getElem?_append_left hj] at h
    exact .inr h
  · rw [List.getElem?_append_right (by omega), List.getElem?_drop] at h
    have hsum : bytes.length + (j - bytes.length) = j := by omega
    rw [hsum] at h
    exact .inl h

theorem length_of_oscInt_none {bytes : List Byte} (h : oscInt bytes = none) : bytes.length < 4 := by
  by_contra hlong
  match bytes, hlong, h with
  | _ :: _ :: _ :: _ :: _, _, h => exact nomatch h
  | [], hlong, _ => exact absurd hlong (by simp)
  | [_], hlong, _ => exact absurd hlong (by simp)
  | [_, _], hlong, _ => exact absurd hlong (by simp)
  | [_, _, _], hlong, _ => exact absurd hlong (by simp)

theorem loginFrames_nil : loginFrames tries [] = [] := by
  cases tries with
  | zero => rfl
  | succ tries => rfl

/-- What a try reads is the data of the first message, and the next try reads on behind it. -/
theorem loginFrames_read {msglen : ℤ}
    (hmsglen : msglen = ((oscInt s.rest).getD (junk tries)).toInt)
    (hshort : ¬ (kMaxPasswordLen : ℤ) < msglen) :
    (((s.all 4).2.all msglen.toNat).1 ≠ [] →
      ((s.all 4).2.all msglen.toNat).1 ∈ loginFrames (tries + 1) s.rest) ∧
    ∀ frame ∈ loginFrames tries ((s.all 4).2.all msglen.toNat).2.rest,
      frame ∈ loginFrames (tries + 1) s.rest := by
  simp only [Trickle.all_fst, Trickle.all_rest, List.drop_drop]
  cases hint : oscInt s.rest with
  | none =>
    have hlength := length_of_oscInt_none hint
    rw [List.drop_eq_nil_of_le (by omega), List.drop_eq_nil_of_le (by omega), List.take_nil,
      loginFrames_nil]
    exact ⟨fun hne => absurd rfl hne, nofun⟩
  | some size =>
    rw [hint, Option.getD_some] at hmsglen
    rw [loginFrames, hint]
    dsimp only
    rw [← hmsglen, if_neg hshort]
    exact ⟨fun _ => List.mem_cons_self, fun frame hframe => List.mem_cons_of_mem _ hframe⟩

/-- Each byte of an accepted password was in the buffer, or came at its place in a message. -/
theorem validate_true (hlen : mPassword.length < kMaxPasswordLen)
    (hbuf : buf.length = kMaxPasswordLen)
    (h : (validate mPassword junk tries s buf).1 = true) {j : ℕ} {b : Byte}
    (hb : (mPassword ++ [0#8])[j]? = some b) :
    buf[j]? = some b ∨ ∃ frame ∈ loginFrames tries s.rest, frame[j]? = some b := by
  induction tries generalizing s buf with
  | zero => cases h
  | succ tries ih =>
    rw [validate] at h
    dsimp only at h
    rw [Trickle.all_fst s, oscInt_take] at h
    set msglen := ((oscInt s.rest).getD (junk tries)).toInt with hmsglen
    by_cases hlong : (kMaxPasswordLen : ℤ) < msglen
    · rw [if_pos hlong] at h
      cases h
    · rw [if_neg hlong] at h
      obtain ⟨hnow, hlater⟩ := loginFrames_read junk tries hmsglen hlong
      set bytes := ((s.all 4).2.all msglen.toNat).1 with hbytes
      have hshort : bytes.length ≤ kMaxPasswordLen := by
        rw [hbytes, Trickle.all_fst, List.length_take]
        omega
      have hlength : (bytes ++ buf.drop bytes.length).length = kMaxPasswordLen := by
        rw [List.length_append, List.length_drop]
        omega
      have hread : (bytes ++ buf.drop bytes.length)[j]? = some b →
          buf[j]? = some b ∨ ∃ frame ∈ loginFrames (tries + 1) s.rest, frame[j]? = some b := by
        intro hat
        rcases getElem?_overlay buf hat with hbefore | hbytes
        · exact .inl hbefore
        · refine .inr ⟨bytes, hnow ?_, hbytes⟩
          rintro hnil
          rw [hnil] at hbytes
          cases hbytes
      by_cases hpass : (bytes ++ buf.drop bytes.length).takeWhile (· ≠ 0#8) = mPassword
      · exact hread (getElem?_of_takeWhile hpass (by omega) hb)
      · rw [if_neg hpass] at h
        rcases ih _ hlength h with hat | ⟨frame, hframe, hat⟩
        · exact hread hat
        · exact .inr ⟨frame, hlater frame hframe, hat⟩

/-- Where a password is set, nothing comes to the engine unless each byte of the password, and the
NUL behind it, was sent at its place in one of the first four messages, or was in the
uninitialised buffer. -/
theorem tcp_password (mPassword buf : List Byte) (junk : ℕ → Word) (s : Trickle Byte)
    (hset : mPassword ≠ []) (hlen : mPassword.length < kMaxPasswordLen)
    (hbuf : buf.length = kMaxPasswordLen) (hrun : tcpRun mPassword buf junk s ≠ []) (j : ℕ)
    (b : Byte) (hb : (mPassword ++ [0#8])[j]? = some b) :
    buf[j]? = some b ∨ ∃ frame ∈ loginFrames 4 s.rest, frame[j]? = some b := by
  apply validate_true buf junk 4 hlen hbuf _ hb
  unfold tcpRun at hrun
  rw [if_neg hset] at hrun
  generalize validate mPassword junk 4 s buf = r at hrun
  obtain ⟨valid, s'⟩ := r
  cases valid with
  | false => exact absurd rfl hrun
  | true => rfl

/-- A password that is sent in one piece with a packet behind it. -/
theorem tcp_password_sent :
    tcpRun [97#8] (List.replicate 32 1#8) (fun _ => 0#32)
        ⟨login [97#8] ++ element [5#8], fun _ => 0⟩ ≠ [] ∧
      ∃ frame ∈ loginFrames 4 (login [97#8] ++ element [5#8]), frame[0]? = some 97#8 := by
  have hrun : tcpRun [97#8] (List.replicate 32 1#8) (fun _ => 0#32)
      ⟨login [97#8] ++ element [5#8], fun _ => 0⟩ ≠ [] := by decide
  have hsent := tcp_password [97#8] (List.replicate 32 1#8) (fun _ => 0#32)
    ⟨login [97#8] ++ element [5#8], fun _ => 0⟩ (by decide) (by decide) rfl hrun 0 97#8 rfl
  exact ⟨hrun, hsent.resolve_left (by decide)⟩

end Login

end PoopWorms.Server
