import PoopWorms.Lib.DenseTable
import PoopWorms.Lib.Runs
import PoopWorms.Lib.Octets

/-!
# The clients that are notified

`NotifyCmd` adds the address of its sender to the table of users of the server, or removes it
from there. The abstract model is the history of the requests with the replies to them: a user
is who was last accepted with a request to be notified.
-/

namespace PoopWorms.Server

open Octets DenseTable

/-- `sockaddr_in`; it has a `sin_len` on Apple's systems only. -/
structure SockaddrIn where
  sin_len : Byte
  sin_family : BitVec 16
  sin_port : BitVec 16
  s_addr : Word
deriving DecidableEq

structure ReplyAddress where
  mSockAddr : SockaddrIn
  mSockAddrLen : Word
  mSocket : Word
  mReplyFunc : ℕ
  mReplyData : ℕ
deriving DecidableEq

namespace ReplyAddress

/-- `operator==`, with or without `__APPLE__`. -/
def eq (apple : Bool) (a b : ReplyAddress) : Bool :=
  a.mSockAddr.s_addr == b.mSockAddr.s_addr
    && a.mSockAddr.sin_family == b.mSockAddr.sin_family
    && a.mSockAddr.sin_port == b.mSockAddr.sin_port
    && (!apple || a.mSockAddr.sin_len == b.mSockAddr.sin_len)
    && a.mSocket == b.mSocket

/-- What `operator==` compares. -/
def key (apple : Bool) (a : ReplyAddress) : Word × BitVec 16 × BitVec 16 × Byte × Word :=
  (a.mSockAddr.s_addr, a.mSockAddr.sin_family, a.mSockAddr.sin_port,
    if apple then a.mSockAddr.sin_len else 0#8, a.mSocket)

theorem eq_iff_key {apple : Bool} {a b : ReplyAddress} :
    a.eq apple b = true ↔ a.key apple = b.key apple := by
  cases apple <;> simp [eq, key, and_assoc]

end ReplyAddress

/-! ## The command -/

/-- The users of `HiddenWorld`. -/
structure NotifyUsers where
  mUsers : ℕ → ReplyAddress
  mNumUsers : ℕ
  mMaxUsers : ℕ

structure NotifyCmd where
  mReplyAddress : ReplyAddress
  mOnOff : Word

/-- What goes back to the sender: `SendDone` or `SendFailure`, with its arguments. -/
inductive NotifyReply
  | done (inCommandName : String)
  | failure (inCommandName errString : String)
deriving DecidableEq

namespace NotifyReply

def accepted : NotifyReply → Bool
  | done _ => true
  | failure _ _ => false

end NotifyReply

namespace NotifyUsers

/-- As `World_New` sets it; `zalloc` fills the table with zeros. -/
def new (mMaxLogins : ℕ) : NotifyUsers where
  mUsers := fun _ => ⟨⟨0#8, 0#16, 0#16, 0#32⟩, 0#32, 0#32, 0, 0⟩
  mNumUsers := 0
  mMaxUsers := mMaxLogins

variable (apple : Bool)

/-- The loops of `Stage2`: the first user who has the address. -/
def findUser (hw : NotifyUsers) (mReplyAddress : ReplyAddress) : Option ℕ :=
  (List.range hw.mNumUsers).find? fun i => mReplyAddress.eq apple (hw.mUsers i)

/-- `NotifyCmd::Stage2`. -/
def stage2 (hw : NotifyUsers) (cmd : NotifyCmd) : NotifyUsers × NotifyReply :=
  if cmd.mOnOff ≠ 0#32 then
    match hw.findUser apple cmd.mReplyAddress with
    | some _ => (hw, .failure "/notify" "notify: already registered\n")
    | none =>
      if hw.mNumUsers ≥ hw.mMaxUsers then (hw, .failure "/notify" "too many users\n")
      else
        ({ hw with
          mUsers := push hw.mUsers hw.mNumUsers cmd.mReplyAddress
          mNumUsers := hw.mNumUsers + 1 }, .done "/notify")
  else
    match hw.findUser apple cmd.mReplyAddress with
    | some i =>
      ({ hw with
        mUsers := swapRemove hw.mUsers hw.mNumUsers i
        mNumUsers := hw.mNumUsers - 1 }, .done "/notify")
    | none => (hw, .failure "/notify" "not registered\n")

end NotifyUsers

/-! ## The history of the requests -/

/-- The table, with the commands that were performed and the replies to them. -/
structure NotifyRun where
  hw : NotifyUsers
  log : List (NotifyCmd × NotifyReply)

namespace NotifyRun

def new (mMaxLogins : ℕ) : NotifyRun := ⟨.new mMaxLogins, []⟩

def step (apple : Bool) (s : NotifyRun) (cmd : NotifyCmd) : NotifyRun where
  hw := (s.hw.stage2 apple cmd).1
  log := s.log ++ [(cmd, (s.hw.stage2 apple cmd).2)]

/-- The last request of an address that was accepted: whether it was to be notified. -/
def lastAccepted (apple : Bool) (log : List (NotifyCmd × NotifyReply)) (a : ReplyAddress) :
    Option Bool :=
  (log.reverse.find? fun e => e.1.mReplyAddress.eq apple a && e.2.accepted).map
    fun e => decide (e.1.mOnOff ≠ 0#32)

end NotifyRun

/-! ## What the command does -/

namespace NotifyUsers

variable {apple : Bool} {hw : NotifyUsers} {cmd : NotifyCmd}

/-- The keys of the users. -/
def keys (apple : Bool) (hw : NotifyUsers) : Set (Word × BitVec 16 × BitVec 16 × Byte × Word) :=
  keysBelow (ReplyAddress.key apple) hw.mUsers hw.mNumUsers

theorem mem_keys {a : ReplyAddress} : a.key apple ∈ hw.keys apple ↔
    ∃ i < hw.mNumUsers, (hw.mUsers i).eq apple a = true := by
  simp only [keys, mem_keysBelow, ReplyAddress.eq_iff_key]

theorem findUser_eq_none {a : ReplyAddress} (h : hw.findUser apple a = none) :
    a.key apple ∉ hw.keys apple := by
  rw [findUser, List.find?_eq_none] at h
  rintro ⟨i, hi, he⟩
  apply h i (List.mem_range.mpr hi)
  exact ReplyAddress.eq_iff_key.mpr he.symm

theorem findUser_eq_some {a : ReplyAddress} {i : ℕ} (h : hw.findUser apple a = some i) :
    i < hw.mNumUsers ∧ (hw.mUsers i).key apple = a.key apple := by
  unfold findUser at h
  have hmem : i ∈ List.range hw.mNumUsers := List.mem_of_find?_eq_some h
  have heq : a.eq apple (hw.mUsers i) = true := by
    apply List.find?_some h
  exact ⟨List.mem_range.mp hmem, (ReplyAddress.eq_iff_key.mp heq).symm⟩

/-- The three ways in which a command ends: a new user, a user less, a refusal. -/
theorem stage2_cases (apple : Bool) (hw : NotifyUsers) (cmd : NotifyCmd) :
    (cmd.mOnOff ≠ 0#32 ∧ cmd.mReplyAddress.key apple ∉ hw.keys apple ∧
      hw.mNumUsers < hw.mMaxUsers ∧
      hw.stage2 apple cmd = (⟨push hw.mUsers hw.mNumUsers cmd.mReplyAddress,
        hw.mNumUsers + 1, hw.mMaxUsers⟩, .done "/notify")) ∨
    (cmd.mOnOff = 0#32 ∧ ∃ i < hw.mNumUsers,
      (hw.mUsers i).key apple = cmd.mReplyAddress.key apple ∧
      hw.stage2 apple cmd = (⟨swapRemove hw.mUsers hw.mNumUsers i,
        hw.mNumUsers - 1, hw.mMaxUsers⟩, .done "/notify")) ∨
    ∃ errString, hw.stage2 apple cmd = (hw, .failure "/notify" errString) := by
  unfold stage2
  by_cases hon : cmd.mOnOff ≠ 0#32
  · rw [if_pos hon]
    cases hfind : hw.findUser apple cmd.mReplyAddress with
    | some i => exact .inr (.inr ⟨_, rfl⟩)
    | none =>
      by_cases hfull : hw.mNumUsers ≥ hw.mMaxUsers
      · exact .inr (.inr ⟨_, if_pos hfull⟩)
      · exact .inl ⟨hon, findUser_eq_none hfind, by omega, if_neg hfull⟩
  · rw [if_neg hon]
    cases hfind : hw.findUser apple cmd.mReplyAddress with
    | some i =>
      obtain ⟨hi, hkey⟩ := findUser_eq_some hfind
      exact .inr (.inl ⟨not_not.mp hon, i, hi, hkey, rfl⟩)
    | none => exact .inr (.inr ⟨_, rfl⟩)

theorem stage2_refused (h : (hw.stage2 apple cmd).2.accepted = false) :
    (hw.stage2 apple cmd).1 = hw := by
  obtain ⟨-, -, -, hstage⟩ | ⟨-, i, -, -, hstage⟩ | ⟨err, hstage⟩ := stage2_cases apple hw cmd
  · rw [hstage] at h
    cases h
  · rw [hstage] at h
    cases h
  · rw [hstage]

end NotifyUsers

/-! ## All runs -/

namespace NotifyRun

variable {apple : Bool} {s : NotifyRun} {mMaxLogins : ℕ}

theorem lastAccepted_append {log : List (NotifyCmd × NotifyReply)} {cmd : NotifyCmd}
    {reply : NotifyReply} {a : ReplyAddress} :
    lastAccepted apple (log ++ [(cmd, reply)]) a =
      if cmd.mReplyAddress.eq apple a && reply.accepted then some (decide (cmd.mOnOff ≠ 0#32))
      else lastAccepted apple log a := by
  unfold lastAccepted
  rw [List.reverse_append, List.reverse_singleton, List.singleton_append, List.find?_cons]
  cases cmd.mReplyAddress.eq apple a && reply.accepted <;> rfl

/-- The table is full of different users, and a user is who was last accepted as one. -/
structure Sound (apple : Bool) (mMaxLogins : ℕ) (s : NotifyRun) : Prop where
  maxUsers : s.hw.mMaxUsers = mMaxLogins
  numUsers : s.hw.mNumUsers ≤ mMaxLogins
  distinct : Distinct (ReplyAddress.key apple) s.hw.mUsers s.hw.mNumUsers
  users : ∀ a : ReplyAddress,
    a.key apple ∈ s.hw.keys apple ↔ lastAccepted apple s.log a = some true

theorem Sound.new (apple : Bool) (mMaxLogins : ℕ) : Sound apple mMaxLogins (new mMaxLogins) where
  maxUsers := rfl
  numUsers := Nat.zero_le _
  distinct := distinct_zero
  users a := by
    show a.key apple ∈ keysBelow (ReplyAddress.key apple) _ 0 ↔ none = some true
    simp

/-- What an accepted command does to the set of users agrees with the history. -/
theorem users_of_accepted {keys keys' : Set (Word × BitVec 16 × BitVec 16 × Byte × Word)}
    {log : List (NotifyCmd × NotifyReply)} {cmd : NotifyCmd} {name : String}
    (h : ∀ a : ReplyAddress, a.key apple ∈ keys ↔ lastAccepted apple log a = some true)
    (hself : cmd.mReplyAddress.key apple ∈ keys' ↔ cmd.mOnOff ≠ 0#32)
    (hother : ∀ k ≠ cmd.mReplyAddress.key apple, k ∈ keys' ↔ k ∈ keys) (a : ReplyAddress) :
    a.key apple ∈ keys' ↔
      lastAccepted apple (log ++ [(cmd, NotifyReply.done name)]) a = some true := by
  rw [lastAccepted_append]
  by_cases ha : cmd.mReplyAddress.eq apple a = true
  · rw [if_pos (by simp [ha, NotifyReply.accepted]), ← ReplyAddress.eq_iff_key.mp ha, hself]
    simp
  · have hne : a.key apple ≠ cmd.mReplyAddress.key apple :=
      fun he => ha (ReplyAddress.eq_iff_key.mpr he.symm)
    rw [if_neg (by simp [ha]), hother _ hne, h a]

theorem Sound.step (h : Sound apple mMaxLogins s) (cmd : NotifyCmd) :
    Sound apple mMaxLogins (s.step apple cmd) := by
  obtain ⟨hon, hnew, hroom, hstage⟩ | ⟨hoff, i, hi, hkey, hstage⟩ | ⟨err, hstage⟩ :=
    NotifyUsers.stage2_cases apple s.hw cmd
  · -- A new user stands behind the others.
    have hmax := h.maxUsers
    unfold NotifyRun.step
    rw [hstage]
    refine ⟨hmax, ?_, h.distinct.push hnew, ?_⟩
    · show s.hw.mNumUsers + 1 ≤ mMaxLogins
      omega
    · apply users_of_accepted h.users
      · show _ ∈ keysBelow _ (push _ _ _) (s.hw.mNumUsers + 1) ↔ _
        rw [keysBelow_push]
        simp [hon]
      · intro k hk
        show k ∈ keysBelow _ (push _ _ _) (s.hw.mNumUsers + 1) ↔ k ∈ s.hw.keys apple
        rw [keysBelow_push, Set.mem_insert_iff]
        exact or_iff_right hk
  · -- The last user takes the place of the one who leaves.
    unfold NotifyRun.step
    rw [hstage]
    refine ⟨h.maxUsers, ?_, h.distinct.swapRemove, ?_⟩
    · exact (Nat.sub_le _ _).trans h.numUsers
    · apply users_of_accepted h.users
      · show _ ∈ keysBelow _ (swapRemove _ _ _) (s.hw.mNumUsers - 1) ↔ _
        rw [h.distinct.keysBelow_swapRemove hi, hkey]
        simp [hoff]
      · intro k hk
        show k ∈ keysBelow _ (swapRemove _ _ _) (s.hw.mNumUsers - 1) ↔ k ∈ s.hw.keys apple
        rw [h.distinct.keysBelow_swapRemove hi, hkey, Set.mem_sdiff, Set.mem_singleton_iff]
        exact and_iff_left hk
  · unfold NotifyRun.step
    rw [hstage]
    refine ⟨h.maxUsers, h.numUsers, h.distinct, fun a => ?_⟩
    rw [lastAccepted_append, if_neg (by simp [NotifyReply.accepted])]
    exact h.users a

theorem Sound.run (apple : Bool) (mMaxLogins : ℕ) (cmds : List NotifyCmd) :
    Sound apple mMaxLogins (Runs.run (NotifyRun.step apple) (NotifyRun.new mMaxLogins) cmds) :=
  Runs.invariant (I := Sound apple mMaxLogins) (fun _ cmd h => Sound.step h cmd)
    (Sound.new apple mMaxLogins) cmds

/-- The history names the commands of the run in their order. -/
theorem log_run (cmds : List NotifyCmd) (s : NotifyRun) :
    (Runs.run (step apple) s cmds).log.map Prod.fst = s.log.map Prod.fst ++ cmds := by
  induction cmds generalizing s with
  | nil => simp
  | cons cmd cmds ih =>
    rw [Runs.run_cons, ih]
    simp [step]

/-- After any commands, the table holds at most `mMaxLogins` users, no two of them alike; they
are the addresses that were last accepted with a request to be notified. A request that is
refused leaves everything as it is. -/
theorem notifiedUsers (apple : Bool) (mMaxLogins : ℕ) (cmds : List NotifyCmd) :
    let s := Runs.run (step apple) (new mMaxLogins) cmds
    s.log.map Prod.fst = cmds ∧
    s.hw.mNumUsers ≤ mMaxLogins ∧
    (∀ i < s.hw.mNumUsers, ∀ j < s.hw.mNumUsers,
      (s.hw.mUsers i).eq apple (s.hw.mUsers j) = true → i = j) ∧
    (∀ a, (∃ i < s.hw.mNumUsers, (s.hw.mUsers i).eq apple a = true) ↔
      lastAccepted apple s.log a = some true) ∧
    ∀ cmd, (s.hw.stage2 apple cmd).2.accepted = false → (s.hw.stage2 apple cmd).1 = s.hw := by
  have hsound := Sound.run apple mMaxLogins cmds
  refine ⟨log_run cmds _, hsound.numUsers, ?_, ?_, fun _ => NotifyUsers.stage2_refused⟩
  · intro i hi j hj he
    exact hsound.distinct i hi j hj (ReplyAddress.eq_iff_key.mp he)
  · intro a
    rw [← NotifyUsers.mem_keys]
    exact hsound.users a

end NotifyRun

end PoopWorms.Server
