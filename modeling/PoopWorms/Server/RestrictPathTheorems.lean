import PoopWorms.Lib.Paths
import PoopWorms.Server.ControlArgsTheorems
import PoopWorms.Server.RestrictPath

/-!
# Which paths are restricted

The tokens of a path are copied behind the base while there is room for them, and the base itself
is copied unless the path begins with it as a string. The separator behind a token takes the
place of its NUL, so the string has an end only where the last token of all is copied.
-/

namespace PoopWorms.Server

open Octets Osc Paths

/-! ## Tokens -/

/-- A token, cut off at the length that the parser has room for. -/
def cutToken (t : List Byte) : List Byte := t.take (SC_MAX_TOKEN_LENGTH - 1)

def tokens (inPath : List Byte) : List (List Byte) :=
  if inPath = [] then [] else (inPath.splitOn slash).map cutToken

def StringParser.tokens (sp : StringParser) : List (List Byte) :=
  match sp.mSpec with
  | none => []
  | some mStart => (mStart.splitOn slash).map cutToken

theorem tokens_new (inPath : List Byte) : (StringParser.new inPath).tokens = tokens inPath := by
  unfold StringParser.new StringParser.tokens tokens
  cases inPath with
  | nil => rfl
  | cons c inPath => rfl

theorem atEnd_iff (sp : StringParser) : sp.atEnd = true ↔ sp.tokens = [] := by
  unfold StringParser.atEnd StringParser.tokens
  cases sp.mSpec with
  | none => simp
  | some mStart => simp

theorem nextToken_of_nil {sp : StringParser} (h : sp.tokens = []) : sp.nextToken = none := by
  rw [← atEnd_iff, StringParser.atEnd, Option.isNone_iff_eq_none] at h
  unfold StringParser.nextToken
  rw [h]
  rfl

theorem takeWhile_slash (t s : List Byte) (ht : slash ∉ t) :
    (t ++ slash :: s).takeWhile (fun c => c ≠ slash) = t := by
  rw [List.takeWhile_append_of_pos, List.takeWhile_cons_of_neg (by simp), List.append_nil]
  intro c hc
  simpa using fun h : c = slash => ht (h ▸ hc)

theorem nextToken_of_cons {sp : StringParser} {t : List Byte} {ts : List (List Byte)}
    (h : sp.tokens = t :: ts) : ∃ sp', sp.nextToken = some (t, sp') ∧ sp'.tokens = ts := by
  unfold StringParser.nextToken
  cases hspec : sp.mSpec with
  | none =>
    unfold StringParser.tokens at h
    rw [hspec] at h
    cases h
  | some mStart =>
    simp only [StringParser.tokens, hspec] at h
    rw [Option.map_some]
    dsimp only
    by_cases hslash : slash ∈ mStart
    · obtain ⟨a, b, rfl, ha⟩ := List.eq_append_cons_of_mem hslash
      rw [List.splitOn_append_cons_self_of_not_mem ha, List.map_cons] at h
      obtain ⟨rfl, rfl⟩ := List.cons.inj h
      have hlen : a.length ≠ (a ++ slash :: b).length := by
        rw [List.length_append, List.length_cons]
        omega
      rw [takeWhile_slash a b ha, if_neg hlen]
      refine ⟨_, congrArg some (Prod.ext ?_ rfl), ?_⟩
      · rw [← List.take_take, List.take_left]
        rfl
      · rw [List.drop_append, List.drop_of_length_le (by omega), Nat.add_sub_cancel_left]
        rfl
    · rw [List.splitOn_eq_singleton hslash] at h
      obtain ⟨rfl, rfl⟩ := List.cons.inj h
      have htake : mStart.takeWhile (fun c => c ≠ slash) = mStart := by
        rw [List.takeWhile_eq_self_iff]
        intro c hc
        simpa using fun h : c = slash => hslash (h ▸ hc)
      rw [htake, if_pos rfl]
      refine ⟨_, congrArg some (Prod.ext ?_ rfl), rfl⟩
      exact List.take_eq_take_min.symm

/-! ## What the tokens come to -/

/-- A token that is copied: there is room for it and for the byte behind it. -/
def TokenKept (room : ℕ) (t : List Byte) : Prop := t ≠ dotDot ∧ t.length < room

instance (room : ℕ) (t : List Byte) : Decidable (TokenKept room t) :=
  inferInstanceAs (Decidable (_ ∧ _))

/-- What is copied of the tokens, with the separators behind all but the last. -/
def copiedTokens : ℕ → List (List Byte) → List Byte
  | _, [] => []
  | room, t :: ts =>
    if TokenKept room t then
      if ts = [] then t else t ++ slash :: copiedTokens (room - (t.length + 1)) ts
    else copiedTokens room ts

/-- There is a NUL behind what has been copied; `ended` if there is one before. -/
def endsAfter : Bool → ℕ → List (List Byte) → Bool
  | ended, _, [] => ended
  | ended, room, t :: ts =>
    if TokenKept room t then
      if ts = [] then true else endsAfter false (room - (t.length + 1)) ts
    else endsAfter ended room ts

theorem length_copiedTokens_le (room : ℕ) (ts : List (List Byte)) :
    (copiedTokens room ts).length ≤ room := by
  induction ts generalizing room with
  | nil => exact Nat.zero_le _
  | cons t ts ih =>
    unfold copiedTokens
    split_ifs with hkept hlast
    · exact hkept.2.le
    · have hrest := ih (room - (t.length + 1))
      have hroom := hkept.2
      rw [List.length_append, List.length_cons]
      omega
    · exact ih room

/-- The loop copies what the tokens come to, and leaves what is behind as it was, unless it ends
the string there. -/
theorem copyTokens_eq {ts : List (List Byte)} {sp : StringParser} (hsp : sp.tokens = ts)
    {fuel : ℕ} (hfuel : ts.length < fuel) (front rest : List Byte) {ended : Bool}
    (hended : ended = true → rest.head? = some 0#8) :
    ∃ rest', copyTokens fuel sp (front ++ rest) front.length rest.length =
        some (front ++ copiedTokens rest.length ts ++ rest') ∧
      (endsAfter ended rest.length ts = true → rest'.head? = some 0#8) ∧
      (endsAfter ended rest.length ts = false →
        rest' = rest.drop (copiedTokens rest.length ts).length) := by
  induction ts generalizing sp fuel front rest ended with
  | nil =>
    obtain ⟨fuel, rfl⟩ := Nat.exists_eq_succ_of_ne_zero (show fuel ≠ 0 by omega)
    refine ⟨rest, ?_, hended, fun _ => rfl⟩
    rw [copyTokens, nextToken_of_nil hsp]
    show some (front ++ rest) = some (front ++ [] ++ rest)
    rw [List.append_nil]
  | cons t ts ih =>
    obtain ⟨fuel, rfl⟩ := Nat.exists_eq_succ_of_ne_zero (show fuel ≠ 0 by omega)
    obtain ⟨sp', hnext, hsp'⟩ := nextToken_of_cons hsp
    have hfuel : ts.length < fuel := by
      rw [List.length_cons] at hfuel
      omega
    have hroom : toSizeT rest.length = rest.length := if_neg (by omega)
    have hiff : (t ≠ dotDot ∧ (t.length : ℤ) < toSizeT rest.length) ↔ TokenKept rest.length t := by
      rw [hroom, Nat.cast_lt]
      rfl
    rw [copyTokens, hnext]
    dsimp only
    by_cases hkept : TokenKept rest.length t
    swap
    · rw [if_neg (mt hiff.mp hkept), copiedTokens, endsAfter, if_neg hkept, if_neg hkept]
      exact ih hsp' hfuel front rest hended
    have hlt := hkept.2
    rw [if_pos (hiff.mpr hkept)]
    -- the token and its NUL take the place of the first bytes of the rest
    have hrest : rest = rest.take (t.length + 1) ++ rest.drop (t.length + 1) :=
      (List.take_append_drop _ _).symm
    have hstore : strcpy (front ++ rest) front.length t =
        some (front ++ (t ++ [0#8]) ++ rest.drop (t.length + 1)) := by
      conv_lhs => rw [hrest, ← List.append_assoc]
      refine poke_append rfl ?_
      rw [List.length_take, List.length_append, List.length_singleton]
      omega
    rw [hstore, Option.bind_eq_bind, Option.bind_some, copiedTokens, endsAfter, if_pos hkept,
      if_pos hkept]
    by_cases hlast : ts = []
    · subst hlast
      obtain ⟨rest', hcopy, hends, -⟩ := ih hsp' hfuel (front ++ t)
        (0#8 :: rest.drop (t.length + 1)) fun _ : true = true => rfl
      have hlen : ((0#8 :: rest.drop (t.length + 1)).length : ℤ) = rest.length - t.length := by
        rw [List.length_cons, List.length_drop]
        omega
      have hlist : front ++ t ++ 0#8 :: rest.drop (t.length + 1) =
          front ++ (t ++ [0#8]) ++ rest.drop (t.length + 1) := by
        simp
      rw [hlen, hlist, List.length_append] at hcopy
      rw [if_pos ((atEnd_iff _).mpr hsp'), if_pos rfl, if_pos rfl]
      refine ⟨rest', ?_, fun _ => hends rfl, fun h => absurd h (by decide)⟩
      rw [hcopy]
      simp [copiedTokens]
    · have hmore : ¬ sp'.atEnd = true := fun h => hlast (hsp' ▸ (atEnd_iff _).mp h)
      -- the separator takes the place of the NUL
      have hsep : poke (front ++ (t ++ [0#8]) ++ rest.drop (t.length + 1))
          (front.length + t.length) [slash] =
          some (front ++ t ++ [slash] ++ rest.drop (t.length + 1)) := by
        rw [← List.append_assoc front t [0#8]]
        exact poke_append (by rw [List.length_append]) rfl
      obtain ⟨rest', hcopy, hends, hkeeps⟩ := ih hsp' hfuel (front ++ t ++ [slash])
        (rest.drop (t.length + 1)) fun h : false = true => absurd h (by decide)
      have hlen : ((rest.drop (t.length + 1)).length : ℤ) = rest.length - t.length - 1 := by
        rw [List.length_drop]
        omega
      have hfront : (front ++ t ++ [slash]).length = front.length + t.length + 1 := by
        rw [List.length_append, List.length_append]
        rfl
      rw [hlen, hfront] at hcopy
      rw [List.length_drop] at hcopy hends hkeeps
      rw [if_neg hmore, hsep, Option.bind_some, if_neg hlast, if_neg hlast]
      refine ⟨rest', ?_, hends, fun h => ?_⟩
      · rw [hcopy]
        simp
      · rw [hkeeps h, List.drop_drop, List.length_append, List.length_cons]
        congr 1
        omega

/-! ## The whole function -/

/-- The buffer begins with the base, and there is a NUL behind it. -/
def endsWithBase (inPath restrictBase : List Byte) : Bool :=
  ¬ restrictBase.isPrefixOf inPath ∧
    (inPath.head? = some slash ∨ restrictBase.getLast? = some slash)

/-- What stands in front of the tokens. -/
def frontOf (inPath restrictBase : List Byte) : List Byte :=
  if restrictBase.isPrefixOf inPath then []
  else if inPath.head? = some slash ∨ restrictBase.getLast? = some slash then restrictBase
  else restrictBase ++ [slash]

theorem takeWhile_nul {s : List Byte} (hs : ∀ c ∈ s, c ≠ 0#8) (rest : List Byte) :
    (s ++ 0#8 :: rest).takeWhile (fun c => c ≠ 0#8) = s := by
  rw [List.takeWhile_append_of_pos, List.takeWhile_cons_of_neg (by simp), List.append_nil]
  intro c hc
  simpa using hs c hc

theorem strlen_eq {s rest : List Byte} (hs : ∀ c ∈ s, c ≠ 0#8)
    (hrest : rest.head? = some 0#8) : strlen (s ++ rest) = some s.length := by
  obtain ⟨rest, rfl⟩ := List.head?_eq_some_iff.mp hrest
  unfold strlen
  rw [if_pos (by simp), takeWhile_nul hs]

theorem getElem?_pred {s : List Byte} (hs : s ≠ []) (rest : List Byte) :
    (s ++ rest)[s.length - 1]? = s.getLast? := by
  have hpos := List.length_pos_iff.mpr hs
  rw [List.getElem?_append_left (by omega), List.getLast?_eq_getElem?]

section Whole

variable {strbuf inPath restrictBase : List Byte}

/-- The buffer holds the base if it has room for it and its NUL. -/
theorem beginWithBase_eq (hbase : restrictBase ≠ []) (hzero : ∀ c ∈ restrictBase, c ≠ 0#8)
    (hroom : ¬ restrictBase.isPrefixOf inPath → restrictBase.length < strbuf.length) :
    ∃ rest, beginWithBase strbuf inPath restrictBase = some (frontOf inPath restrictBase ++ rest,
        (frontOf inPath restrictBase).length, (rest.length : ℤ)) ∧
      (frontOf inPath restrictBase).length + rest.length = strbuf.length ∧
      (endsWithBase inPath restrictBase = true → rest.head? = some 0#8) ∧
      rest.tail ⊆ strbuf ∧ (endsWithBase inPath restrictBase = false → rest ⊆ strbuf) := by
  unfold beginWithBase frontOf endsWithBase
  by_cases hpre : restrictBase.isPrefixOf inPath = true
  · simp only [hpre, if_true, not_true_eq_false, false_and, decide_false]
    exact ⟨strbuf, rfl, Nat.zero_add _, fun h => absurd h (by decide), List.tail_subset _,
      fun _ => List.Subset.refl _⟩
  have hlt := hroom hpre
  have hstore : strcpy strbuf 0 restrictBase =
      some (restrictBase ++ 0#8 :: strbuf.drop (restrictBase.length + 1)) := by
    unfold strcpy poke
    rw [List.length_append, List.length_singleton, if_pos (by omega)]
    simp
  have hlen : ((0#8 :: strbuf.drop (restrictBase.length + 1)).length : ℤ) =
      strbuf.length - restrictBase.length := by
    rw [List.length_cons, List.length_drop]
    omega
  have hstrlen : strlen (restrictBase ++ 0#8 :: strbuf.drop (restrictBase.length + 1)) =
      some restrictBase.length := strlen_eq hzero rfl
  simp only [hpre, hstore, Bool.false_eq_true, if_false, not_false_eq_true, true_and,
    Option.bind_eq_bind, Option.bind_some, hstrlen, getElem?_pred hbase]
  by_cases hsep : inPath.head? = some slash ∨ restrictBase.getLast? = some slash
  · refine ⟨0#8 :: strbuf.drop (restrictBase.length + 1), ?_, ?_, fun _ => rfl,
      List.drop_subset _ _, ?_⟩
    · rw [if_pos hsep, hlen]
      split_ifs with hhead hlast
      · rfl
      · rfl
      · exact absurd hsep (not_or.mpr ⟨hhead, hlast⟩)
    · rw [if_pos hsep]
      omega
    · simp [hsep]
  · have hne := not_or.mp hsep
    have hput : poke (restrictBase ++ 0#8 :: strbuf.drop (restrictBase.length + 1))
        restrictBase.length [slash] =
        some (restrictBase ++ [slash] ++ strbuf.drop (restrictBase.length + 1)) := by
      rw [List.append_cons restrictBase 0#8]
      exact poke_append rfl rfl
    refine ⟨strbuf.drop (restrictBase.length + 1), ?_, ?_, ?_, ?_, fun _ => List.drop_subset _ _⟩
    · rw [if_neg hne.1, if_neg hne.2, if_neg hsep, hput, Option.bind_some, List.length_append,
        List.length_drop]
      congr 3
      omega
    · rw [if_neg hsep, List.length_append, List.length_drop]
      simp only [List.length_singleton]
      omega
    · simp [hsep]
    · exact List.Subset.trans (List.tail_subset _) (List.drop_subset _ _)

theorem beginWithBase_none (hpre : ¬ restrictBase.isPrefixOf inPath)
    (hroom : strbuf.length ≤ restrictBase.length) :
    beginWithBase strbuf inPath restrictBase = none := by
  have hstore : strcpy strbuf 0 restrictBase = none := by
    unfold strcpy poke
    rw [List.length_append, List.length_singleton, if_neg (by omega)]
  unfold beginWithBase
  rw [if_neg hpre, hstore]
  rfl

/-- The bytes of the tokens, and separators. -/
theorem mem_copiedTokens {c : Byte} {room : ℕ} {ts : List (List Byte)}
    (h : c ∈ copiedTokens room ts) : c = slash ∨ ∃ t ∈ ts, c ∈ t := by
  induction ts generalizing room with
  | nil => cases h
  | cons t ts ih =>
    unfold copiedTokens at h
    split_ifs at h
    · exact .inr ⟨t, List.mem_cons_self, h⟩
    · rcases List.mem_append.mp h with hmem | hmem
      · exact .inr ⟨t, List.mem_cons_self, hmem⟩
      · rcases List.mem_cons.mp hmem with hsep | hmem
        · exact .inl hsep
        · exact (ih hmem).imp_right fun ⟨u, hu, hc⟩ => ⟨u, List.mem_cons_of_mem _ hu, hc⟩
    · exact (ih h).imp_right fun ⟨u, hu, hc⟩ => ⟨u, List.mem_cons_of_mem _ hu, hc⟩

theorem subset_of_mem_tokens {t : List Byte} (h : t ∈ tokens inPath) : t ⊆ inPath := by
  unfold tokens at h
  split_ifs at h
  · cases h
  · obtain ⟨u, hu, rfl⟩ := List.mem_map.mp h
    exact fun c hc => subset_of_mem_splitOn hu (List.take_subset _ _ hc)

/-- What the tokens of the path come to behind the base. -/
def restricted (room : ℕ) (inPath restrictBase : List Byte) : List Byte :=
  frontOf inPath restrictBase ++
    copiedTokens (room - (frontOf inPath restrictBase).length) (tokens inPath)

def endsRestricted (room : ℕ) (inPath restrictBase : List Byte) : Bool :=
  endsAfter (endsWithBase inPath restrictBase) (room - (frontOf inPath restrictBase).length)
    (tokens inPath)

theorem restricted_ne_zero (hzero : ∀ c ∈ restrictBase, c ≠ 0#8) (hpath : ∀ c ∈ inPath, c ≠ 0#8)
    (room : ℕ) : ∀ c ∈ restricted room inPath restrictBase, c ≠ 0#8 := by
  intro c hc
  rcases List.mem_append.mp hc with hc | hc
  · unfold frontOf at hc
    split_ifs at hc
    · cases hc
    · exact hzero c hc
    · rcases List.mem_append.mp hc with hc | hc
      · exact hzero c hc
      · rw [List.mem_singleton.mp hc]
        decide
  · rcases mem_copiedTokens hc with rfl | ⟨t, ht, hc⟩
    · decide
    · exact hpath c (subset_of_mem_tokens ht hc)

theorem length_tokens_lt (inPath : List Byte) : (tokens inPath).length < inPath.length + 2 := by
  have hle := length_splitOn_le slash inPath
  unfold tokens
  split_ifs
  · exact Nat.succ_pos _
  · rw [List.length_map]
    omega

/-- If the NUL of the base is gone, something has been copied over it. -/
theorem copiedTokens_pos {room : ℕ} {ts : List (List Byte)}
    (h : endsAfter true room ts = false) : 0 < (copiedTokens room ts).length := by
  induction ts with
  | nil => cases h
  | cons t ts ih =>
    unfold endsAfter at h
    unfold copiedTokens
    split_ifs at h ⊢
    · rw [List.length_append, List.length_cons]
      omega
    · exact ih h

/-- The whole function: the loop ends, and the result is what the tokens come to if there is a
NUL behind it; else it is what the stack makes of it. -/
theorem allocAndRestrictPath_eq (hbase : restrictBase ≠ []) (hzero : ∀ c ∈ restrictBase, c ≠ 0#8)
    (hpath : ∀ c ∈ inPath, c ≠ 0#8)
    (hroom : ¬ restrictBase.isPrefixOf inPath → restrictBase.length < strbuf.length) :
    (endsRestricted strbuf.length inPath restrictBase = true →
      allocAndRestrictPath strbuf inPath restrictBase =
        some (restricted strbuf.length inPath restrictBase)) ∧
    (endsRestricted strbuf.length inPath restrictBase = false → (∀ c ∈ strbuf, c ≠ 0#8) →
      allocAndRestrictPath strbuf inPath restrictBase = none) := by
  obtain ⟨rest, hbegin, hlen, hended, htail, hstack⟩ := beginWithBase_eq hbase hzero hroom
  have hrest : strbuf.length - (frontOf inPath restrictBase).length = rest.length := by omega
  obtain ⟨rest', hcopy, hends, hkeeps⟩ := copyTokens_eq (tokens_new inPath)
    (length_tokens_lt inPath) (frontOf inPath restrictBase) rest hended
  have hnonzero := restricted_ne_zero hzero hpath strbuf.length
  unfold endsRestricted restricted allocAndRestrictPath at *
  rw [hrest] at hnonzero ⊢
  rw [hbegin, Option.bind_eq_bind, Option.bind_some]
  dsimp only
  rw [hcopy, Option.bind_eq_bind, Option.bind_some]
  constructor
  · intro h
    rw [strlen_eq hnonzero (hends h), Option.bind_eq_bind, Option.bind_some, List.take_left]
  · intro h hnul
    have hrest' : rest' ⊆ strbuf := by
      rw [hkeeps h]
      cases hbase : endsWithBase inPath restrictBase with
      | false => exact List.Subset.trans (List.drop_subset _ _) (hstack hbase)
      | true =>
        rw [hbase] at h
        obtain ⟨n, hn⟩ := Nat.exists_eq_succ_of_ne_zero (copiedTokens_pos h).ne'
        rw [hn, ← List.drop_tail]
        exact List.Subset.trans (List.drop_subset _ _) htail
    have hnone : strlen (frontOf inPath restrictBase ++
        copiedTokens rest.length (tokens inPath) ++ rest') = none := by
      refine if_neg fun hmem => ?_
      rcases List.mem_append.mp hmem with hmem | hmem
      · exact hnonzero _ hmem rfl
      · exact hnul _ (hrest' hmem) rfl
    rw [hnone]
    rfl

end Whole

/-- Whatever the stack holds, the result is a string for something below the base. -/
def RestrictsPath (room : ℕ) (inPath restrictBase : List Byte) : Prop :=
  ∀ strbuf : List Byte, strbuf.length = room → ∃ path,
    allocAndRestrictPath strbuf inPath restrictBase = some path ∧
      Below slash dotDot restrictBase path

theorem restrictsPath_iff_restricted {room : ℕ} {inPath restrictBase : List Byte}
    (hbase : restrictBase ≠ []) (hzero : ∀ c ∈ restrictBase, c ≠ 0#8)
    (hpath : ∀ c ∈ inPath, c ≠ 0#8) :
    RestrictsPath room inPath restrictBase ↔
      (¬ restrictBase.isPrefixOf inPath → restrictBase.length < room) ∧
      endsRestricted room inPath restrictBase = true ∧
      Below slash dotDot restrictBase (restricted room inPath restrictBase) := by
  constructor
  · intro h
    obtain ⟨path, hresult, hbelow⟩ := h (List.replicate room 1#8) List.length_replicate
    have hroom : ¬ restrictBase.isPrefixOf inPath →
        restrictBase.length < (List.replicate room 1#8).length := by
      intro hpre
      by_contra hle
      unfold allocAndRestrictPath at hresult
      rw [beginWithBase_none hpre (Nat.not_lt.mp hle)] at hresult
      cases hresult
    have hwhole := allocAndRestrictPath_eq hbase hzero hpath hroom
    rw [List.length_replicate] at hroom hwhole
    have hends : endsRestricted room inPath restrictBase = true := by
      by_contra hnot
      have hnone := hwhole.2 (Bool.not_eq_true _ ▸ hnot) fun c hc => by
        rw [List.eq_of_mem_replicate hc]
        decide
      rw [hnone] at hresult
      cases hresult
    rw [hwhole.1 hends] at hresult
    rw [← Option.some.inj hresult] at hbelow
    exact ⟨hroom, hends, hbelow⟩
  · rintro ⟨hroom, hends, hbelow⟩ strbuf rfl
    exact ⟨_, (allocAndRestrictPath_eq hbase hzero hpath hroom).1 hends, hbelow⟩

/-! ## Where the string ends -/

/-- The last of the tokens is copied. -/
def LastKept : ℕ → List (List Byte) → Prop
  | _, [] => False
  | room, t :: ts =>
    if ts = [] then TokenKept room t
    else LastKept (if TokenKept room t then room - (t.length + 1) else room) ts

theorem LastKept.pos {room : ℕ} {ts : List (List Byte)} (h : LastKept room ts) : 0 < room := by
  induction ts generalizing room with
  | nil => exact h.elim
  | cons t ts ih =>
    unfold LastKept at h
    split_ifs at h with hlast hkept
    · have hlt := h.2
      omega
    · have hpos := ih h
      omega
    · exact ih h

theorem endsAfter_iff (ended : Bool) (room : ℕ) (ts : List (List Byte)) :
    endsAfter ended room ts = true ↔
      LastKept room ts ∨ (ended = true ∧ ∀ t ∈ ts, ¬ TokenKept room t) := by
  induction ts generalizing ended room with
  | nil => simp [endsAfter, LastKept]
  | cons t ts ih =>
    unfold endsAfter LastKept
    by_cases hkept : TokenKept room t
    · by_cases hlast : ts = []
      · simp [hkept, hlast]
      · simp [hkept, hlast, ih]
    · by_cases hlast : ts = []
      · simp [hkept, hlast, endsAfter]
      · simp [hkept, hlast, ih]

/-! ## Components of what is copied -/

/-- The tokens that are copied. -/
def keptTokens : ℕ → List (List Byte) → List (List Byte)
  | _, [] => []
  | room, t :: ts =>
    if TokenKept room t then t :: keptTokens (room - (t.length + 1)) ts else keptTokens room ts

theorem mem_keptTokens {room : ℕ} {t : List Byte} {ts : List (List Byte)}
    (h : t ∈ keptTokens room ts) : t ∈ ts ∧ TokenKept room t := by
  induction ts generalizing room with
  | nil => cases h
  | cons u ts ih =>
    unfold keptTokens at h
    split_ifs at h with hkept
    · rcases List.mem_cons.mp h with rfl | hmem
      · exact ⟨List.mem_cons_self, hkept⟩
      · obtain ⟨hts, hne, hlt⟩ := ih hmem
        exact ⟨List.mem_cons_of_mem _ hts, hne, by omega⟩
    · obtain ⟨hts, hkept⟩ := ih h
      exact ⟨List.mem_cons_of_mem _ hts, hkept⟩

theorem components_copiedTokens {room : ℕ} {ts : List (List Byte)}
    (hts : ∀ t ∈ ts, slash ∉ t) :
    components slash (copiedTokens room ts) = (keptTokens room ts).filter fun t => t ≠ [] := by
  induction ts generalizing room with
  | nil => exact components_nil
  | cons t ts ih =>
    have hrest (room : ℕ) : components slash (copiedTokens room ts) =
        (keptTokens room ts).filter fun t => t ≠ [] :=
      ih fun u hu => hts u (List.mem_cons_of_mem _ hu)
    have ht := components_of_notMem (hts t List.mem_cons_self)
    unfold copiedTokens keptTokens
    split_ifs with hkept hlast
    · rw [ht, hlast, keptTokens]
    · rw [components_append_sep, ht, hrest, ← List.filter_append]
      rfl
    · exact hrest room

theorem slash_notMem_tokens {inPath t : List Byte} (h : t ∈ tokens inPath) : slash ∉ t := by
  unfold tokens at h
  split_ifs at h
  · cases h
  · obtain ⟨u, hu, rfl⟩ := List.mem_map.mp h
    exact fun hmem => notMem_of_mem_splitOn hu (List.take_subset _ _ hmem)

theorem dotDot_notMem_components (room : ℕ) (inPath : List Byte) :
    dotDot ∉ components slash (copiedTokens room (tokens inPath)) := by
  rw [components_copiedTokens fun t => slash_notMem_tokens]
  exact fun hmem => (mem_keptTokens (List.mem_of_mem_filter hmem)).2.1 rfl

/-! ## A path that does not begin with the base -/

section Outside

variable {room : ℕ} {inPath restrictBase : List Byte}

/-- The first token of a rooted path is the empty one in front of its separator. -/
theorem copiedTokens_rooted (hpos : 0 < room) (hrooted : inPath.head? = some slash) :
    ∃ rest, copiedTokens room (tokens inPath) = slash :: rest := by
  obtain ⟨path, rfl⟩ := List.head?_eq_some_iff.mp hrooted
  have hsplit : (slash :: path).splitOn slash = [] :: path.splitOn slash :=
    List.splitOn_append_cons_self [] path
  have hkept : TokenKept room (cutToken []) := ⟨by decide, hpos⟩
  unfold tokens
  rw [if_neg (by simp), hsplit, List.map_cons, copiedTokens, if_pos hkept, if_neg (by simp)]
  exact ⟨_, rfl⟩

theorem below_outside (hbase : restrictBase ≠ []) (hpre : ¬ restrictBase.isPrefixOf inPath)
    (hroom : restrictBase.length < room) :
    Below slash dotDot restrictBase (restricted room inPath restrictBase) := by
  have hnone := dotDot_notMem_components (room - (frontOf inPath restrictBase).length) inPath
  unfold restricted
  generalize hcopied : copiedTokens (room - (frontOf inPath restrictBase).length)
    (tokens inPath) = text at hnone ⊢
  have hfront : frontOf inPath restrictBase =
      if inPath.head? = some slash ∨ restrictBase.getLast? = some slash then restrictBase
      else restrictBase ++ [slash] := if_neg hpre
  refine ⟨?_, components slash text, ?_, hnone⟩
  · obtain ⟨c, rest, hcons⟩ := List.exists_cons_of_ne_nil hbase
    rw [hfront, hcons]
    split_ifs <;> exact Iff.rfl
  · rw [hfront] at hcopied ⊢
    split_ifs at hcopied ⊢ with hsep
    · by_cases hlast : restrictBase.getLast? = some slash
      · obtain ⟨front, rfl⟩ := List.getLast?_eq_some_iff.mp hlast
        rw [components_concat, List.append_assoc, List.singleton_append, components_append_sep]
      · obtain ⟨rest, hrest⟩ := copiedTokens_rooted
          (show 0 < room - restrictBase.length by omega) (hsep.resolve_right hlast)
        rw [← hcopied, hrest, components_append_sep, components_cons_sep]
    · rw [List.append_assoc, List.singleton_append, components_append_sep]

end Outside

/-! ## A path that begins with the base -/

/-- The first component that is copied is `c`, and in a path that is not rooted no empty token is
copied before it. -/
def NextKept (rooted : Bool) (c : List Byte) : ℕ → List (List Byte) → Prop
  | _, [] => False
  | room, t :: ts =>
    if TokenKept room t then
      if t = [] then rooted = true ∧ NextKept rooted c (room - 1) ts else t = c
    else NextKept rooted c room ts

theorem nextKept_iff {rooted : Bool} {c : List Byte} {room : ℕ} {ts : List (List Byte)}
    (hts : ∀ t ∈ ts, slash ∉ t) :
    NextKept rooted c room ts ↔
      ((keptTokens room ts).filter fun t => t ≠ []).head? = some c ∧
        (rooted = true ∨ (copiedTokens room ts).head? ≠ some slash) := by
  induction ts generalizing room with
  | nil => simp [NextKept, keptTokens]
  | cons t ts ih =>
    have hrest (room : ℕ) : NextKept rooted c room ts ↔
        ((keptTokens room ts).filter fun t => t ≠ []).head? = some c ∧
          (rooted = true ∨ (copiedTokens room ts).head? ≠ some slash) :=
      ih fun u hu => hts u (List.mem_cons_of_mem _ hu)
    unfold NextKept keptTokens copiedTokens
    by_cases hkept : TokenKept room t
    swap
    · rw [if_neg hkept, if_neg hkept, if_neg hkept]
      exact hrest room
    rw [if_pos hkept, if_pos hkept, if_pos hkept]
    by_cases ht : t = []
    · subst ht
      rw [if_pos rfl, hrest]
      by_cases hlast : ts = []
      · simp [hlast, keptTokens]
      · simp only [hlast, if_false, List.nil_append, List.head?_cons, ne_eq, not_true_eq_false,
          or_false, List.length_nil, Nat.zero_add]
        constructor
        · rintro ⟨hrooted, hhead, -⟩
          exact ⟨hhead, hrooted⟩
        · rintro ⟨hhead, hrooted⟩
          exact ⟨hrooted, hhead, .inl hrooted⟩
    · obtain ⟨a, u, rfl⟩ := List.exists_cons_of_ne_nil ht
      have ha : a ≠ slash := fun h => hts _ List.mem_cons_self (h ▸ List.mem_cons_self)
      rw [if_neg ht]
      split_ifs <;> simp [ha]

/-- The base is copied as it is: no component of it is `..` or too long, and there is room. -/
def PlainBase (room : ℕ) (restrictBase : List Byte) : Prop :=
  (∀ t ∈ restrictBase.splitOn slash, t ≠ dotDot ∧ t.length < SC_MAX_TOKEN_LENGTH) ∧
    restrictBase.length < room

section Inside

variable {room : ℕ} {init ts : List (List Byte)}

theorem cutToken_of_lt {t : List Byte} (h : t.length < SC_MAX_TOKEN_LENGTH) : cutToken t = t :=
  List.take_of_length_le (by omega)

theorem length_cutToken_lt (t : List Byte) : (cutToken t).length < SC_MAX_TOKEN_LENGTH := by
  unfold cutToken
  rw [List.length_take]
  have hpos : 0 < SC_MAX_TOKEN_LENGTH := by decide
  omega

/-- The parts of a base that end with a separator are copied if they are plain. -/
theorem prefix_kept_iff {last : List (List Byte)} (hts : ts ≠ [])
    (hcut : ∀ t ∈ ts, t.length < SC_MAX_TOKEN_LENGTH)
    (hlast : LastKept room (init.map cutToken ++ ts)) :
    (init.filter fun t => t ≠ []) ++ last <+:
        (keptTokens room (init.map cutToken ++ ts)).filter (fun t => t ≠ []) ↔
      ((∀ t ∈ init, t ≠ dotDot ∧ t.length < SC_MAX_TOKEN_LENGTH) ∧
        (init.flatMap fun t => t ++ [slash]).length < room) ∧
      last <+: (keptTokens (room - (init.flatMap fun t => t ++ [slash]).length) ts).filter
        fun t => t ≠ [] := by
  induction init generalizing room with
  | nil =>
    have hpos := hlast.pos
    simp [hpos]
  | cons x init ih =>
    have htail : init.map cutToken ++ ts ≠ [] := by simp [hts]
    have hlen : ((x :: init).flatMap fun t => t ++ [slash]).length =
        x.length + 1 + (init.flatMap fun t => t ++ [slash]).length := by
      rw [List.flatMap_cons, List.length_append, List.length_append]
      rfl
    rw [hlen, List.map_cons, List.cons_append] at *
    by_cases hplain : TokenKept room x ∧ x.length < SC_MAX_TOKEN_LENGTH
    · obtain ⟨hkept, hshort⟩ := hplain
      have hroom := hkept.2
      rw [cutToken_of_lt hshort] at hlast ⊢
      rw [LastKept, if_neg htail, if_pos hkept] at hlast
      have hih := ih hlast
      have hsub : room - (x.length + 1) - (init.flatMap fun t => t ++ [slash]).length =
          room - (x.length + 1 + (init.flatMap fun t => t ++ [slash]).length) := by omega
      have hlt : (init.flatMap fun t => t ++ [slash]).length < room - (x.length + 1) ↔
          x.length + 1 + (init.flatMap fun t => t ++ [slash]).length < room := by omega
      rw [hsub, hlt] at hih
      have hpre : ((x :: init).filter fun t => t ≠ []) ++ last <+:
          (x :: keptTokens (room - (x.length + 1)) (init.map cutToken ++ ts)).filter
            (fun t => t ≠ []) ↔ (init.filter fun t => t ≠ []) ++ last <+:
          (keptTokens (room - (x.length + 1)) (init.map cutToken ++ ts)).filter
            fun t => t ≠ [] := by
        by_cases hx : x = []
        · simp [hx]
        · rw [List.filter_cons_of_pos (by simpa using hx),
            List.filter_cons_of_pos (by simpa using hx), List.cons_append, List.cons_prefix_cons]
          simp only [true_and]
      rw [keptTokens, if_pos hkept, hpre, hih, List.forall_mem_cons]
      simp only [hkept.1, hshort, ne_eq, not_false_eq_true, true_and]
    · refine iff_of_false (fun hpre => ?_) fun h => ?_
      · by_cases hx : x = []
        · subst hx
          exact hplain ⟨⟨by decide, hlast.pos⟩, by decide⟩
        · have hmem : x ∈ ((x :: init).filter fun t => t ≠ []) ++ last := by
            simp [hx]
          obtain ⟨htoken, hkept⟩ := mem_keptTokens (List.mem_of_mem_filter (hpre.subset hmem))
          refine hplain ⟨hkept, ?_⟩
          rcases List.mem_cons.mp htoken with heq | htoken
          · rw [heq]
            exact length_cutToken_lt x
          · rcases List.mem_append.mp htoken with hmem | hmem
            · obtain ⟨u, -, rfl⟩ := List.mem_map.mp hmem
              exact length_cutToken_lt u
            · exact hcut x hmem
      · obtain ⟨⟨hall, hlt⟩, -⟩ := h
        obtain ⟨hne, hshort⟩ := hall x List.mem_cons_self
        exact hplain ⟨⟨hne, by omega⟩, hshort⟩

/-- Where the path runs on from the last component of the base: the base ends with a separator;
or the component is cut off, or ends, just there; or it is dropped, and the next one that is not
is the last component of the base. -/
def RunsOn (room : ℕ) (inPath restrictBase : List Byte) : Prop :=
  let last := (restrictBase.splitOn slash).getLastD []
  let parts := (inPath.drop restrictBase.length).splitOn slash
  let room := room - (restrictBase.length - last.length)
  last = [] ∨ cutToken (last ++ parts.headD []) = last ∨
    (¬ TokenKept room (cutToken (last ++ parts.headD [])) ∧
      NextKept (restrictBase.contains slash) last room (parts.tail.map cutToken))

/-- A base with a separator begins as what is copied does. -/
theorem head_copiedTokens {x : List Byte} (hkept : TokenKept room x)
    (hshort : x.length < SC_MAX_TOKEN_LENGTH) (hts : ts ≠ []) (s : List Byte) :
    (copiedTokens room (((x :: init).map cutToken) ++ ts)).head? =
      ((x :: init).flatMap (fun t => t ++ [slash]) ++ s).head? := by
  rw [List.map_cons, List.cons_append, cutToken_of_lt hshort, copiedTokens, if_pos hkept,
    if_neg (by simp [hts]), List.flatMap_cons]
  cases x with
  | nil => rfl
  | cons c x => rfl

/-- The last component of the base is the first that is copied behind the others. -/
theorem next_kept_iff {last t : List Byte} {rooted : Bool}
    (hslash : slash ∉ last) (hts : ∀ u ∈ ts, slash ∉ u) (hkept : TokenKept room last)
    (ht : t ≠ []) :
    ((keptTokens room (t :: ts)).filter (fun u => u ≠ [])).head? = some last ∧
        (rooted = true ∨ (copiedTokens room (t :: ts)).head? ≠ some slash) ↔
      t = last ∨ (¬ TokenKept room t ∧ NextKept rooted last room ts) := by
  unfold keptTokens copiedTokens
  by_cases hkeep : TokenKept room t
  · rw [if_pos hkeep, if_pos hkeep, List.filter_cons_of_pos (by simpa using ht), List.head?_cons]
    constructor
    · rintro ⟨hhead, -⟩
      exact .inl (Option.some.inj hhead)
    · rintro (rfl | ⟨hnot, -⟩)
      · obtain ⟨a, u, rfl⟩ := List.exists_cons_of_ne_nil ht
        have ha : a ≠ slash := fun h => hslash (h ▸ List.mem_cons_self)
        refine ⟨rfl, .inr ?_⟩
        split_ifs <;> simp [ha]
      · exact absurd hkeep hnot
  · rw [if_neg hkeep, if_neg hkeep, ← nextKept_iff hts]
    have hne : t ≠ last := fun h => hkeep (h ▸ hkept)
    simp [hkeep, hne]

theorem singleton_prefix_iff {t : List Byte} {l : List (List Byte)} :
    [t] <+: l ↔ l.head? = some t := by
  cases l with
  | nil => simp
  | cons u l => simp [List.cons_prefix_cons, eq_comm]

theorem head_iff_or {x : List Byte} {P : Prop} (hx : slash ∉ x) (hne : x ≠ []) {y : List Byte} :
    ((y.head? = some slash ↔ x.head? = some slash) ∧ P) ↔
      P ∧ (false = true ∨ y.head? ≠ some slash) := by
  obtain ⟨a, x, rfl⟩ := List.exists_cons_of_ne_nil hne
  have ha : a ≠ slash := fun h => hx (h ▸ List.mem_cons_self)
  simp [ha, and_comm]

/-- The base, in the parts that it has, and the tokens behind its last separator. -/
theorem plain_and_next_iff {last t : List Byte} (hslash : slash ∉ last)
    (hts : ∀ u ∈ ts, slash ∉ u) (hshort : ∀ u ∈ t :: ts, u.length < SC_MAX_TOKEN_LENGTH)
    (ht : last ≠ [] → t ≠ []) (hne : init = [] → last ≠ []) :
    (((copiedTokens room (init.map cutToken ++ t :: ts)).head? = some slash ↔
        (init.flatMap (fun t => t ++ [slash]) ++ last).head? = some slash) ∧
      ((∀ t ∈ init, t ≠ dotDot ∧ t.length < SC_MAX_TOKEN_LENGTH) ∧
        (init.flatMap fun t => t ++ [slash]).length < room) ∧
      [last].filter (fun t => t ≠ []) <+:
        (keptTokens (room - (init.flatMap fun t => t ++ [slash]).length) (t :: ts)).filter
          fun t => t ≠ []) ↔
    ((∀ t ∈ init ++ [last], t ≠ dotDot ∧ t.length < SC_MAX_TOKEN_LENGTH) ∧
      (init.flatMap (fun t => t ++ [slash]) ++ last).length < room) ∧
    (last = [] ∨ t = last ∨
      (¬ TokenKept (room - (init.flatMap fun t => t ++ [slash]).length) t ∧
        NextKept (init ≠ []) last (room - (init.flatMap fun t => t ++ [slash]).length) ts)) := by
  rw [List.length_append, List.forall_mem_append, List.forall_mem_singleton]
  by_cases hplain : (∀ t ∈ init, t ≠ dotDot ∧ t.length < SC_MAX_TOKEN_LENGTH) ∧
      (init.flatMap fun t => t ++ [slash]).length < room
  swap
  · refine iff_of_false (fun h => hplain h.2.1) fun h => hplain ⟨h.1.1.1, ?_⟩
    have hlt := h.1.2
    omega
  have hroom := hplain.2
  -- the head tells something only of a base without separators
  have hhead (x : List Byte) (xs : List (List Byte)) (hinit : init = x :: xs) :
      (copiedTokens room (init.map cutToken ++ t :: ts)).head? =
        (init.flatMap (fun t => t ++ [slash]) ++ last).head? := by
    subst hinit
    obtain ⟨hx, hxshort⟩ := hplain.1 x List.mem_cons_self
    rw [List.flatMap_cons, List.length_append, List.length_append] at hroom
    exact head_copiedTokens ⟨hx, by omega⟩ hxshort (by simp) last
  by_cases hlast : last = []
  · subst hlast
    cases hinit : init with
    | nil => exact absurd rfl (hne hinit)
    | cons x xs =>
      rw [← hinit, hhead x xs hinit]
      simp only [hplain, true_and, iff_self, List.length_nil, Nat.add_zero]
      simp [dotDot, SC_MAX_TOKEN_LENGTH]
  rw [List.filter_cons_of_pos (by simpa using hlast), List.filter_nil, singleton_prefix_iff]
  by_cases hlk : TokenKept (room - (init.flatMap fun t => t ++ [slash]).length) last ∧
      last.length < SC_MAX_TOKEN_LENGTH
  swap
  · refine iff_of_false (fun h => hlk ?_) fun h => hlk ⟨⟨h.1.1.2.1, ?_⟩, h.1.1.2.2⟩
    · have hmem := List.mem_of_mem_filter (List.mem_of_mem_head? (Option.mem_def.mpr h.2.2))
      obtain ⟨htoken, hkept⟩ := mem_keptTokens hmem
      exact ⟨hkept, hshort last htoken⟩
    · have hlt := h.1.2
      omega
  obtain ⟨hkept, hlastShort⟩ := hlk
  have hlt := hkept.2
  have hbase : (init.flatMap fun t => t ++ [slash]).length + last.length < room := by omega
  have hall : (∀ t ∈ init, t ≠ dotDot ∧ t.length < SC_MAX_TOKEN_LENGTH) ∧
      last ≠ dotDot ∧ last.length < SC_MAX_TOKEN_LENGTH := ⟨hplain.1, hkept.1, hlastShort⟩
  have hiff := @next_kept_iff _ ts last _ (decide (init ≠ [])) hslash hts hkept (ht hlast)
  rw [and_iff_right hplain, and_iff_right (And.intro hall hbase), or_iff_right hlast, ← hiff]
  cases hinit : init with
  | nil => exact head_iff_or hslash hlast
  | cons x xs =>
    rw [← hinit, hhead x xs hinit]
    have hrooted : decide (init ≠ []) = true := by simp [hinit]
    exact ⟨fun h => ⟨h.2, .inl hrooted⟩, fun h => ⟨Iff.rfl, h.1⟩⟩

theorem below_inside {inPath restrictBase : List Byte} (hbase : restrictBase ≠ [])
    (hpre : restrictBase.isPrefixOf inPath)
    (hkept : LastKept room (tokens inPath)) :
    Below slash dotDot restrictBase (copiedTokens room (tokens inPath)) ↔
      PlainBase room restrictBase ∧ RunsOn room inPath restrictBase := by
  obtain ⟨init, last, hsplit, hb⟩ := exists_last slash restrictBase
  obtain ⟨q, rfl⟩ := List.isPrefixOf_iff_prefix.mp hpre
  have hmem (t : List Byte) (ht : t ∈ init ++ [last]) : slash ∉ t :=
    notMem_of_mem_splitOn (hsplit ▸ ht)
  have hslash : slash ∉ last := hmem last (by simp)
  obtain ⟨u, us, hq, hlastq⟩ := splitOn_append_of_notMem hslash q
  have htokens : tokens (restrictBase ++ q) =
      init.map cutToken ++ cutToken (last ++ u) :: us.map cutToken := by
    have hpath : (restrictBase ++ q).splitOn slash = init ++ (last ++ u) :: us := by
      rw [hb, List.append_assoc, splitOn_flatMap init (fun t ht => hmem t (by simp [ht])), hlastq]
    unfold tokens
    rw [if_neg (by simp [hbase]), hpath, List.map_append, List.map_cons]
  have hlen : restrictBase.length - last.length =
      (init.flatMap fun t => t ++ [slash]).length := by
    conv_lhs => rw [hb, List.length_append]
    omega
  have hrooted : restrictBase.contains slash = decide (init ≠ []) := by
    rw [hb]
    cases init with
    | nil => simp [hslash]
    | cons x init => simp
  have hcut : ∀ t ∈ cutToken (last ++ u) :: us.map cutToken, t.length < SC_MAX_TOKEN_LENGTH := by
    intro t ht
    rcases List.mem_cons.mp ht with rfl | ht
    · exact length_cutToken_lt _
    · obtain ⟨v, -, rfl⟩ := List.mem_map.mp ht
      exact length_cutToken_lt v
  have hnone := dotDot_notMem_components room (restrictBase ++ q)
  have hcomponents := @components_copiedTokens room (tokens (restrictBase ++ q))
    fun t => slash_notMem_tokens
  have hbelow : (∃ below, components slash (copiedTokens room (tokens (restrictBase ++ q))) =
      components slash restrictBase ++ below ∧ dotDot ∉ below) ↔
      (init.filter fun t => t ≠ []) ++ ([last].filter fun t => t ≠ []) <+:
        (keptTokens room (tokens (restrictBase ++ q))).filter fun t => t ≠ [] := by
    rw [← hcomponents, ← List.filter_append, ← hsplit]
    constructor
    · rintro ⟨below, heq, -⟩
      exact ⟨below, heq.symm⟩
    · rintro ⟨below, heq⟩
      exact ⟨below, heq.symm, fun h => hnone (heq ▸ List.mem_append_right _ h)⟩
  have hafter : ∀ t ∈ us.map cutToken, slash ∉ t := fun t ht =>
    slash_notMem_tokens (show t ∈ tokens (restrictBase ++ q) by rw [htokens]; simp [ht])
  have hparts := @plain_and_next_iff room init _ _ _ hslash hafter hcut ?_ ?_
  · unfold Below PlainBase RunsOn
    rw [hbelow, hsplit, List.drop_left, hq]
    simp only [List.getLastD_concat, List.headD_cons, List.tail_cons, hlen, hrooted]
    rw [htokens] at hkept ⊢
    rw [prefix_kept_iff (by simp) hcut hkept]
    conv_lhs => rw [hb]
    conv_rhs => rw [hb]
    exact hparts
  · intro hlast
    simp [cutToken, SC_MAX_TOKEN_LENGTH, hlast]
  · rintro rfl rfl
    exact hbase hb

end Inside

/-! ## Which paths are restricted -/

/-- The last token of the path is copied, so that the string ends; if the path begins with the base
as a string, the base is plain and the path runs on from it with a new component; and if it does
not, there is room for the base, which may also be all of the result. -/
def RestrictsWhen (room : ℕ) (inPath restrictBase : List Byte) : Prop :=
  if restrictBase.isPrefixOf inPath then
    LastKept room (tokens inPath) ∧ PlainBase room restrictBase ∧ RunsOn room inPath restrictBase
  else
    restrictBase.length < room ∧
      (LastKept (room - (frontOf inPath restrictBase).length) (tokens inPath) ∨
        ((inPath.head? = some slash ∨ restrictBase.getLast? = some slash) ∧
          ∀ t ∈ tokens inPath, ¬ TokenKept (room - (frontOf inPath restrictBase).length) t))

/-- For every base and every path. -/
theorem restrictsPath_iff (room : ℕ) (inPath restrictBase : OscString)
    (hbase : restrictBase.1 ≠ []) :
    RestrictsPath room inPath.1 restrictBase.1 ↔ RestrictsWhen room inPath.1 restrictBase.1 := by
  rw [restrictsPath_iff_restricted hbase restrictBase.2 inPath.2]
  unfold RestrictsWhen endsRestricted endsWithBase
  rw [endsAfter_iff]
  by_cases hpre : restrictBase.1.isPrefixOf inPath.1 = true
  · have hfront : frontOf inPath.1 restrictBase.1 = [] := if_pos hpre
    rw [if_pos hpre]
    unfold restricted
    rw [hfront]
    simp only [hpre, not_true_eq_false, false_imp_iff, false_and, decide_false,
      Bool.false_eq_true, or_false, true_and, List.length_nil, Nat.sub_zero, List.nil_append]
    exact and_congr_right fun hlast => below_inside hbase hpre hlast
  · rw [if_neg hpre]
    simp only [hpre, not_false_eq_true, true_imp_iff, true_and, decide_eq_true_eq,
      Bool.false_eq_true]
    constructor
    · rintro ⟨hroom, hends, -⟩
      exact ⟨hroom, hends⟩
    · rintro ⟨hroom, hends⟩
      exact ⟨hroom, hends, below_outside hbase hpre hroom⟩

/-- The directory `/s`. -/
def baseS : OscString := ⟨[slash, chr 's'], by decide⟩

/-- The path `/s/a`. -/
def pathInS : OscString := ⟨[slash, chr 's', slash, chr 'a'], by decide⟩

theorem restrictsPath_iff_inS :
    baseS.1 ≠ [] ∧ (RestrictsPath 1024 pathInS.1 baseS.1 ↔ RestrictsWhen 1024 pathInS.1 baseS.1) :=
  ⟨by decide, restrictsPath_iff 1024 pathInS baseS (by decide)⟩

/-- The directory `/s2` is not below `/s`. -/
theorem not_restrictsPath_beside :
    ¬ ∀ (room : ℕ) (inPath restrictBase : OscString), restrictBase.1 ≠ [] →
      RestrictsPath room inPath.1 restrictBase.1 := by
  intro h
  have hrestricts := h 1024 ⟨[slash, chr 's', chr '2'], by decide⟩ baseS (by decide)
  rw [restrictsPath_iff_restricted (by decide) baseS.2 (by decide)] at hrestricts
  obtain ⟨-, -, -, below, hcomponents, -⟩ := hrestricts
  have hresult : components slash (restricted 1024 [slash, chr 's', chr '2'] baseS.1) =
      [[chr 's', chr '2']] := by
    decide
  have hbase : components slash baseS.1 = [[chr 's']] := by decide
  rw [hresult, hbase] at hcomponents
  exact absurd (List.cons.inj hcomponents).1 (by decide)

end PoopWorms.Server
