import TimeLake.Auth.Header
import TimeLake.Query.Meaning
import TimeLake.Ingest.RoundTrip

/-!
What a decision of the data plane says. An identity stands for a live record whose
secret the header carries; an answer without one comes from a mode that needs none and,
but for the mode that reads no header, from a header that carries nothing. The three
spellings of one secret are one credential.
-/

namespace TimeLake.Auth

open TimeLake.Ingest (isWhiteSpace trim)
open TimeLake.Library
open TimeLake.Query (asChars isAsciiWhitespace)
open TimeLake.Wal (fromUtf8 utf8)

section Meaning

/-- The scheme of a header and what stands behind the first blank. -/
def Parts (header : String) (scheme rest : List Char) : Prop :=
  ' ' ∉ scheme ∧ (header.toList = scheme ++ ' ' :: rest ∨ (header.toList = scheme ∧ rest = []))

/-- The user and the password that a Basic credential stands for. -/
def BasicPair (rest user password : List Char) : Prop :=
  ':' ∉ user ∧ ∃ decoded text, base64Decode (trim rest) = some decoded ∧
    fromUtf8 decoded = some text ∧ text.toList = user ++ ':' :: password

/-- The header carries the secret. -/
def Carries (header secret : String) : Prop :=
  secret ≠ "" ∧ ∃ scheme rest, Parts header scheme rest ∧ trim rest ≠ [] ∧
    ((isBearerOrToken scheme = true ∧ secret = String.ofList (trim rest)) ∨
      (isBasic scheme = true ∧ ∃ user, BasicPair rest user secret.toList))

/-- The header is of a scheme that is spoken and its credential is empty. -/
def Blank (header : String) : Prop :=
  ∃ scheme rest, Parts header scheme rest ∧
    (((isBearerOrToken scheme = true ∨ isBasic scheme = true) ∧ trim rest = []) ∨
      (isBasic scheme = true ∧ trim rest ≠ [] ∧ ∃ user, BasicPair rest user []))

end Meaning

section Scanners

variable {header secret : String} {scheme rest : List Char}

theorem parts_iff : Parts header scheme rest ↔
    (cutAt ' ' header.toList).getD (header.toList, []) = (scheme, rest) := by
  cases hcut : cutAt ' ' header.toList with
  | none =>
      have hout := cutAt_eq_none.mp hcut
      rw [Option.getD_none, Prod.mk.injEq]
      constructor
      · rintro ⟨_, heq | ⟨heq, rfl⟩⟩
        · exact absurd (heq ▸ List.mem_append_right _ List.mem_cons_self) hout
        · exact ⟨heq, rfl⟩
      · rintro ⟨rfl, rfl⟩
        exact ⟨hout, .inr ⟨rfl, rfl⟩⟩
  | some p =>
      obtain ⟨before, after⟩ := p
      obtain ⟨heq, hout⟩ := cutAt_eq_some.mp hcut
      rw [Option.getD_some, Prod.mk.injEq]
      constructor
      · rintro ⟨hnone, hparts | ⟨hparts, rfl⟩⟩
        · have hsame := cutAt_eq_some.mpr ⟨hparts, hnone⟩
          rw [hcut] at hsame
          exact Prod.mk.inj (Option.some.inj hsame)
        · rw [← hparts, heq] at hnone
          exact absurd (List.mem_append_right _ List.mem_cons_self) hnone
      · rintro ⟨rfl, rfl⟩
        exact ⟨hout, .inl heq⟩

theorem basicPair_iff {user password : List Char} : BasicPair rest user password ↔
    (((base64Decode (trim rest)).bind fromUtf8).bind fun text => cutAt ':' text.toList) =
      some (user, password) := by
  simp only [BasicPair, Option.bind_eq_some_iff, cutAt_eq_some]
  constructor
  · rintro ⟨hout, decoded, text, hdecoded, htext, heq⟩
    exact ⟨text, ⟨decoded, hdecoded, htext⟩, heq, hout⟩
  · rintro ⟨text, ⟨decoded, hdecoded, htext⟩, heq, hout⟩
    exact ⟨hout, decoded, text, hdecoded, htext, heq⟩

theorem not_basic_of_bearer (h : isBearerOrToken scheme = true) : isBasic scheme = false := by
  cases hbasic : isBasic scheme with
  | false => rfl
  | true =>
      simp only [isBasic, isBearerOrToken, eqIgnoreAsciiCase, Bool.or_eq_true,
        decide_eq_true_eq] at h hbasic
      rcases h with h | h
      · exact absurd (hbasic.symm.trans h) (by decide)
      · exact absurd (hbasic.symm.trans h) (by decide)

/-- Behind a first blank the parts are what the first blank cuts. -/
theorem parts_of_cut {s r : List Char} (h : cutAt ' ' header.toList = some (s, r)) :
    Parts header scheme rest ↔ s = scheme ∧ r = rest := by
  rw [parts_iff, h, Option.getD_some, Prod.mk.injEq]

theorem parts_of_noCut (h : cutAt ' ' header.toList = none) :
    Parts header scheme rest ↔ header.toList = scheme ∧ [] = rest := by
  rw [parts_iff, h, Option.getD_none, Prod.mk.injEq]

theorem trim_nil : trim [] = [] := rfl

/-- What the two scanners make of a Basic credential. -/
theorem basicPair_cases (rest : List Char) :
    (∃ text user password, (base64Decode (trim rest)).bind fromUtf8 = some text ∧
        cutAt ':' text.toList = some (user, password) ∧
        ∀ u p, BasicPair rest u p ↔ user = u ∧ password = p) ∨
      ((∀ text, (base64Decode (trim rest)).bind fromUtf8 = some text →
          cutAt ':' text.toList = none) ∧ ∀ u p, ¬ BasicPair rest u p) := by
  cases htext : (base64Decode (trim rest)).bind fromUtf8 with
  | none =>
      refine .inr ⟨?_, ?_⟩
      · intro text h
        cases h
      intro u p hpair
      rw [basicPair_iff, htext] at hpair
      cases hpair
  | some text =>
      cases hcut : cutAt ':' text.toList with
      | none =>
          refine .inr ⟨?_, ?_⟩
          · intro t h
            rw [← Option.some.inj h]
            exact hcut
          intro u p hpair
          rw [basicPair_iff, htext, Option.bind_some, hcut] at hpair
          cases hpair
      | some pair =>
          refine .inl ⟨text, pair.1, pair.2, rfl, hcut, ?_⟩
          intro u p
          rw [basicPair_iff, htext, Option.bind_some, hcut, Option.some.injEq, Prod.ext_iff]

theorem carries_of_cut {s r : List Char} (h : cutAt ' ' header.toList = some (s, r)) :
    Carries header secret ↔ secret ≠ "" ∧ trim r ≠ [] ∧
      ((isBearerOrToken s = true ∧ secret = String.ofList (trim r)) ∨
        (isBasic s = true ∧ ∃ user, BasicPair r user secret.toList)) := by
  constructor
  · rintro ⟨hne, scheme, rest, hparts, hcarried⟩
    obtain ⟨rfl, rfl⟩ := (parts_of_cut h).mp hparts
    exact ⟨hne, hcarried⟩
  · exact fun ⟨hne, hcarried⟩ => ⟨hne, s, r, (parts_of_cut h).mpr ⟨rfl, rfl⟩, hcarried⟩

/-- The first scanner finds the secret that the header carries. -/
theorem token_eq_some_iff :
    tokenFromAuthorization header = some secret ↔ Carries header secret := by
  cases hcut : cutAt ' ' header.toList with
  | none =>
      rw [tokenFromAuthorization, hcut]
      constructor
      · exact fun h => nomatch h
      · rintro ⟨_, scheme, rest, hparts, hne, _⟩
        obtain ⟨_, rfl⟩ := (parts_of_noCut hcut).mp hparts
        exact absurd trim_nil hne
  | some pair =>
      obtain ⟨s, r⟩ := pair
      rw [carries_of_cut hcut, tokenFromAuthorization, hcut]
      dsimp only
      by_cases hnil : trim r = []
      · simp [hnil]
      · rw [if_neg hnil]
        by_cases hbearer : isBearerOrToken s = true
        · have hbasic := not_basic_of_bearer hbearer
          rw [if_pos hbearer, Option.some.injEq]
          constructor
          · rintro rfl
            exact ⟨by simpa using hnil, hnil, .inl ⟨hbearer, rfl⟩⟩
          · rintro ⟨_, _, ⟨_, heq⟩ | ⟨htrue, _⟩⟩
            · exact heq.symm
            · rw [hbasic] at htrue
              cases htrue
        · rw [if_neg hbearer]
          by_cases hbasic : isBasic s = true
          · rw [if_pos hbasic]
            rcases basicPair_cases r with ⟨text, user, password, htext, hpair, hiff⟩ | ⟨hnone, hno⟩
            · rw [htext]
              dsimp only
              rw [hpair]
              dsimp only
              constructor
              · intro h
                split at h
                · cases h
                · next hne =>
                    obtain rfl := Option.some.inj h
                    refine ⟨by simpa using hne, hnil, .inr ⟨hbasic, user, ?_⟩⟩
                    exact (hiff _ _).mpr ⟨rfl, String.toList_ofList.symm⟩
              · rintro ⟨hne, _, ⟨htrue, _⟩ | ⟨_, user', hp⟩⟩
                · exact absurd htrue hbearer
                · obtain ⟨_, rfl⟩ := (hiff _ _).mp hp
                  have hchars : secret.toList ≠ [] := fun h => hne (String.toList_eq_nil_iff.mp h)
                  rw [if_neg hchars, String.ofList_toList]
            · constructor
              · intro h
                split at h
                · cases h
                · next text htext =>
                    rw [hnone text htext] at h
                    cases h
              · rintro ⟨_, _, ⟨htrue, _⟩ | ⟨_, user, hp⟩⟩
                · exact absurd htrue hbearer
                · exact absurd hp (hno _ _)
          · rw [if_neg hbasic]
            constructor
            · exact fun h => nomatch h
            · rintro ⟨_, _, ⟨htrue, _⟩ | ⟨htrue, _⟩⟩
              · exact absurd htrue hbearer
              · exact absurd htrue hbasic

/-- The second scanner says of the headers with nothing in them that they are blank. -/
theorem blank_iff : credentialIsBlank header = true ↔ Blank header := by
  rcases hcut : (cutAt ' ' header.toList).getD (header.toList, []) with ⟨s, r⟩
  have hparts : ∀ scheme rest, Parts header scheme rest ↔ s = scheme ∧ r = rest := by
    intro scheme rest
    rw [parts_iff, hcut, Prod.mk.injEq]
  have hblank : Blank header ↔
      ((isBearerOrToken s = true ∨ isBasic s = true) ∧ trim r = []) ∨
        (isBasic s = true ∧ trim r ≠ [] ∧ ∃ user, BasicPair r user []) := by
    constructor
    · rintro ⟨scheme, rest, hheader, h⟩
      obtain ⟨rfl, rfl⟩ := (hparts _ _).mp hheader
      exact h
    · exact fun h => ⟨s, r, (hparts _ _).mpr ⟨rfl, rfl⟩, h⟩
  rw [hblank, credentialIsBlank, hcut]
  dsimp only
  by_cases hscheme : isBearerOrToken s = true ∨ isBasic s = true
  · have hspoken : (!isBearerOrToken s && !isBasic s) = false := by
      rcases hscheme with h | h <;> simp [h]
    rw [hspoken, if_neg Bool.false_ne_true]
    by_cases hnil : trim r = []
    · simp [hnil, hscheme]
    · rw [if_neg hnil]
      by_cases hbasic : isBasic s = true
      · rw [if_pos hbasic]
        rcases basicPair_cases r with ⟨text, user, password, htext, hpair, hiff⟩ | ⟨hnone, hno⟩
        · rw [htext, Option.bind_some, hpair]
          simp [hnil, hbasic, hiff]
        · cases htext : (base64Decode (trim r)).bind fromUtf8 with
          | none => simp [hnil, hno]
          | some text =>
              rw [Option.bind_some, hnone text htext]
              simp [hnil, hno]
      · rw [if_neg hbasic]
        simp [hnil, hbasic]
  · have hunknown : (!isBearerOrToken s && !isBasic s) = true := by
      simpa [not_or] using hscheme
    rw [hunknown, if_pos rfl]
    simp only [not_or] at hscheme
    simp [hscheme]

end Scanners

section Spellings

/-- The byte of a value: the standard alphabet or the one for URLs. -/
def sextetByte (url : Bool) (v : Nat) : UInt8 :=
  if v < 26 then UInt8.ofNat (0x41 + v)
  else if v < 52 then UInt8.ofNat (0x61 + (v - 26))
  else if v < 62 then UInt8.ofNat (0x30 + (v - 52))
  else if v = 62 then (if url then 0x2D else 0x2B)
  else (if url then 0x5F else 0x2F)

/-- Base64 in either alphabet, padded or not. -/
def base64Text (url pad : Bool) (bytes : Bytes) : List Char :=
  let text := encodeBase64 (sextetByte url) bytes
  (text.map fun b => Char.ofNat b.toNat) ++
    if pad then List.replicate ((4 - text.length % 4) % 4) '=' else []

def bearerHeader (secret : String) : String := "Bearer " ++ secret

def tokenHeader (secret : String) : String := "Token " ++ secret

def basicHeader (url pad : Bool) (user secret : String) : String :=
  "Basic " ++ String.ofList (base64Text url pad (utf8 (user ++ ":" ++ secret)))

variable {url pad : Bool}

theorem base64Value_sextetByte : ∀ v, v < 64 → base64Value (sextetByte url v) = some v := by
  cases url <;> decide

/-- A byte of either alphabet is a plain ASCII character. -/
theorem sextetByte_plain : ∀ v, v < 64 → (sextetByte url v).toNat < 128 ∧
    sextetByte url v ≠ 0x3D ∧ isAsciiWhitespace (sextetByte url v) = false ∧
      isWhiteSpace (Char.ofNat (sextetByte url v).toNat) = false := by
  cases url <;> decide

theorem mem_encodeBase64 {bytes : Bytes} {b : UInt8}
    (h : b ∈ encodeBase64 (sextetByte url) bytes) : ∃ v, v < 64 ∧ b = sextetByte url v := by
  obtain ⟨group, _, hb⟩ := List.mem_flatMap.mp h
  obtain ⟨v, hv, rfl⟩ := List.mem_map.mp hb
  exact ⟨v, lt_of_mem_sextets hv, rfl⟩

theorem encodeChars_ofAscii {bytes : Bytes} (h : ∀ b ∈ bytes, b.toNat < 128) (tail : List Char) :
    encodeChars (bytes.map (fun b => Char.ofNat b.toNat) ++ tail) = bytes ++ encodeChars tail := by
  induction bytes with
  | nil => rfl
  | cons b rest ih =>
      have hb := h b List.mem_cons_self
      have hchar := Query.ofNat_byte b
      rw [List.map_cons, List.cons_append, encodeChars_ascii (by omega),
        ih fun x hx => h x (List.mem_cons_of_mem _ hx), hchar, UInt8.ofNat_toNat, List.cons_append]

theorem encodeChars_pad (k : Nat) :
    encodeChars (List.replicate k '=') = List.replicate k 0x3D := by
  induction k with
  | zero => rfl
  | succ k ih =>
      rw [List.replicate_succ, encodeChars_ascii (by decide), ih, List.replicate_succ]
      rfl

/-- What is written in base64 is decoded, in both alphabets, with padding and without. -/
theorem base64Decode_text (bytes : Bytes) :
    base64Decode (base64Text url pad bytes) = some bytes := by
  have hkept : ∀ b ∈ encodeBase64 (sextetByte url) bytes,
      (decide (b ≠ 0x3D) && !isAsciiWhitespace b) = true := by
    intro b hb
    obtain ⟨v, hv, rfl⟩ := mem_encodeBase64 hb
    obtain ⟨_, hpad, hblank, _⟩ := @sextetByte_plain url v hv
    simp [hpad, hblank]
  have hascii : ∀ b ∈ encodeBase64 (sextetByte url) bytes, b.toNat < 128 := by
    intro b hb
    obtain ⟨v, hv, rfl⟩ := mem_encodeBase64 hb
    exact (sextetByte_plain v hv).1
  rw [base64Decode, Wal.utf8_eq, String.toList_ofList, base64Text,
    encodeChars_ofAscii hascii, List.filter_append, List.filter_eq_self.mpr hkept]
  have hdropped : (encodeChars (if pad = true then List.replicate
      ((4 - (encodeBase64 (sextetByte url) bytes).length % 4) % 4) '=' else [])).filter
        (fun c => decide (c ≠ 0x3D) && !isAsciiWhitespace c) = [] := by
    split
    · rw [encodeChars_pad]
      simp
    · rfl
  rw [hdropped, List.append_nil, decodeBase64_encodeBase64 base64Value_sextetByte]

theorem trim_base64Text (bytes : Bytes) :
    trim (base64Text url pad bytes) = base64Text url pad bytes := by
  apply Ingest.trim_number
  intro c hc
  rcases List.mem_append.mp hc with hc | hc
  · obtain ⟨b, hb, rfl⟩ := List.mem_map.mp hc
    obtain ⟨v, hv, rfl⟩ := mem_encodeBase64 hb
    exact (sextetByte_plain v hv).2.2.2
  · split at hc
    · obtain rfl := List.eq_of_mem_replicate hc
      decide
    · cases hc

variable {secret user : String}

theorem parts_bearer : Parts (bearerHeader secret) "Bearer".toList secret.toList := by
  refine ⟨by decide, .inl ?_⟩
  rw [bearerHeader, String.toList_append]
  rfl

theorem parts_token : Parts (tokenHeader secret) "Token".toList secret.toList := by
  refine ⟨by decide, .inl ?_⟩
  rw [tokenHeader, String.toList_append]
  rfl

theorem parts_basic : Parts (basicHeader url pad user secret) "Basic".toList
    (base64Text url pad (utf8 (user ++ ":" ++ secret))) := by
  refine ⟨by decide, .inl ?_⟩
  rw [basicHeader, String.toList_append, @String.toList_ofList (base64Text _ _ _)]
  rfl

/-- The credential of a Basic header. -/
theorem basicPair_text (huser : ':' ∉ user.toList) :
    BasicPair (base64Text url pad (utf8 (user ++ ":" ++ secret))) user.toList secret.toList := by
  refine ⟨huser, utf8 (user ++ ":" ++ secret), user ++ ":" ++ secret, ?_, Wal.fromUtf8_utf8 _, ?_⟩
  · rw [trim_base64Text, base64Decode_text]
  · rw [String.toList_append, String.toList_append, List.append_assoc]
    rfl

theorem base64Text_ne_nil : base64Text url pad (utf8 (user ++ ":" ++ secret)) ≠ [] := by
  intro hnil
  have hdecoded : base64Decode (base64Text url pad _) = some (utf8 (user ++ ":" ++ secret)) :=
    base64Decode_text _
  rw [hnil] at hdecoded
  have hempty : utf8 (user ++ ":" ++ secret) = [] := (Option.some.inj hdecoded).symm
  rw [Wal.utf8_eq, encodeChars_eq_nil, String.toList_append, String.toList_append] at hempty
  simp at hempty

/-- A header that carries a secret or is blank, as the secret is there or not. -/
theorem carries_or_blank {header : String} {scheme rest : List Char}
    (hparts : Parts header scheme rest) (htrim : trim secret.toList = secret.toList)
    (hscheme : isBearerOrToken scheme = true) (hrest : rest = secret.toList) :
    (secret ≠ "" → Carries header secret) ∧ (secret = "" → Blank header) := by
  subst hrest
  refine ⟨fun hne => ⟨hne, _, _, hparts, ?_, .inl ⟨hscheme, ?_⟩⟩, ?_⟩
  · rw [htrim]
    exact fun h => hne (String.toList_eq_nil_iff.mp h)
  · rw [htrim, String.ofList_toList]
  · rintro rfl
    exact ⟨_, _, hparts, .inl ⟨.inl hscheme, htrim⟩⟩

theorem basic_carries_or_blank (huser : ':' ∉ user.toList) :
    (secret ≠ "" → Carries (basicHeader url pad user secret) secret) ∧
      (secret = "" → Blank (basicHeader url pad user secret)) := by
  have hne : trim (base64Text url pad (utf8 (user ++ ":" ++ secret))) ≠ [] := by
    rw [trim_base64Text]
    exact base64Text_ne_nil
  refine ⟨?_, ?_⟩
  · intro hsecret
    exact ⟨hsecret, _, _, parts_basic, hne, .inr ⟨by decide, _, basicPair_text huser⟩⟩
  · rintro rfl
    exact ⟨_, _, parts_basic, .inr ⟨by decide, hne, _, basicPair_text huser⟩⟩

end Spellings

section Decisions

variable {sha : String → String} {tokens : TokenIndex} {now again : Nat} {header secret : String}

theorem not_blank_of_carries (h : Carries header secret) : ¬ Blank header := by
  rintro ⟨scheme', rest', hparts', hblank⟩
  obtain ⟨hne, scheme, rest, hparts, hrest, hcarried⟩ := h
  have hsame := (parts_iff.mp hparts).symm.trans (parts_iff.mp hparts')
  obtain ⟨rfl, rfl⟩ := Prod.mk.inj hsame
  rcases hblank with ⟨_, hnil⟩ | ⟨hbasic, _, user', hempty⟩
  · exact hrest hnil
  · rcases hcarried with ⟨hbearer, _⟩ | ⟨_, user, hpair⟩
    · rw [not_basic_of_bearer hbearer] at hbasic
      cases hbasic
    · have heq := (basicPair_iff.mp hpair).symm.trans (basicPair_iff.mp hempty)
      have hnil := (Prod.mk.inj (Option.some.inj heq)).2
      exact hne (String.toList_eq_nil_iff.mp hnil)

theorem presentedBy_carries {reloaded : Option TokenIndex} (h : Carries header secret) :
    presentedBy sha tokens reloaded now again header =
      some (verifyToken tokens reloaded (sha secret) now again) := by
  rw [presentedBy, token_eq_some_iff.mpr h]

theorem presentedBy_blank {reloaded : Option TokenIndex} (h : Blank header) :
    presentedBy sha tokens reloaded now again header = none := by
  have hnone : tokenFromAuthorization header = none := by
    cases htoken : tokenFromAuthorization header with
    | none => rfl
    | some secret => exact absurd h (not_blank_of_carries (token_eq_some_iff.mp htoken))
  rw [presentedBy, hnone]
  exact if_pos (blank_iff.mpr h)

/-- The headers that carry nothing are the blank ones. -/
theorem blank_of_presentedBy {reloaded : Option TokenIndex}
    (h : presentedBy sha tokens reloaded now again header = none) : Blank header := by
  unfold presentedBy at h
  split at h
  · cases h
  · split at h
    · next hblank => exact blank_iff.mp hblank
    · cases h

/-- The live record of the index that a secret belongs to, and what it may do. -/
structure Permits (sha : String → String) (tokens : TokenIndex) (secret : String)
    (now again : Nat) (action : Action) (db : String) (identity : TokenIdentity)
    (r : TokenRecord) : Prop where
  held : r ∈ tokens.records
  digest : r.hash = sha secret
  only : ∀ other, r.hash = sha other → other = secret
  live : r.revoked = false
  unexpired : ∀ e, r.expiresAtSecs = some e → now < e ∨ again < e
  scope : r.scope.allows action = true
  database : r.databases = [] ∨ db ∈ r.databases
  identity : identity = ⟨r.id, r.description, r.scope, r.databases, r.authorizations⟩

/-- A token that verifies is a record of the index under the digest, and valid. -/
theorem verify_record {digest : String} {identity : TokenIdentity}
    (h : tokens.verify digest now = .ok identity) :
    ∃ r ∈ tokens.records, r.hash = digest ∧ r.isValidAt now = true ∧
      identity = ⟨r.id, r.description, r.scope, r.databases, r.authorizations⟩ := by
  unfold TokenIndex.verify at h
  split at h
  · next r hlookup =>
      split at h
      · next hvalid =>
          obtain ⟨hheld, hhash⟩ := TokenIndex.lookup_eq_some.mp hlookup
          exact ⟨r, hheld, hhash, (Bool.and_eq_true_iff.mp hvalid).2, (Except.ok.inj h).symm⟩
      · cases h
  · cases h

theorem verifyToken_record {reread : Bool} {digest : String} {identity : TokenIdentity}
    (h : verifyToken tokens (if reread then some tokens else none) digest now again =
      .ok identity) :
    ∃ r ∈ tokens.records, r.hash = digest ∧
      (r.isValidAt now = true ∨ r.isValidAt again = true) ∧
        identity = ⟨r.id, r.description, r.scope, r.databases, r.authorizations⟩ := by
  unfold verifyToken at h
  cases hfirst : tokens.verify digest now with
  | ok first =>
      rw [hfirst] at h
      obtain rfl := Except.ok.inj h
      obtain ⟨r, hheld, hhash, hvalid, heq⟩ := verify_record hfirst
      exact ⟨r, hheld, hhash, .inl hvalid, heq⟩
  | error e =>
      rw [hfirst] at h
      cases reread with
      | false => cases h
      | true =>
          obtain ⟨r, hheld, hhash, hvalid, heq⟩ := verify_record h
          exact ⟨r, hheld, hhash, .inr hvalid, heq⟩

theorem guardDecide_identity {mode : DataAuthMode}
    {presented : Option (Except TokenError TokenIdentity)} {action : Action} {db : String}
    {d : Decision} {identity : TokenIdentity}
    (h : guardDecide mode presented action db = .ok d) (hid : d.identity = some identity) :
    mode ≠ .off ∧ presented = some (.ok identity) ∧ identity.scope.allows action = true ∧
      allowsDatabase identity db = true := by
  unfold guardDecide at h
  split at h
  · obtain rfl := Except.ok.inj h
    cases hid
  · next hmode =>
      split at h
      · cases h
      · split at h
        · obtain rfl := Except.ok.inj h
          cases hid
        · cases h
      · next found =>
          split at h
          · cases h
          · next hallowed =>
              obtain rfl := Except.ok.inj h
              obtain rfl := Option.some.inj hid
              simp only [Bool.or_eq_true, Bool.not_eq_true', not_or, Bool.not_eq_false] at hallowed
              exact ⟨hmode, rfl, hallowed.1, hallowed.2⟩

theorem guardDecide_anonymous {mode : DataAuthMode}
    {presented : Option (Except TokenError TokenIdentity)} {action : Action} {db : String}
    {d : Decision} (h : guardDecide mode presented action db = .ok d) (hid : d.identity = none) :
    mode = .off ∨ (mode = .optional ∧ presented = none) := by
  unfold guardDecide at h
  split at h
  · next hmode => exact .inl hmode
  · split at h
    · cases h
    · split at h
      · next hmode => exact .inr ⟨hmode, rfl⟩
      · cases h
    · split at h
      · cases h
      · obtain rfl := Except.ok.inj h
        cases hid

/-- One header in the place of another that presents the same. -/
theorem decideData_congr {reloaded : Option TokenIndex} {mode : DataAuthMode} {action : Action}
    {db : String} {a b : String}
    (h : presentedBy sha tokens reloaded now again a =
      presentedBy sha tokens reloaded now again b) :
    decideData sha tokens reloaded now again mode (some a) action db =
      decideData sha tokens reloaded now again mode (some b) action db := by
  rw [decideData, decideData, Option.bind_some, Option.bind_some, h]

/-- Headers that carry one secret, or nothing where there is none, present the same. -/
theorem presentedBy_eq {reloaded : Option TokenIndex} {a b : String}
    (ha : (secret ≠ "" → Carries a secret) ∧ (secret = "" → Blank a))
    (hb : (secret ≠ "" → Carries b secret) ∧ (secret = "" → Blank b)) :
    presentedBy sha tokens reloaded now again a = presentedBy sha tokens reloaded now again b := by
  by_cases hne : secret = ""
  · rw [presentedBy_blank (ha.2 hne), presentedBy_blank (hb.2 hne)]
  · rw [presentedBy_carries (ha.1 hne), presentedBy_carries (hb.1 hne)]

/-- The decisions of the data plane, for any tokens that memory and store agree on:
whether a re-read on a miss is due or not, the tokens are the same. -/
theorem decision_sound (hsha : Function.Injective sha) (reread : Bool) (mode : DataAuthMode)
    (action : Action) (db : String) :
    (∀ authorization d identity,
      decideData sha tokens (if reread then some tokens else none) now again mode authorization
        action db = .ok d → d.identity = some identity →
      mode ≠ .off ∧ ∃ header secret r, authorization = some header ∧ Carries header secret ∧
        Permits sha tokens secret now again action db identity r) ∧
    (∀ authorization d,
      decideData sha tokens (if reread then some tokens else none) now again mode authorization
        action db = .ok d → d.identity = none →
      mode = .off ∨ (mode = .optional ∧
        (authorization = none ∨ ∃ header, authorization = some header ∧ Blank header))) ∧
    ∀ (secret user : String) (url pad : Bool), trim secret.toList = secret.toList →
      ':' ∉ user.toList →
      let answer := fun header => decideData sha tokens (if reread then some tokens else none)
        now again mode (some header) action db
      answer (bearerHeader secret) = answer (tokenHeader secret) ∧
        answer (tokenHeader secret) = answer (basicHeader url pad user secret) := by
  refine ⟨?_, ?_, ?_⟩
  · intro authorization d identity h hid
    obtain ⟨hmode, hbound, hscope, hdb⟩ := guardDecide_identity h hid
    rw [if_neg hmode] at hbound
    obtain ⟨header, rfl, hpresented⟩ := Option.bind_eq_some_iff.mp hbound
    refine ⟨hmode, header, ?_⟩
    cases htoken : tokenFromAuthorization header with
    | none =>
        rw [presentedBy, htoken] at hpresented
        dsimp only at hpresented
        split at hpresented <;> cases hpresented
    | some secret =>
        have hcarries := token_eq_some_iff.mp htoken
        rw [presentedBy_carries hcarries] at hpresented
        obtain ⟨r, hheld, hhash, hvalid, rfl⟩ := verifyToken_record (Option.some.inj hpresented)
        refine ⟨secret, r, rfl, hcarries, ⟨hheld, hhash, ?_, ?_, ?_, hscope, ?_, rfl⟩⟩
        · exact fun other hother => hsha (hother.symm.trans hhash)
        · simp only [TokenRecord.isValidAt, Bool.and_eq_true, Bool.not_eq_true'] at hvalid
          rcases hvalid with hvalid | hvalid
          · exact hvalid.1
          · exact hvalid.1
        · intro e he
          simp only [TokenRecord.isValidAt, he, Option.all_some, Bool.and_eq_true,
            decide_eq_true_eq] at hvalid
          exact hvalid.imp And.right And.right
        · simpa [allowsDatabase] using hdb
  · intro authorization d h hid
    rcases guardDecide_anonymous h hid with hmode | ⟨hmode, hpresented⟩
    · exact .inl hmode
    · refine .inr ⟨hmode, ?_⟩
      rw [if_neg (by rw [hmode]; exact DataAuthMode.noConfusion)] at hpresented
      cases authorization with
      | none => exact .inl rfl
      | some header => exact .inr ⟨header, rfl, blank_of_presentedBy hpresented⟩
  · intro secret user url pad htrim huser
    have hbearer := carries_or_blank parts_bearer htrim (by decide) rfl
    have htoken := carries_or_blank parts_token htrim (by decide) rfl
    exact ⟨decideData_congr (presentedBy_eq hbearer htoken),
      decideData_congr (presentedBy_eq htoken (basic_carries_or_blank huser))⟩

/-- SHA-256 on one secret, and a text that is no digest on the others. -/
def shownSha (secret : String) : String :=
  if secret = "tldb_abc" then "eedc00407b3d737ecf28db4aeeb5971e4c9bb46506da551c2a138034b2552236"
  else "?" ++ secret

theorem shownSha_injective : Function.Injective shownSha := by
  have hdigest : ∀ s : String, "?" ++ s ≠
      "eedc00407b3d737ecf28db4aeeb5971e4c9bb46506da551c2a138034b2552236" := by
    intro s h
    have hchars := congrArg String.toList h
    rw [String.toList_append] at hchars
    exact absurd (List.cons.inj hchars).1 (by decide)
  intro a b h
  unfold shownSha at h
  split at h
  · split at h
    · next ha hb => rw [ha, hb]
    · exact absurd h.symm (hdigest b)
  · split at h
    · exact absurd h (hdigest a)
    · have hchars := congrArg String.toList h
      rw [String.toList_append, String.toList_append] at hchars
      exact String.toList_inj.mp (List.append_cancel_left hchars)

def shownTokens : TokenIndex :=
  .fromRecords [⟨"tok-1", "telegraf", shownSha "tldb_abc", .write, ["poc"], [], "admin", 0, some 90,
    false, none⟩]

/-- A writer's token in a Basic header: its record is the one the decision stands on. -/
theorem basic_header_decided :
    ∃ header secret r, some (basicHeader true false "telegraf" "tldb_abc") = some header ∧
      Carries header secret ∧
        Permits shownSha shownTokens secret 60 60 .write "poc"
          ⟨"tok-1", "telegraf", .write, ["poc"], []⟩ r := by
  refine ((decision_sound shownSha_injective true .optional .write "poc").1
    (some (basicHeader true false "telegraf" "tldb_abc"))
    ⟨some ⟨"tok-1", "telegraf", .write, ["poc"], []⟩, none⟩ _ ?_ rfl).2
  decide +kernel

end Decisions

end TimeLake.Auth
