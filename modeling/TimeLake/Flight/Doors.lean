import TimeLake.Flight.Tickets

/-!
What the two doors let through. A session matters by the authorizations it holds, in whatever
order a door has put them together; each way of narrowing or joining them is read here by what
is in its result.
-/

namespace TimeLake.Flight

open TimeLake.Auth
open TimeLake.Library (Bytes)
open TimeLake.Query (isVisible isVisible_mono requestClaims tokenNarrow resolveSession)

section Authorizations

variable {header requested auths : List String} {identity : Option String} {x : String}

theorem mem_requestClaims :
    x ∈ requestClaims header requested ↔ x ∈ header ∨ x ∈ requested := by
  unfold requestClaims
  induction requested generalizing header with
  | nil => simp
  | cons a rest ih =>
      rw [List.foldl_cons, ih, List.mem_cons]
      split
      · next hheld =>
          have ha : a ∈ header := by simpa using hheld
          constructor
          · rintro (hx | hx)
            · exact .inl hx
            · exact .inr (.inr hx)
          · rintro (hx | rfl | hx)
            · exact .inl hx
            · exact .inl ha
            · exact .inr hx
      · rw [List.mem_append, List.mem_singleton, or_assoc]

theorem mem_tokenNarrow {granted : Option (List String)} :
    x ∈ tokenNarrow granted auths ↔ x ∈ auths ∧ ∀ grants ∈ granted, x ∈ grants := by
  cases granted with
  | none => simp [tokenNarrow]
  | some grants => simp [tokenNarrow]

theorem mem_resolveSession {certGrants : String → Option (List String)} :
    x ∈ resolveSession identity (identity.bind certGrants) auths ↔
      x ∈ auths ∧ ∀ grants ∈ identity.bind certGrants, x ∈ grants := by
  cases identity with
  | none => simp [resolveSession]
  | some id =>
      rw [Option.bind_some]
      cases certGrants id with
      | none => simp [resolveSession]
      | some grants => simp [resolveSession]

end Authorizations

section Agreement

/-- The same statement for the same caller, in sessions of the same authorizations. -/
structure Asked.Same (a b : Asked) : Prop where
  db : a.db = b.db
  sql : a.sql = b.sql
  identity : a.identity = b.identity
  auths : ∀ x, x ∈ a.auths ↔ x ∈ b.auths

theorem Asked.Same.shows {a b : Asked} (h : a.Same b) (label : String) :
    isVisible label a.auths = isVisible label b.auths := by
  rw [Bool.eq_iff_iff]
  exact ⟨isVisible_mono fun x => (h.auths x).mp, isVisible_mono fun x => (h.auths x).mpr⟩

/-- What the two doors answer: the same question goes to the engine, and each label shows or
not alike, or the same refusal goes to the caller. -/
inductive Alike : Except Refusal Asked → Except TokenError Asked → Prop where
  | asked {a b : Asked} (same : a.Same b)
      (shows : ∀ label, isVisible label a.auths = isVisible label b.auths) : Alike (.ok a) (.ok b)
  | denied (e : TokenError) : Alike (.error (.denied e)) (.error e)

variable {ν : Type} {sha : String → String} {number : List Char → Option ν} {g : Guard}
  {md : Metadata} {identity : Option String} {t : Ticket} {handle : Bytes} {a : Asked}

theorem doGet_eq (hread : readTicket number handle = .ok t) :
    doGetStatement sha number g md identity handle =
      ((g.decide sha md t.db).map fun d => g.ask identity t.db t.sql
        (tokenNarrow d.granted (requestClaims t.auths (authsFromMetadata md)))).mapError
          .denied := by
  rw [doGetStatement, hread]
  change ((resolveAuths sha g md t.db _).mapError Refusal.denied >>= _) = _
  rw [resolveAuths]
  cases g.decide sha md t.db with
  | error e => rfl
  | ok d => rfl

theorem sql_eq (db text : String) (requested : List String) :
    sql sha g md identity ⟨some db, text, requested⟩ =
      (g.decide sha md db).map fun d => g.ask identity db text
        (tokenNarrow d.granted (requestClaims (authsFromMetadata md) requested)) := by
  rw [sql, Option.getD_some, resolveAuths]
  cases g.decide sha md db with
  | error e => rfl
  | ok d => rfl

/-- A ticket is executed as the request over HTTP that asks for as much beside the claims of
the same headers. -/
theorem doGet_alike (hread : readTicket number handle = .ok t) {requested : List String}
    (hclaims : ∀ x, x ∈ t.auths ∨ x ∈ authsFromMetadata md ↔
      x ∈ authsFromMetadata md ∨ x ∈ requested) :
    Alike (doGetStatement sha number g md identity handle)
      (sql sha g md identity ⟨some t.db, t.sql, requested⟩) := by
  rw [doGet_eq hread, sql_eq]
  cases g.decide sha md t.db with
  | error e => exact .denied e
  | ok d =>
      have hsame : Asked.Same
          (g.ask identity t.db t.sql
            (tokenNarrow d.granted (requestClaims t.auths (authsFromMetadata md))))
          (g.ask identity t.db t.sql
            (tokenNarrow d.granted (requestClaims (authsFromMetadata md) requested))) := by
        refine ⟨rfl, rfl, rfl, fun x => ?_⟩
        simp only [Guard.ask, mem_resolveSession, mem_tokenNarrow, mem_requestClaims, hclaims]
      exact .asked hsame hsame.shows

/-- The authorization is within what the token of the call grants. -/
def Guard.Grants (g : Guard) (sha : String → String) (md : Metadata) (db x : String) : Prop :=
  ∃ d, g.decide sha md db = .ok d ∧ ∀ grants ∈ d.granted, x ∈ grants

theorem Guard.grants_iff {db x : String} {d : Decision} (h : g.decide sha md db = .ok d) :
    g.Grants sha md db x ↔ ∀ grants ∈ d.granted, x ∈ grants := by
  constructor
  · rintro ⟨d', hd', hgrants⟩
    obtain rfl := Except.ok.inj (h.symm.trans hd')
    exact hgrants
  · exact fun hgrants => ⟨d, h, hgrants⟩

/-- The session of an executed ticket: its claims and those of the call, as far as the token
and the certificate of the call reach. -/
theorem doGet_ok (hread : readTicket number handle = .ok t)
    (h : doGetStatement sha number g md identity handle = .ok a) :
    a.db = t.db ∧ a.sql = t.sql ∧ a.identity = identity ∧
      ∀ x, x ∈ a.auths ↔ (x ∈ t.auths ∨ x ∈ authsFromMetadata md) ∧ g.Grants sha md t.db x ∧
        ∀ grants ∈ identity.bind g.certGrants, x ∈ grants := by
  rw [doGet_eq hread] at h
  cases hdecide : g.decide sha md t.db with
  | error e =>
      rw [hdecide] at h
      cases h
  | ok d =>
      rw [hdecide] at h
      obtain rfl := Except.ok.inj h
      refine ⟨rfl, rfl, rfl, fun x => ?_⟩
      simp only [Guard.ask, mem_resolveSession, mem_tokenNarrow, mem_requestClaims,
        Guard.grants_iff hdecide, and_assoc]

theorem readTicket_of_doGet (h : doGetStatement sha number g md identity handle = .ok a) :
    ∃ t, readTicket number handle = .ok t := by
  cases hread : readTicket number handle with
  | error e =>
      rw [doGetStatement, hread] at h
      cases h
  | ok t => exact ⟨t, rfl⟩

theorem planned_ticket {planned : Guard} {query : String}
    (h : getFlightInfoStatement sha planned md query = .ok handle) :
    ∃ auths, readTicket number handle = .ok ⟨dbFromMetadata md, query, auths⟩ ∧
      ∀ x, x ∈ auths ↔ x ∈ authsFromMetadata md ∧
        planned.Grants sha md (dbFromMetadata md) x := by
  rw [getFlightInfoStatement, resolveAuths] at h
  cases hdecide : planned.decide sha md (dbFromMetadata md) with
  | error e =>
      rw [hdecide] at h
      cases h
  | ok d =>
      rw [hdecide] at h
      obtain rfl := Except.ok.inj h
      refine ⟨_, readTicket_handle _, fun x => ?_⟩
      rw [mem_tokenNarrow, Guard.grants_iff hdecide]

/-- However the tokens and grants have changed between its planning and its execution, a
statement of Flight SQL asks the engine what the same caller would ask over HTTP at the time of
the execution. On another connection its session holds what was granted at the planning or is
claimed now, and is granted now: no authorization is lost between the two calls that is granted
at both. -/
theorem doors_agree (planned now : Guard) (fresh : Metadata) (query : String)
    (h : getFlightInfoStatement sha planned md query = .ok handle) :
    Alike (doGetStatement sha number now md identity handle)
        (sql sha now md identity ⟨some (dbFromMetadata md), query, []⟩) ∧
      ∀ a, doGetStatement sha number now fresh identity handle = .ok a →
        a.db = dbFromMetadata md ∧ a.sql = query ∧ a.identity = identity ∧
          ∀ x, x ∈ a.auths ↔
            ((x ∈ authsFromMetadata md ∧ planned.Grants sha md (dbFromMetadata md) x) ∨
              x ∈ authsFromMetadata fresh) ∧
            now.Grants sha fresh (dbFromMetadata md) x ∧
            ∀ grants ∈ identity.bind now.certGrants, x ∈ grants := by
  obtain ⟨auths, hread, hauths⟩ : ∃ auths,
      readTicket number handle = .ok ⟨dbFromMetadata md, query, auths⟩ ∧
        ∀ x, x ∈ auths ↔ x ∈ authsFromMetadata md ∧
          planned.Grants sha md (dbFromMetadata md) x := planned_ticket h
  constructor
  · refine doGet_alike hread fun x => ?_
    constructor
    · rintro (hx | hx)
      · exact .inl ((hauths x).mp hx).1
      · exact .inl hx
    · rintro (hx | hx)
      · exact .inr hx
      · cases hx
  · intro a ha
    have hasked := doGet_ok hread ha
    simp only [hauths] at hasked
    exact hasked

/-- SHA-256 on one secret, and a text that is no digest on the others. -/
def readerSha (secret : String) : String :=
  if secret = "secret" then "2bb80d537b1da3e38bd30361aa855686bde0eacd7162fef6a25fe97bf527a25b"
  else "?" ++ secret

/-- A node that requires tokens and knows of one, for reading. -/
def readerGuard : Guard where
  mode := .required
  tokens := .fromRecords [⟨"tok-1", "grafana", readerSha "secret", .read, ["poc"], ["ops"],
    "admin", 0, none, false, none⟩]
  reloaded := none
  now := 60
  again := 60
  certGrants := fun _ => none

def readerCall : Metadata := fun name =>
  [("database", "poc"), ("authorization", "Bearer secret"),
    ("x-timelake-authorizations", "ops, admin")].lookup name

/-- No ticket below has a number in it. -/
def noNumber (_ : List Char) : Option Unit := none

theorem readerCall_planned : getFlightInfoStatement readerSha readerGuard readerCall "select 1" =
    .ok (Ticket.mk "poc" "select 1" ["ops"]).handle := by
  have hdb : dbFromMetadata readerCall = "poc" := by decide +kernel
  have hauths : resolveAuths readerSha readerGuard readerCall "poc" (authsFromMetadata readerCall) =
      .ok ["ops"] := by decide +kernel
  rw [getFlightInfoStatement, hdb, hauths]
  rfl

theorem readerCall_agrees :
    ∃ handle, getFlightInfoStatement readerSha readerGuard readerCall "select 1" = .ok handle ∧
      Alike (doGetStatement readerSha noNumber readerGuard readerCall none handle)
        (sql readerSha readerGuard readerCall none
          ⟨some (dbFromMetadata readerCall), "select 1", []⟩) :=
  ⟨_, readerCall_planned,
    (doors_agree readerGuard readerGuard readerCall "select 1" readerCall_planned).1⟩

end Agreement

section Forgery

variable {ν : Type} {sha : String → String} {number : List Char → Option ν} {g : Guard}
  {md : Metadata} {identity : Option String} {handle : Bytes} {a : Asked}

/-- The record of a secret's token, in force, for reading the database. -/
structure Guard.Admits (g : Guard) (sha : String → String) (secret db : String)
    (r : TokenRecord) : Prop where
  held : r ∈ g.tokens.records ∨ ∃ tokens ∈ g.reloaded, r ∈ tokens.records
  digest : r.hash = sha secret
  inForce : r.isValidAt g.now = true ∨ r.isValidAt g.again = true
  scope : r.scope.allows .read = true
  database : r.databases = [] ∨ db ∈ r.databases

theorem verifyToken_held {secret : String} {token : TokenIdentity}
    (h : verifyToken g.tokens g.reloaded (sha secret) g.now g.again = .ok token) :
    ∃ r, (r ∈ g.tokens.records ∨ ∃ tokens ∈ g.reloaded, r ∈ tokens.records) ∧
      r.hash = sha secret ∧ (r.isValidAt g.now = true ∨ r.isValidAt g.again = true) ∧
        token = ⟨r.id, r.description, r.scope, r.databases, r.authorizations⟩ := by
  unfold verifyToken at h
  split at h
  · next found hfound =>
      obtain rfl := Except.ok.inj h
      obtain ⟨r, hr, hhash, hvalid, heq⟩ := verify_record hfound
      exact ⟨r, .inl hr, hhash, .inl hvalid, heq⟩
  · split at h
    · next tokens hreloaded =>
        obtain ⟨r, hr, hhash, hvalid, heq⟩ := verify_record h
        exact ⟨r, .inr ⟨tokens, hreloaded, hr⟩, hhash, .inr hvalid, heq⟩
    · cases h

/-- Where tokens are required, a database is read with a token for it that is in force. -/
theorem Guard.admits_of_decide {db : String} {d : Decision} (hmode : g.mode = .required)
    (h : g.decide sha md db = .ok d) :
    ∃ header secret r, authorizationFromMetadata md = some header ∧ Carries header secret ∧
      g.Admits sha secret db r := by
  unfold Guard.decide decideData at h
  cases hid : d.identity with
  | none =>
      rcases guardDecide_anonymous h hid with hoff | ⟨hoptional, _⟩
      · rw [hmode] at hoff
        cases hoff
      · rw [hmode] at hoptional
        cases hoptional
  | some token =>
      obtain ⟨hne, hpresented, hscope, hdb⟩ := guardDecide_identity h hid
      rw [if_neg hne] at hpresented
      obtain ⟨header, hheader, hpresented⟩ := Option.bind_eq_some_iff.mp hpresented
      cases hsecret : tokenFromAuthorization header with
      | none =>
          rw [presentedBy, hsecret] at hpresented
          dsimp only at hpresented
          split at hpresented <;> cases hpresented
      | some secret =>
          have hcarries := token_eq_some_iff.mp hsecret
          rw [presentedBy_carries hcarries] at hpresented
          obtain ⟨r, hheld, hhash, hvalid, rfl⟩ := verifyToken_held (Option.some.inj hpresented)
          refine ⟨header, secret, r, hheader, hcarries, hheld, hhash, hvalid, hscope, ?_⟩
          simpa [allowsDatabase] using hdb

/-- A ticket opens nothing. Whatever bytes a client hands in, the engine is asked only what the
client could have asked over HTTP; the session stays within the grants that hold at that time of
the caller's token, for the database that is asked, and of its certificate; and where tokens are
required the call itself carries one that is in force. -/
theorem tickets_open_nothing (h : doGetStatement sha number g md identity handle = .ok a) :
    (∃ req b, sql sha g md identity req = .ok b ∧ a.Same b) ∧
      (∀ x ∈ a.auths, g.Grants sha md a.db x ∧
        ∀ grants ∈ identity.bind g.certGrants, x ∈ grants) ∧
      (g.mode = .required → ∃ header secret r, authorizationFromMetadata md = some header ∧
        Carries header secret ∧ g.Admits sha secret a.db r) := by
  obtain ⟨t, hread⟩ := readTicket_of_doGet h
  obtain ⟨hdb, -, -, hauths⟩ := doGet_ok hread h
  have halike : Alike (doGetStatement sha number g md identity handle)
      (sql sha g md identity ⟨some t.db, t.sql, t.auths⟩) :=
    doGet_alike hread fun x => or_comm
  rw [h] at halike
  refine ⟨?_, ?_, ?_⟩
  · generalize hsql : sql sha g md identity ⟨some t.db, t.sql, t.auths⟩ = answer at halike
    cases halike with
    | asked hsame _ => exact ⟨_, _, hsql, hsame⟩
  · intro x hx
    rw [hdb]
    exact ((hauths x).mp hx).2
  · intro hmode
    rw [hdb]
    rw [doGet_eq hread] at h
    cases hdecide : g.decide sha md t.db with
    | error e =>
        rw [hdecide] at h
        cases h
    | ok d => exact Guard.admits_of_decide hmode hdecide

/-- The ticket claims what the token does not grant. -/
def forgedTicket : Ticket := ⟨"poc", "select 1", ["admin"]⟩

theorem forgedTicket_narrowed :
    ∃ a, doGetStatement readerSha noNumber readerGuard readerCall none forgedTicket.handle = .ok a ∧
      a.auths = ["ops"] ∧ ∃ header secret r, authorizationFromMetadata readerCall = some header ∧
        Carries header secret ∧ readerGuard.Admits readerSha secret a.db r := by
  have hread : readTicket noNumber forgedTicket.handle = .ok forgedTicket := readTicket_handle _
  have hdecide : readerGuard.decide readerSha readerCall forgedTicket.db =
      .ok ⟨some ⟨"tok-1", "grafana", .read, ["poc"], ["ops"]⟩, some ["ops"]⟩ := by decide +kernel
  have hasked : doGetStatement readerSha noNumber readerGuard readerCall none
      forgedTicket.handle = .ok (readerGuard.ask none "poc" "select 1"
        (tokenNarrow (some ["ops"]) (requestClaims ["admin"] (authsFromMetadata readerCall)))) := by
    rw [doGet_eq hread, hdecide]
    rfl
  exact ⟨_, hasked, by decide +kernel, (tickets_open_nothing hasked).2.2 rfl⟩

end Forgery

end TimeLake.Flight
