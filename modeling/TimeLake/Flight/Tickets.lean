import TimeLake.Audit.Line
import TimeLake.Auth.Decision
import TimeLake.Library.JsonFields
import TimeLake.Query.Narrow

/-!
The two doors to a query: `/api/sql`, and a statement of Flight SQL, which is planned by one
call and executed by another. What the planning knew of the caller travels between the two
in a ticket that the client hands back, so a ticket is any bytes a client cares to send.
-/

namespace TimeLake.Flight

open TimeLake.Library TimeLake.Auth
open TimeLake.Audit (nesting)
open TimeLake.Ingest (trim)
open TimeLake.Query (requestClaims tokenNarrow resolveSession)
open TimeLake.Wal (utf8 fromUtf8)

section Metadata

/-- What the first value under a name reads as, if it is there and reads as text. The headers
of a request over HTTP are read alike. -/
abbrev Metadata := String → Option String

def dbFromMetadata (md : Metadata) : String :=
  ((["database", "bucket-name", "bucket", "db"].filterMap md).find? (· ≠ "")).getD "poc"

/-- `auths_from_metadata` and `auths_from_headers` -/
def authsFromMetadata (md : Metadata) : List String :=
  match md "x-timelake-authorizations" with
  | some v => (((pieces ',' v.toList).map trim).filter (· ≠ [])).map String.ofList
  | none => []

def authorizationFromMetadata (md : Metadata) : Option String := md "authorization"

end Metadata

section Tickets

structure Ticket where
  db : String
  sql : String
  auths : List String
  deriving DecidableEq, Repr

def Ticket.json (t : Ticket) : Json (List Char) :=
  .obj [("db", .str t.db), ("sql", .str t.sql), ("auths", .arr (t.auths.map .str))]

/-- The `statement_handle` of a planned statement. -/
def Ticket.handle (t : Ticket) : Bytes := utf8 (String.ofList (t.json.write id))

inductive Refusal where
  | denied (e : TokenError)
  | notUtf8
  | badTicket
  | missingSql
  deriving DecidableEq, Repr

variable {ν : Type} (number : List Char → Option ν)

/-- `serde_json::from_str`, over what it makes of the token of a number. -/
def fromStr (text : List Char) : Option (Json ν) :=
  match Json.read nesting text with
  | some (v, rest) => if rest.all Json.isBlank then v.decode number else none
  | none => none

/-- What `do_get_statement` takes from a handle. -/
def readTicket (handle : Bytes) : Except Refusal Ticket :=
  match fromUtf8 handle with
  | none => .error .notUtf8
  | some text =>
      match fromStr number text.toList with
      | none => .error .badTicket
      | some parsed =>
          match (parsed.field "sql").asStr with
          | none => .error .missingSql
          | some sql => .ok
              { db := (parsed.field "db").asStr.getD "poc"
                sql := sql
                auths := (parsed.field "auths").asArray.filterMap Json.asStr }

end Tickets

section Doors

/-- What decides about a caller when its call arrives: the mode, the tokens, what a re-read of
them would put in their place, the clock and the grants of certificates. -/
structure Guard where
  mode : DataAuthMode
  tokens : TokenIndex
  reloaded : Option TokenIndex
  now : Nat
  again : Nat
  certGrants : String → Option (List String)

/-- What the engine is asked: a statement, and the session it runs in. -/
structure Asked where
  db : String
  sql : String
  identity : Option String
  auths : List String
  deriving DecidableEq, Repr

structure SqlRequest where
  db : Option String
  sql : String
  authorizations : List String

variable {ν : Type} (sha : String → String) (number : List Char → Option ν)

/-- `authenticate_read` -/
def Guard.decide (g : Guard) (md : Metadata) (db : String) : Except TokenError Decision :=
  decideData sha g.tokens g.reloaded g.now g.again g.mode (authorizationFromMetadata md) .read db

/-- `sql_batches`, as far as its session. -/
def Guard.ask (g : Guard) (identity : Option String) (db sql : String) (auths : List String) :
    Asked :=
  ⟨db, sql, identity, resolveSession identity (identity.bind g.certGrants) auths⟩

def resolveAuths (g : Guard) (md : Metadata) (db : String) (claimed : List String) :
    Except TokenError (List String) :=
  (g.decide sha md db).map fun d => tokenNarrow d.granted claimed

def getFlightInfoStatement (g : Guard) (md : Metadata) (query : String) :
    Except TokenError Bytes :=
  let db := dbFromMetadata md
  (resolveAuths sha g md db (authsFromMetadata md)).map fun auths =>
    (Ticket.mk db query auths).handle

def doGetStatement (g : Guard) (md : Metadata) (identity : Option String) (handle : Bytes) :
    Except Refusal Asked := do
  let t ← readTicket number handle
  let auths ← (resolveAuths sha g md t.db
    (requestClaims t.auths (authsFromMetadata md))).mapError .denied
  .ok (g.ask identity t.db t.sql auths)

/-- `sql` of `/api/sql` -/
def sql (g : Guard) (md : Metadata) (identity : Option String) (req : SqlRequest) :
    Except TokenError Asked :=
  let db := req.db.getD "poc"
  (resolveAuths sha g md db (requestClaims (authsFromMetadata md) req.authorizations)).map
    fun auths => g.ask identity db req.sql auths

end Doors

section RoundTrip

variable {ν : Type} {number : List Char → Option ν}

theorem properItems_strings (strings : List String) :
    Json.ProperItems Json.IsToken (strings.map .str) := by
  induction strings with
  | nil => trivial
  | cons s rest ih => exact ⟨trivial, ih⟩

theorem depthItems_strings {μ : Type} (strings : List String) :
    Json.depthItems (strings.map (.str : String → Json μ)) = 0 := by
  induction strings with
  | nil => rfl
  | cons s rest ih =>
      rw [List.map_cons, Json.depthItems, ih]
      rfl

theorem decodeItems_strings (strings : List String) :
    Json.decodeItems number (strings.map .str) = some (strings.map .str) := by
  induction strings with
  | nil => rfl
  | cons s rest ih =>
      rw [List.map_cons, Json.decodeItems, ih]
      rfl

theorem filterMap_asStr {μ : Type} (strings : List String) :
    (strings.map (.str : String → Json μ)).filterMap Json.asStr = strings := by
  rw [List.filterMap_map]
  exact List.filterMap_some

theorem Ticket.proper (t : Ticket) : t.json.Proper Json.IsToken := by
  have hnames : ["db", "sql", "auths"].Nodup := by decide
  exact ⟨hnames, trivial, trivial, properItems_strings t.auths, trivial⟩

theorem Ticket.depth_le (t : Ticket) : t.json.depth ≤ nesting := by
  simp only [Ticket.json, Json.depth, Json.depthMembers, depthItems_strings]
  decide

theorem fromStr_ticket (t : Ticket) :
    fromStr number (t.json.write id) = some (.obj
      [("db", .str t.db), ("sql", .str t.sql), ("auths", .arr (t.auths.map .str))]) := by
  have hread := Json.read_write t.json t.proper nesting [] trivial
  rw [List.append_nil, if_pos t.depth_le] at hread
  rw [fromStr, hread]
  simp only [Ticket.json, Json.decode, Json.decodeMembers, decodeItems_strings]
  rfl

/-- A ticket reads back as it was planned, whatever its statement and its names contain. -/
theorem readTicket_handle (t : Ticket) : readTicket number t.handle = .ok t := by
  rw [readTicket, Ticket.handle, Wal.fromUtf8_utf8]
  simp only [String.toList_ofList, fromStr_ticket]
  change Except.ok (Ticket.mk t.db t.sql ((t.auths.map .str).filterMap Json.asStr)) = .ok t
  rw [filterMap_asStr]

end RoundTrip

end TimeLake.Flight
