import TimeLake.Admin.Config
import TimeLake.Admin.Durations
import TimeLake.Admin.Windows
import TimeLake.Audit.Chain
import TimeLake.Auth.Tokens
import TimeLake.Ingest.Replication
import TimeLake.Library.Json

/-!
Requests on the admin listener (`crates/api`): the guard in front of every route
but the login, the routes that change something, and what such a request comes to.
A body is read by `serde_json`, which is a parameter; an error names its text, of which
the part that `{:?}` shows is kept apart.
-/

namespace TimeLake.Admin.Plane

open TimeLake.Auth (Role SessionInfo Scope TokenRecord)
open TimeLake.Cluster
open TimeLake.Ingest
open TimeLake.Ingest.Replication (toStr)
open TimeLake.Library

section Replies

inductive Text where
  | plain (text : String)
  | quoting (before quoted after : String)
  deriving DecidableEq, Repr

/-- An answer that is not a success, by its status. -/
inductive Refusal where
  | unauthenticated
  | csrf
  | origin
  | passwordChangeRequired
  | forbidden (role needed : Role)
  | passwordRejected (text : String)
  | badRequest (text : Text)
  | notFound (text : String)
  | conflict (text : String)
  | internal (text : String)
  | auditUnavailable
  deriving DecidableEq, Repr

def roleText : Role → String
  | .viewer => "viewer"
  | .operator => "operator"
  | .admin => "admin"

def Refusal.status : Refusal → Nat
  | .unauthenticated => 401
  | .csrf | .origin | .passwordChangeRequired | .forbidden _ _ => 403
  | .passwordRejected _ | .badRequest _ => 400
  | .notFound _ => 404
  | .conflict _ => 409
  | .internal _ => 500
  | .auditUnavailable => 503

def Refusal.text : Refusal → Text
  | .unauthenticated => .plain "authentication required"
  | .csrf => .plain "CSRF token missing or wrong"
  | .origin => .plain "cross-origin request refused"
  | .passwordChangeRequired =>
      .plain "the password must be changed before this credential can do anything else"
  | .forbidden role needed =>
      .plain ("role '" ++ roleText role ++ "' is not sufficient; '" ++ roleText needed ++
        "' required")
  | .badRequest text => text
  | .passwordRejected text | .notFound text | .conflict text | .internal text => .plain text
  | .auditUnavailable => .plain "audit sink unavailable"

/-- The `code` beside the error. -/
def Refusal.code : Refusal → Option String
  | .unauthenticated => some "unauthenticated"
  | .csrf => some "csrf"
  | .origin => some "origin"
  | .passwordChangeRequired => some "password_change_required"
  | .forbidden _ _ => some "forbidden"
  | .passwordRejected _ => some "password_rejected"
  | _ => none

inductive Reply where
  | refused (refusal : Refusal)
  | done (status : Nat) (body : Json Int)

end Replies

section Guard

/-- Header values by their names in lower case. -/
abbrev Headers := List (String × List Char)

inductive Method where
  | get | head | post | put | delete | other
  deriving DecidableEq, Repr

def Method.mutating : Method → Bool
  | .get | .head => false
  | _ => true

/-- `path` is the path by its segments, the parameters of the route decoded. -/
structure Request where
  method : Method
  path : List String
  query : List (String × String)
  headers : Headers
  body : Bytes
  source : Option String

def sessionCookie : String := "tldb_admin_session"

def csrfHeader : String := "x-timelake-csrf"

def header (headers : Headers) (name : String) : Option String :=
  ((headers.lookup name).bind toStr).map String.ofList

def cookieValue (headers : Headers) (name : String) : Option String := do
  let cookies ← (headers.lookup "cookie").bind toStr
  let pair ← ((cookies.splitOn ';').filterMap (splitOnce '=')).find? fun p =>
    String.ofList (trim p.1) = name
  return String.ofList (trim pair.2)

def bearer (headers : Headers) : Option String := do
  let value ← (headers.lookup "authorization").bind toStr
  if "Bearer ".toList.isPrefixOf value then some (String.ofList (value.drop 7)) else none

/-- The secret that the guard looks up, a bearer token before a cookie. -/
def presented (headers : Headers) : Option String :=
  (bearer headers).or (cookieValue headers sessionCookie)

/-- What follows the last `//`. -/
def afterSlashes : List Char → Option (List Char)
  | [] => none
  | c :: rest =>
      (afterSlashes rest).or
        (if "//".toList.isPrefixOf (c :: rest) then some (rest.drop 1) else none)

/-- An `Origin` that is not the `Host`. -/
def crossOrigin (headers : Headers) : Bool :=
  match (headers.lookup "origin").bind toStr with
  | none => false
  | some origin =>
      let host := ((headers.lookup "host").bind toStr).getD []
      host ≠ [] && (afterSlashes origin).getD origin ≠ host

/-- The paths that a session whose password must be changed may use. -/
def unlocked (path : List String) : Bool :=
  path = ["admin", "password"] || path = ["admin", "session"]

/-- `admin_guard`, over what `auth.session` answers. -/
def adminGuard (sessions : String → Option SessionInfo) (req : Request) :
    Except Refusal SessionInfo :=
  match (presented req.headers).bind sessions with
  | none => .error .unauthenticated
  | some session =>
      let byCookie := req.method.mutating && (bearer req.headers).isNone
      if byCookie && header req.headers csrfHeader ≠ some session.csrf then .error .csrf
      else if byCookie && crossOrigin req.headers then .error .origin
      else if session.mustChangePassword && !unlocked req.path then
        .error .passwordChangeRequired
      else .ok session

end Guard

section Calls

/-- What a request has the engine or the credentials do. -/
inductive Call where
  | setRetention (db table : String) (seconds : Nat)
  | removeRetention (db table : String)
  | enableLastCache (db table : String)
  | disableLastCache (db table : String)
  | createTable (db table : String) (columns : List (String × String × Bool))
  | dropTable (db table : String)
  | setRollup (d : RollupDef)
  | removeRollup (db name : String)
  | deleteWhere (db table : String) (tagEquals : List (String × String))
      (startNs endNs : Option Int)
  | setConfig (key : String) (value : Option String) (actor writtenAt : String)
  | revertConfig (key : String)
  | issueToken (description : String) (scope : Scope) (databases authorizations : List String)
      (expiresAtSecs : Option Nat) (createdBy : String)
  | revokeToken (id : String)
  | setCertGrants (identity : String) (authorizations : List String)
  | removeCertGrants (identity : String)
  | changePassword (username old new : String)

/-- What the call returns when it succeeds. -/
def Call.Answer : Call → Type
  | .deleteWhere .. => String × Nat
  | .setConfig .. => Nat
  | .revertConfig .. | .revokeToken .. | .removeCertGrants .. => Bool
  | .issueToken .. => String × TokenRecord
  | _ => Unit

/-- The text of an error, and whether it is `ConfigSetError::Rejected`. -/
structure Failure where
  text : String
  rejected : Bool
  deriving DecidableEq, Repr

/-- What a handler reads of the engine, the credentials and the clock at some moment. -/
structure View where
  policies : List RetentionPolicy
  rollups : List RollupDef
  certGrants : List (String × List String)
  effective : String → Option (Json Int)
  dryRun : (key : String) → (value : Option String) → (actor writtenAt : String) →
    Except Failure (Json Int)
  now : Nat
  stamp : String

end Calls

section Records

def jsonText (v : Json Int) : String := String.ofList (v.write fun n => (toString n).toList)

/-- `audit_event` -/
def auditEvent (session : SessionInfo) (source : Option String) (action : String)
    (target : Option String) (before after : Option (Json Int)) (outcome : String) :
    Audit.NewRecord where
  principal := session.username
  role := roleText session.role
  session := some session.id
  source := source
  requestId := none
  action := action
  target := target
  before := before.map jsonText
  after := after.map jsonText
  outcome := outcome

/-- `session_event` -/
def sessionEvent (principal role : String) (session source : Option String)
    (action outcome : String) (after : Option (Json Int)) : Audit.NewRecord where
  principal := principal
  role := role
  session := session
  source := source
  requestId := none
  action := action
  target := none
  before := none
  after := after.map jsonText
  outcome := outcome

def auditPrincipalMax : Nat := 128

def attemptedPrincipal (name : String) : String :=
  if auditPrincipalMax < name.toList.length then
    String.ofList (name.toList.take auditPrincipalMax) ++ "..."
  else name

/-- What is recorded of but not waited for: logins, logouts and reads of the trail. -/
inductive Event where
  | loggedIn (session : SessionInfo) (source : Option String)
  | rateLimited (username : String) (source : Option String)
  | wrongPassword (username : String) (source : Option String)
  | loggedOut (session : SessionInfo) (source : Option String)
  | auditRead (session : SessionInfo) (source : Option String) (returned total : Nat)

def Event.record : Event → Audit.NewRecord
  | .loggedIn s source =>
      sessionEvent s.username (roleText s.role) (some s.id) source "session.login" "ok" none
  | .rateLimited username source =>
      sessionEvent (attemptedPrincipal username) "-" none source "session.login" "denied"
        (some (.obj [("reason", .str "rate_limited")]))
  | .wrongPassword username source =>
      sessionEvent (attemptedPrincipal username) "-" none source "session.login" "denied"
        (some (.obj [("reason", .str "invalid_credentials")]))
  | .loggedOut s source =>
      sessionEvent s.username (roleText s.role) (some s.id) source "session.logout" "ok" none
  | .auditRead s source returned total =>
      auditEvent s source "audit.read" none none
        (some (.obj [("returned", .num returned), ("total", .num total)])) "ok"

end Records

section Mutations

/-- How a handler ends once its call has returned: a record that the success waits
for, a record that may fail, or none. -/
inductive Conclusion where
  | recorded (target : Option String) (after : Option (Json Int)) (status : Nat) (body : Json Int)
  | noted (target : Option String) (after : Option (Json Int)) (outcome : String)
      (refusal : Refusal)
  | unrecorded (refusal : Refusal)

structure Mutation where
  call : Call
  action : String
  before : View → Option (Json Int)
  conclude : Except Failure call.Answer → View → Conclusion

/-- What a handler comes to before it asks the audit gate: an answer, or what it comes
to behind the gate. -/
abbrev Plan := Except Reply (Except Reply Mutation)

def refuse {α : Type} (refusal : Refusal) : Except Reply α := .error (.refused refusal)

def require (session : SessionInfo) (needed : Role) : Except Reply Unit :=
  if Windows.allows session.role needed then .ok () else refuse (.forbidden session.role needed)

/-- `axum::body::to_bytes` and `serde_json::from_slice`. -/
def readBody {α : Type} (limit : Nat) (parse : Bytes → Except String α) (req : Request) :
    Except Reply α :=
  if limit < req.body.length then refuse (.badRequest (.plain "length limit exceeded"))
  else
    match parse req.body with
    | .error e => refuse (.badRequest (.plain e))
    | .ok v => .ok v

/-- Nothing else to check behind the gate. -/
def behindGate (m : Mutation) : Plan := .ok (.ok m)

def scopeName (db table : String) : String := db ++ "." ++ table

def strings (items : List String) : Json Int := .arr (items.map .str)

end Mutations

end TimeLake.Admin.Plane
