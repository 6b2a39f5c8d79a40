import TimeLake.Admin.Requests

/-!
The handlers of the admin routes that change something. Each takes the session, what it
reads of the engine and, where its policies are read twice, what it read first.
-/

namespace TimeLake.Admin.Plane

open TimeLake.Auth (Role SessionInfo Scope TokenRecord)
open TimeLake.Cluster
open TimeLake.Ingest
open TimeLake.Library

section Bodies

structure TableCreate where
  db : String
  table : String
  columns : List (String × String × Bool)

structure RollupSet where
  db : String
  name : String
  source : String
  target : Option String
  interval : String
  lookback : Option String
  groupBy : Option (List String)
  aggregations : List RollupAgg
  filter : Option String

/-- `tags` is a `BTreeMap`, in the order of its keys. -/
structure DeleteRequest where
  db : String
  table : String
  tags : List (String × String)
  startNs : Option Int
  endNs : Option Int

structure TokenIssueRequest where
  description : String
  scope : String
  databases : List String
  authorizations : List String
  expiresInSecs : Option Nat

/-- The deserializers. The value of a setting keeps its numbers as texts. -/
structure Bodies where
  retentionSet : Bytes → Except String Windows.RetentionSet
  lastCacheSet : Bytes → Except String (String × String)
  tableCreate : Bytes → Except String TableCreate
  rollupSet : Bytes → Except String RollupSet
  deleteRequest : Bytes → Except String DeleteRequest
  configSet : Bytes → Except String (Json String)
  tokenIssue : Bytes → Except String TokenIssueRequest
  certGrants : Bytes → Except String (List String)
  passwordChange : Bytes → Except String (String × String)

end Bodies

section Handlers

variable (bodies : Bodies) (session : SessionInfo) (req : Request)

def trimmed (s : String) : String := String.ofList (trim s.toList)

def policyJson (p : RetentionPolicy) : Json Int :=
  .obj [("db", .str p.db), ("seconds", .num p.seconds),
    ("duration", .str (humanizeSecs p.seconds))]

def setErrorText : Windows.SetError → Text
  | .emptyTable => .plain "table must not be empty"
  | .dbRequired => .plain ("db is required: name the database this policy governs, or \"*\" for " ++
      "every database. It was previously implicit and always meant \"*\", which deleted " ++
      "same-named tables in databases the operator had not named")
  | .badDuration duration =>
      .quoting "duration " duration " is not <n>d, <n>h, <n>m, or seconds (and must be > 0)"

/-- The window is looked up in what was read first, the scope in what was read then. -/
def retentionSet (first view : View) : Plan := do
  let set ← readBody (64 * 1024) bodies.retentionSet req
  match set.named with
  | .error e => refuse (.badRequest (setErrorText e))
  | .ok (db, table, seconds) =>
      let current := Windows.exactWindow first.policies db table
      let widening := Windows.wideningScope view.policies db table current
      let destructive := Windows.destructive seconds current widening
      require session (Windows.neededRole destructive)
      behindGate {
        call := .setRetention db table seconds
        action := "retention.set"
        before := fun _ => current.map fun (s : Nat) =>
          .obj [("seconds", .num s), ("duration", .str (humanizeSecs s))]
        conclude := fun
          | .ok (), _ =>
              .recorded (some (scopeName db table)) (some (policyJson ⟨db, table, seconds⟩)) 200
                (.obj [("db", .str db), ("table", .str table), ("seconds", .num seconds),
                  ("duration", .str (humanizeSecs seconds)), ("status", .str "set"),
                  ("destructive", .bool destructive),
                  ("all_databases", .bool (db = retentionAnyDb))])
          | .error e, _ => .noted (some (scopeName db table)) none "error" (.internal e.text) }

/-- The common end of the handlers whose call returns nothing and whose answer gives two
names and a status. -/
def named (call : Call) (action : String) (before : View → Option (Json Int))
    (db field name : String) (done : Nat) (status : String) (failed : String → Refusal) :
    Mutation where
  call := call
  action := action
  before := before
  conclude := fun
    | .ok _, _ =>
        .recorded (some (scopeName db name)) none done
          (.obj [("db", .str db), (field, .str name), ("status", .str status)])
    | .error e, _ => .noted (some (scopeName db name)) none "error" (failed e.text)

def badRequest (text : String) : Refusal := .badRequest (.plain text)

def retentionDelete (db table : String) : Plan := do
  require session .admin
  behindGate (named (.removeRetention db table) "retention.remove"
    (fun v => (findPolicy v.policies db table).map policyJson) db "table" table 200 "removed"
    .internal)

def lastCacheSet : Plan := do
  let set ← readBody (64 * 1024) bodies.lastCacheSet req
  let db := trimmed set.1
  let table := trimmed set.2
  if db = "" || table = "" then refuse (badRequest "db and table must not be empty")
  else do
    require session .operator
    behindGate (named (.enableLastCache db table) "last_cache.enable" (fun _ => none) db "table"
      table 200 "enabled" .internal)

def lastCacheDelete (db table : String) : Plan := do
  require session .operator
  behindGate (named (.disableLastCache db table) "last_cache.disable" (fun _ => none) db "table"
    table 200 "disabled" .internal)

def tablesCreate : Plan := do
  let spec ← readBody (256 * 1024) bodies.tableCreate req
  let db := trimmed spec.db
  let table := trimmed spec.table
  if db = "" || table = "" then refuse (badRequest "db and table must not be empty")
  else do
    require session .admin
    behindGate (named (.createTable db table spec.columns) "table.create" (fun _ => none) db
      "table" table 201 "created" badRequest)

def tablesDrop (db table : String) : Plan := do
  require session .admin
  behindGate (named (.dropTable db table) "table.drop" (fun _ => none) db "table" table 200
    "dropped" badRequest)

def durationError (field duration : String) : Refusal :=
  .badRequest (.quoting (field ++ " ") duration " is not <n>d/<n>h/<n>m/seconds (> 0)")

/-- What the request defines. -/
def RollupSet.toDef (set : RollupSet) : Except Refusal RollupDef := do
  let intervalSecs ← (parseDurationSecs set.interval).elim
    (.error (durationError "interval" set.interval)) .ok
  let lookbackSecs ← match set.lookback with
    | none => .ok intervalSecs
    | some s => (parseDurationSecs s).elim (.error (durationError "lookback" s)) .ok
  let source := trimmed set.source
  return {
    db := trimmed set.db
    name := trimmed set.name
    source := source
    target := ((set.target.map trimmed).filter (· ≠ "")).getD
      (source ++ "_" ++ trimmed set.interval)
    intervalSecs := intervalSecs
    lookbackSecs := lookbackSecs
    groupBy := set.groupBy.getD []
    aggregations := set.aggregations.map fun a =>
      { a with sourceColumn := trimmed a.sourceColumn, targetColumn := trimmed a.targetColumn }
    filter := (set.filter.map trimmed).filter (· ≠ "") }

def rollupJson (d : RollupDef) : Json Int :=
  .obj [("db", .str d.db), ("name", .str d.name), ("source", .str d.source),
    ("target", .str d.target), ("interval_secs", .num d.intervalSecs),
    ("lookback_secs", .num d.lookbackSecs)]

def findRollup (rollups : List RollupDef) (db name : String) : Option RollupDef :=
  rollups.find? fun r => r.db = db && r.name = name

/-- The body is read behind the gate. -/
def rollupsSet : Plan := do
  require session .admin
  return do
    let set ← readBody (256 * 1024) bodies.rollupSet req
    match set.toDef with
    | .error e => refuse e
    | .ok d =>
        return {
          call := .setRollup d
          action := "rollup.set"
          before := fun v => (findRollup v.rollups d.db d.name).map fun r =>
            .obj [("source", .str r.source), ("target", .str r.target),
              ("interval_secs", .num r.intervalSecs)]
          conclude := fun
            | .ok (), _ =>
                .recorded (some (scopeName d.db d.name)) (some (rollupJson d)) 200
                  (.obj [("status", .str "set"), ("rollup", rollupJson d)])
            | .error e, _ =>
                .noted (some (scopeName d.db d.name)) none "denied" (badRequest e.text) }

def rollupsDelete (db name : String) : Plan := do
  require session .admin
  behindGate (named (.removeRollup db name) "rollup.remove"
    (fun v => (findRollup v.rollups db name).map fun r =>
      .obj [("source", .str r.source), ("target", .str r.target)])
    db "name" name 200 "removed" .internal)

def optionJson (n : Option Int) : Json Int := n.elim .null .num

def DeleteRequest.predicate (del : DeleteRequest) : Json Int :=
  .obj [("tags", .obj (del.tags.map fun tag => (tag.1, .str tag.2))),
    ("start_ns", optionJson del.startNs), ("end_ns", optionJson del.endNs)]

def occursIn (part : List Char) : List Char → Bool
  | [] => part.isEmpty
  | c :: rest => part.isPrefixOf (c :: rest) || occursIn part rest

/-- An error of `delete_where` that the caller made. -/
def isClientError (text : String) : Bool :=
  ["needs at least one predicate", "does not exist", "time window is empty", "querier"].any
    fun part => occursIn part.toList text.toList

def adminDelete : Plan := do
  require session .admin
  let del ← readBody (64 * 1024) bodies.deleteRequest req
  let db := trimmed del.db
  let table := trimmed del.table
  if db = "" || table = "" then refuse (badRequest "db and table must not be empty")
  else
    behindGate {
      call := .deleteWhere db table del.tags del.startNs del.endNs
      action := "data.delete"
      before := fun _ => none
      conclude := fun
        | .ok (id, seq), _ =>
            .recorded (some (scopeName db table))
              (some (.obj [("predicate", del.predicate), ("tombstone_id", .str id),
                ("seq", .num seq)])) 200
              (.obj [("db", .str db), ("table", .str table), ("tombstone_id", .str id),
                ("seq", .num seq), ("status", .str "recorded")])
        | .error e, _ =>
            if isClientError e.text then
              .noted (some (scopeName db table)) (some del.predicate) "denied" (badRequest e.text)
            else
              .noted (some (scopeName db table)) (some del.predicate) "error" (.internal e.text) }

/-- `min_role` of a setting. -/
def minRole (key : String) : Role :=
  if ["flush_rows", "flush_age_secs", "wal_max_bytes", "compact_min_files", "l0_row_group_rows",
    "query_timeout_secs", "max_result_rows"].contains key then .operator
  else .admin

def unknownSetting (key : String) : Refusal := 
  .notFound ("unknown setting `" ++ key ++ "`")

def configValueText : Json String → Except String (Option String)
  | .null => .ok none
  | .str s => .ok (some s)
  | .num n => .ok (some n)
  | .bool b => .ok (some (toString b))
  | _ => .error "value must be a string, number, boolean, or null"

def configErrResponse (e : Failure) : Refusal :=
  if e.rejected then .conflict e.text else .internal e.text

def configSet (key : String) (view : View) : Plan := do
  if (spec key).isNone then refuse (unknownSetting key)
  else do
    require session (minRole key)
    let body ← readBody (64 * 1024) (fun b => (bodies.configSet b).mapError fun e =>
      "body must be \x7b\"value\": <string|number|bool|null>\x7d: " ++ e) req
    match configValueText body with
    | .error e => refuse (badRequest e)
    | .ok value =>
        if (req.query.lookup "dry_run").any fun v => v = "1" || v = "true" then
          match view.dryRun key value session.username view.stamp with
          | .ok preview =>
              .error (.done 200 (.obj [("dry_run", .bool true), ("would_apply", preview)]))
          | .error e => refuse (configErrResponse e)
        else
          behindGate {
            call := .setConfig key value session.username view.stamp
            action := "config.set"
            before := fun v => v.effective key
            conclude := fun
              | .ok revision, v =>
                  .recorded (some key) (v.effective key) 200
                    (.obj [("key", .str key), ("revision", .num (Int.ofNat revision)),
                      ("status", .str "applied")])
              | .error e, _ => .noted (some key) none "rejected" (configErrResponse e) }

/-- A failure is not recorded. -/
def configDelete (key : String) : Plan := do
  if (spec key).isNone then refuse (unknownSetting key)
  else do
    require session (minRole key)
    behindGate {
      call := .revertConfig key
      action := "config.revert"
      before := fun v => v.effective key
      conclude := fun
        | .ok removed, v =>
            .recorded (some key) (v.effective key) 200
              (.obj [("key", .str key),
                ("status", .str (cond removed "reverted" "no override"))])
        | .error e, _ => .unrecorded (configErrResponse e) }

def scopeText : Scope → String
  | .read => "read"
  | .write => "write"
  | .readWrite => "read_write"

def parseScope (s : String) : Option Scope :=
  match s with
  | "read" => some .read
  | "write" => some .write
  | "read_write" | "readwrite" | "rw" => some .readWrite
  | _ => none

def tokenView (r : TokenRecord) : Json Int :=
  .obj [("id", .str r.id), ("description", .str r.description), ("scope", .str (scopeText r.scope)),
    ("databases", strings r.databases), ("authorizations", strings r.authorizations),
    ("created_by", .str r.createdBy), ("created_at_secs", .num r.createdAtSecs),
    ("expires_at_secs", optionJson (r.expiresAtSecs.map Int.ofNat)), ("revoked", .bool r.revoked),
    ("last_used_secs", optionJson (r.lastUsedSecs.map Int.ofNat))]

def tokensIssue (view : View) : Plan := do
  require session .admin
  let issue ← readBody (64 * 1024) bodies.tokenIssue req
  if trimmed issue.description = "" then
    refuse (badRequest ("description must not be empty — six months from now someone" ++
      "              has to know what this token is before revoking it"))
  else
    match parseScope issue.scope with
    | none =>
        refuse (.badRequest (.quoting "scope " issue.scope " is not read, write, or read_write"))
    | some scope =>
        behindGate {
          call := .issueToken issue.description scope issue.databases issue.authorizations
            (issue.expiresInSecs.map fun n => (view.now + n) % 2 ^ 64) session.username
          action := "token.issue"
          before := fun _ => none
          conclude := fun
            | .ok (secret, record), _ =>
                .recorded (some record.id) (some (tokenView record)) 200
                  (.obj [("secret", .str secret), ("token", tokenView record)])
            | .error e, _ => .noted none none "error" (.internal e.text) }

/-- The common end of the handlers that remove something by one name: where there was
nothing, nothing is recorded. -/
def removal (call : Call) (answer : call.Answer = Bool) (action : String)
    (before : View → Option (Json Int)) (field name status absent : String) : Mutation where
  call := call
  action := action
  before := before
  conclude := fun
    | .ok removed, _ =>
        if cast answer removed then
          .recorded (some name) none 200 (.obj [(field, .str name), ("status", .str status)])
        else .unrecorded (.notFound absent)
    | .error e, _ => .noted (some name) none "error" (.internal e.text)

def tokensRevoke (id : String) : Plan := do
  require session .admin
  behindGate (removal (.revokeToken id) rfl "token.revoke" (fun _ => none) "id" id "revoked"
    "no such token, or already revoked")

def grantsOf (view : View) (cn : String) : Option (Json Int) :=
  (view.certGrants.find? fun g => g.1 = cn).map fun g =>
    .obj [("authorizations", strings g.2)]

def certGrantsSet (cn : String) : Plan := do
  require session .admin
  let authorizations ← readBody (64 * 1024) bodies.certGrants req
  if trimmed cn = "" then refuse (badRequest "certificate CN must not be empty")
  else
    behindGate {
      call := .setCertGrants cn authorizations
      action := "cert_grants.set"
      before := fun v => grantsOf v cn
      conclude := fun
        | .ok (), _ =>
            .recorded (some cn) (some (.obj [("authorizations", strings authorizations)])) 200
              (.obj [("identity", .str cn), ("authorizations", strings authorizations),
                ("status", .str "set")])
        | .error e, _ => .noted (some cn) none "error" (.internal e.text) }

def certGrantsRemove (cn : String) : Plan := do
  require session .admin
  behindGate (removal (.removeCertGrants cn) rfl "cert_grants.remove" (fun v => grantsOf v cn)
    "identity" cn "removed" "no grants recorded for that identity")

/-- Of one's own password, in any role. -/
def changePassword : Plan := do
  let change ← readBody (64 * 1024) bodies.passwordChange req
  behindGate {
    call := .changePassword session.username change.1 change.2
    action := "password.change"
    before := fun _ => none
    conclude := fun
      | .ok (), _ =>
          .recorded (some session.username) none 200
            (.obj [("status", .str "password changed"), ("reauthenticate", .bool true)])
      | .error e, _ =>
          .noted (some session.username) none "denied" (.passwordRejected e.text) }

end Handlers

section Routes

/-- The routes behind the guard that change something; the others are nothing here. -/
def adminApp (bodies : Bodies) (session : SessionInfo) (req : Request) (first view : View) :
    Option Plan :=
  match req.path, req.method with
  | ["admin", "retention"], .put => some (retentionSet bodies session req first view)
  | ["admin", "retention", db, table], .delete => some (retentionDelete session db table)
  | ["admin", "last_cache"], .put => some (lastCacheSet bodies session req)
  | ["admin", "last_cache", db, table], .delete => some (lastCacheDelete session db table)
  | ["admin", "tables"], .post => some (tablesCreate bodies session req)
  | ["admin", "tables", db, table], .delete => some (tablesDrop session db table)
  | ["admin", "config", key], .put => some (configSet bodies session req key view)
  | ["admin", "config", key], .delete => some (configDelete session key)
  | ["admin", "rollups"], .put => some (rollupsSet bodies session req)
  | ["admin", "rollups", db, name], .delete => some (rollupsDelete session db name)
  | ["admin", "delete"], .post => some (adminDelete bodies session req)
  | ["admin", "password"], .post => some (changePassword bodies session req)
  | ["admin", "tokens"], .post => some (tokensIssue bodies session req view)
  | ["admin", "tokens", id], .delete => some (tokensRevoke session id)
  | ["admin", "cert-grants", cn], .put => some (certGrantsSet bodies session req cn)
  | ["admin", "cert-grants", cn], .delete => some (certGrantsRemove session cn)
  | _, _ => none

end Routes

end TimeLake.Admin.Plane
