import TimeLake.Admin.Definitions

/-!
The layered configuration of `crates/config` and the `EngineConfig` that the
server materialises from it: a setting is its override, else its system
property, else its default. The scope, role and moment of application of a
setting are shown by the console and decide nothing here.
-/

namespace TimeLake.Admin

open TimeLake.Cluster
open TimeLake.Ingest
open TimeLake.Library

inductive Kind where
  | uint (min max : Nat)
  | optUint (min max : Nat)
  | enum (allowed : List String)
  deriving DecidableEq, Repr

inductive ValueError where
  | notInteger (value : String)
  | outOfRange (n min max : Nat)
  | notOneOf (value : String) (allowed : List String)
  deriving DecidableEq, Repr

def checkUint (min max : Nat) (value : String) : Except ValueError Unit :=
  match parseU64 value.toList with
  | none => .error (.notInteger value)
  | some n => if n < min ∨ max < n then .error (.outOfRange n min max) else .ok ()

def Kind.check : Kind → String → Except ValueError Unit
  | .uint min max, value => checkUint min max value
  | .optUint min max, value =>
      if value = "" ∨ value = "off" then .ok () else checkUint min max value
  | .enum allowed, value =>
      if allowed.contains value then .ok () else .error (.notOneOf value allowed)

def Kind.allowsExplicitNone : Kind → Bool
  | .optUint _ _ => true
  | _ => false

structure Spec where
  key : String
  kind : Kind
  default : String
  deriving DecidableEq, Repr

def u64Max : Nat := 2 ^ 64 - 1

def inventory : List Spec :=
  [⟨"flush_rows", .uint 1000 10000000, "50000"⟩,
   ⟨"flush_age_secs", .uint 1 3600, "60"⟩,
   ⟨"wal_max_bytes", .uint (2 ^ 20) u64Max, "2147483648"⟩,
   ⟨"compact_min_files", .uint 2 64, "4"⟩,
   ⟨"l0_row_group_rows", .optUint 1024 10000000, ""⟩,
   ⟨"max_concurrent_queries", .uint 1 64, "6"⟩,
   ⟨"max_concurrent_queries_per_client", .uint 0 64, "4"⟩,
   ⟨"query_timeout_secs", .uint 1 86400, "600"⟩,
   ⟨"max_result_rows", .uint 1 1000000000, "1000000"⟩,
   ⟨"gc_grace_secs", .uint 1 86400, "900"⟩,
   ⟨"query_mem_bytes", .uint (2 ^ 20) u64Max, "1073741824"⟩,
   ⟨"repl_timeout_ms", .uint 1 60000, "250"⟩,
   ⟨"max_body_bytes", .uint (2 ^ 20) u64Max, "33554432"⟩,
   ⟨"internal_max_concurrent", .uint 1 256, "8"⟩,
   ⟨"data_auth", .enum ["off", "optional", "required"], "optional"⟩]

def spec (key : String) : Option Spec := inventory.find? fun s => s.key = key

/-- A `value` of `none` is the explicit none, not an absent override. -/
structure StoredOverride where
  value : Option String
  revision : Nat
  actor : String
  writtenAt : String
  propertyAtWrite : Option String
  deriving DecidableEq, Repr

structure SettingsDoc where
  revision : Nat
  settings : List (String × StoredOverride)
  deriving DecidableEq, Repr

def SettingsDoc.empty : SettingsDoc := ⟨0, []⟩

inductive ConfigError where
  | unknown (key : String)
  | pinned (key : String)
  | invalid (key : String) (reason : ValueError)
  | nullNotAllowed (key : String)
  | crossField (gcGraceSecs queryTimeoutSecs : Nat)
  deriving DecidableEq, Repr

structure Layered where
  property : List (String × String)
  overrides : List (String × StoredOverride)
  pinned : List String
  revision : Nat
  deriving DecidableEq, Repr

namespace Layered

def load (property : List (String × String)) (pinned : List String) (doc : SettingsDoc) : Layered :=
  ⟨property, doc.settings, pinned, doc.revision⟩

def toDoc (l : Layered) : SettingsDoc := ⟨l.revision, l.overrides⟩

/-- The value in force; `none` only for an unknown key. -/
def effective (l : Layered) (key : String) : Option String := do
  let s ← spec key
  match l.overrides.lookup key with
  | some o => return o.value.getD ""
  | none => return (l.property.lookup key).getD s.default

/-- `parse().unwrap_or(d)` of the value in force. -/
def number (l : Layered) (key : String) (d : Nat) : Nat :=
  (parseU64 ((l.effective key).getD "").toList).getD d

/-- The grace of the garbage collector must exceed the query timeout. -/
def validateCrossField (l : Layered) : Except ConfigError Unit :=
  let gc := l.number "gc_grace_secs" 0
  let qt := l.number "query_timeout_secs" 0
  if gc ≤ qt then .error (.crossField gc qt) else .ok ()

def checkValue (s : Spec) (key : String) : Option String → Except ConfigError Unit
  | none => if s.kind.allowsExplicitNone then .ok () else .error (.nullNotAllowed key)
  | some v => (s.kind.check v).mapError (.invalid key)

/-- Validated as a whole, on a copy, before any of it is kept. -/
def set (l : Layered) (key : String) (value : Option String) (actor writtenAt : String) :
    Except ConfigError Layered := do
  let s ← (spec key).elim (.error (.unknown key)) .ok
  if l.pinned.contains key then throw (.pinned key)
  checkValue s key value
  let probe : Layered :=
    { l with
      overrides := insertPair key
        ⟨value, l.revision + 1, actor, writtenAt, l.property.lookup key⟩ l.overrides
      revision := l.revision + 1 }
  probe.validateCrossField
  return probe

/-- Whether an override was there, and what is left. The configuration that a
revert leaves is not validated. -/
def revert (l : Layered) (key : String) : Except ConfigError (Bool × Layered) :=
  if (spec key).isNone then .error (.unknown key)
  else if l.pinned.contains key then .error (.pinned key)
  else if (l.overrides.lookup key).isSome then
    .ok (true, { l with
      overrides := l.overrides.filter fun p => p.1 != key
      revision := l.revision + 1 })
  else .ok (false, l)

theorem load_toDoc (l : Layered) : load l.property l.pinned l.toDoc = l := rfl

end Layered

inductive DataAuthMode where
  | off | optional | required
  deriving DecidableEq, Repr

def parseDataAuth (s : String) : DataAuthMode :=
  if s = "optional" then .optional else if s = "required" then .required else .off

def dataAuthStr : DataAuthMode → String
  | .off => "off"
  | .optional => "optional"
  | .required => "required"

structure EngineConfig where
  flushRows : Nat
  flushAgeSecs : Nat
  walMaxBytes : Nat
  compactMinFiles : Nat
  l0RowGroupRows : Option Nat
  retention : List RetentionPolicy
  maxConcurrentQueries : Nat
  maxConcurrentQueriesPerClient : Nat
  queryTimeoutSecs : Nat
  maxResultRows : Nat
  gcGraceSecs : Nat
  queryMemBytes : Nat
  dataAuth : DataAuthMode
  replTimeoutMs : Nat
  maxBodyBytes : Nat
  internalMaxConcurrent : Nat
  deriving DecidableEq, Repr

/-- `EngineConfig::default`. -/
def EngineConfig.default : EngineConfig where
  flushRows := 50000
  flushAgeSecs := 60
  walMaxBytes := 2 ^ 31
  compactMinFiles := 4
  l0RowGroupRows := none
  retention := []
  maxConcurrentQueries := 6
  maxConcurrentQueriesPerClient := 4
  queryTimeoutSecs := 600
  maxResultRows := 1000000
  gcGraceSecs := 900
  queryMemBytes := 2 ^ 30
  dataAuth := .optional
  replTimeoutMs := 250
  maxBodyBytes := 2 ^ 25
  internalMaxConcurrent := 8

/-- The property layer: what the process was started with, as text. -/
def configProperty (c : EngineConfig) : List (String × String) :=
  collect
    [("flush_rows", toString c.flushRows),
     ("flush_age_secs", toString c.flushAgeSecs),
     ("wal_max_bytes", toString c.walMaxBytes),
     ("compact_min_files", toString c.compactMinFiles),
     ("l0_row_group_rows", (c.l0RowGroupRows.map toString).getD ""),
     ("max_concurrent_queries", toString c.maxConcurrentQueries),
     ("max_concurrent_queries_per_client", toString c.maxConcurrentQueriesPerClient),
     ("query_timeout_secs", toString c.queryTimeoutSecs),
     ("max_result_rows", toString c.maxResultRows),
     ("gc_grace_secs", toString c.gcGraceSecs),
     ("query_mem_bytes", toString c.queryMemBytes),
     ("repl_timeout_ms", toString c.replTimeoutMs),
     ("max_body_bytes", toString c.maxBodyBytes),
     ("internal_max_concurrent", toString c.internalMaxConcurrent),
     ("data_auth", dataAuthStr c.dataAuth)]

def materialize (l : Layered) (retention : List RetentionPolicy) : EngineConfig :=
  let d := EngineConfig.default
  let l0 := (l.effective "l0_row_group_rows").getD ""
  { flushRows := l.number "flush_rows" d.flushRows
    flushAgeSecs := l.number "flush_age_secs" d.flushAgeSecs
    walMaxBytes := l.number "wal_max_bytes" d.walMaxBytes
    compactMinFiles := l.number "compact_min_files" d.compactMinFiles
    l0RowGroupRows := if l0 = "" ∨ l0 = "off" then none else parseU64 l0.toList
    retention := retention
    maxConcurrentQueries := l.number "max_concurrent_queries" d.maxConcurrentQueries
    maxConcurrentQueriesPerClient :=
      l.number "max_concurrent_queries_per_client" d.maxConcurrentQueriesPerClient
    queryTimeoutSecs := l.number "query_timeout_secs" d.queryTimeoutSecs
    maxResultRows := l.number "max_result_rows" d.maxResultRows
    gcGraceSecs := l.number "gc_grace_secs" d.gcGraceSecs
    queryMemBytes := l.number "query_mem_bytes" d.queryMemBytes
    dataAuth := parseDataAuth ((l.effective "data_auth").getD "")
    replTimeoutMs := l.number "repl_timeout_ms" d.replTimeoutMs
    maxBodyBytes := l.number "max_body_bytes" d.maxBodyBytes
    internalMaxConcurrent := l.number "internal_max_concurrent" d.internalMaxConcurrent }

/-- The compiled-in configuration is the one the inventory's defaults give. -/
theorem materialize_defaults : materialize (.load [] [] .empty) [] = .default := by
  decide +kernel

end TimeLake.Admin
