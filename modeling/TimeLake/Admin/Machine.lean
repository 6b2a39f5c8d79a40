import TimeLake.Admin.Config
import TimeLake.Library.Run
import Mathlib.Data.Finset.Basic
import Mathlib.Data.Finset.Prod

/-!
Nodes over one object store, with the admin state each keeps in memory: the
eight calls that change it, `reload_rollups`, and what `open_with_stack` loads
at a start. Each call changes its part of the memory under the lock and then
puts the whole document; the put can fail, with or without the document having
reached the store. Rows of the last-value cache are not here, only which tables
it is on for.
-/

namespace TimeLake.Admin

open TimeLake.Catalog
open TimeLake.Cluster
open TimeLake.Library

/-- `retention.json`; the first format had no database. -/
inductive RetentionDoc where
  | policies (policies : List RetentionPolicy)
  | legacy (tables : List (String × Nat))
  deriving DecidableEq, Repr

def RetentionDoc.load : RetentionDoc → List RetentionPolicy
  | .policies l => l
  | .legacy tables => tables.map fun p => ⟨retentionAnyDb, p.1, p.2⟩

/-- The documents of `catalog/config/`. -/
structure Documents where
  retention : Option RetentionDoc
  rollups : Option (List RollupDef)
  lastCache : Option (Finset TableKey)
  settings : Option SettingsDoc
  deriving DecidableEq

/-- What a process is started with. -/
structure Env where
  cfg : EngineConfig
  pinned : List String
  rollups : List RollupDef

structure Memory where
  policies : List RetentionPolicy
  rollups : List RollupDef
  lastCache : Finset TableKey
  layered : Layered
  cfg : EngineConfig
  deriving DecidableEq

/-- `open_with_stack`: the stored document, else the seed. -/
def boot (env : Env) (docs : Documents) : Memory :=
  let policies := (docs.retention.map RetentionDoc.load).getD env.cfg.retention
  let layered := Layered.load (configProperty env.cfg) env.pinned (docs.settings.getD .empty)
  { policies := policies
    rollups := docs.rollups.getD env.rollups
    lastCache := docs.lastCache.getD ∅
    layered := layered
    cfg := materialize layered policies }

inductive Call where
  | setRetention (db table : String) (seconds : Nat)
  | removeRetention (db table : String)
  | setRollup (d : RollupDef)
  | removeRollup (db name : String)
  | enableLastCache (db table : String)
  | disableLastCache (db table : String)
  | setConfig (key : String) (value : Option String) (actor writtenAt : String)
  | revertConfig (key : String)

inductive CallError where
  | rollup (e : RollupError)
  | config (e : ConfigError)
  | store
  deriving DecidableEq, Repr

/-- Of a put: the document is there, or the call saw an error and the document
is there or not. -/
inductive Put where
  | stored
  | failed (landed : Bool)
  deriving DecidableEq, Repr

def Put.result : Put → Except CallError Unit
  | .stored => .ok ()
  | .failed _ => .error .store

/-- The document at the path after a put. -/
def Put.doc {α : Type} (put : Put) (old : Option α) (new : α) : Option α :=
  match put with
  | .stored | .failed true => some new
  | .failed false => old

/-- Memory, documents and what the caller is told. -/
abbrev Outcome := Memory × Documents × Except CallError Unit

section Calls

variable (m : Memory) (docs : Documents) (put : Put)

def persistRetention (policies : List RetentionPolicy) : Outcome :=
  ({ m with policies := policies },
    { docs with retention := put.doc docs.retention (.policies policies) }, put.result)

def setRetention (db table : String) (seconds : Nat) : Outcome :=
  persistRetention m docs put (putPolicy ⟨db, table, seconds⟩ m.policies)

def removeRetention (db table : String) : Outcome :=
  persistRetention m docs put (dropPolicy db table m.policies)

def persistRollups (rollups : List RollupDef) : Outcome :=
  ({ m with rollups := rollups },
    { docs with rollups := put.doc docs.rollups rollups }, put.result)

def setRollup (d : RollupDef) : Outcome :=
  match checkRollup m.policies d with
  | .error e => (m, docs, .error (.rollup e))
  | .ok () => persistRollups m docs put (putRollup d m.rollups)

def removeRollup (db name : String) : Outcome :=
  persistRollups m docs put (dropRollup db name m.rollups)

def persistLastCache (tables : Finset TableKey) : Outcome :=
  ({ m with lastCache := tables },
    { docs with lastCache := put.doc docs.lastCache tables }, put.result)

def enableLastCache (db table : String) : Outcome :=
  persistLastCache m docs put (insert (db, table) m.lastCache)

def disableLastCache (db table : String) : Outcome :=
  persistLastCache m docs put (m.lastCache.erase (db, table))

/-- The layers are changed before the put, the effective configuration after
it. -/
def persistConfig (layered : Layered) : Outcome :=
  let docs' := { docs with settings := put.doc docs.settings layered.toDoc }
  match put.result with
  | .error e => ({ m with layered := layered }, docs', .error e)
  | .ok () => ({ m with layered := layered, cfg := materialize layered m.policies }, docs', .ok ())

def setConfig (key : String) (value : Option String) (actor writtenAt : String) : Outcome :=
  match m.layered.set key value actor writtenAt with
  | .error e => (m, docs, .error (.config e))
  | .ok layered => persistConfig m docs put layered

def revertConfig (key : String) : Outcome :=
  match m.layered.revert key with
  | .error e => (m, docs, .error (.config e))
  | .ok (false, _) => (m, docs, .ok ())
  | .ok (true, layered) => persistConfig m docs put layered

def perform : Call → Outcome
  | .setRetention db table seconds => setRetention m docs put db table seconds
  | .removeRetention db table => removeRetention m docs put db table
  | .setRollup d => setRollup m docs put d
  | .removeRollup db name => removeRollup m docs put db name
  | .enableLastCache db table => enableLastCache m docs put db table
  | .disableLastCache db table => disableLastCache m docs put db table
  | .setConfig key value actor writtenAt => setConfig m docs put key value actor writtenAt
  | .revertConfig key => revertConfig m docs put key

end Calls

/-- A missing document keeps the definitions that are loaded. -/
def reloadRollups (m : Memory) (docs : Documents) : Memory :=
  { m with rollups := docs.rollups.getD m.rollups }

variable {ι : Type} [DecidableEq ι]

/-- A node that is not running has no memory. -/
structure State (ι : Type) where
  docs : Documents
  nodes : ι → Option Memory

inductive Action (ι : Type) where
  | call (i : ι) (c : Call) (put : Put)
  | reload (i : ι)
  | boot (i : ι)

def State.setNode (s : State ι) (i : ι) (m : Memory) : State ι :=
  { s with nodes := Function.update s.nodes i (some m) }

def step (env : ι → Env) (s : State ι) : Action ι → Option (State ι)
  | .call i c put =>
      (s.nodes i).map fun m =>
        let (m', docs', _) := perform m s.docs put c
        { docs := docs', nodes := Function.update s.nodes i (some m') }
  | .reload i => (s.nodes i).map fun m => s.setNode i (reloadRollups m s.docs)
  | .boot i => some (s.setNode i (Admin.boot (env i) s.docs))

/-- No node running yet, over whatever documents there are. -/
def start (docs : Documents) : State ι := ⟨docs, fun _ => none⟩

end TimeLake.Admin
