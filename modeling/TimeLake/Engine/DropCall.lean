import TimeLake.Engine.Flights
import TimeLake.Ingest.LastValue

/-!
`drop_table` among everything else an engine does: writes and flushes as in
`Engine.Machine`, compactions, tombstone rewrites, retention, the last-value
cache, and any number of drops under way. A drop first flushes; a flush that
finds nothing buffered returns at once. Then it commits the drop and clears the
holding area, the buffers and the cache, one after the other.

A compaction commits only while all its inputs are listed, so it is one step
here. A tombstone pass works through the files it found at its start and
commits each rewrite unconditionally. The check that the table exists only
refuses; any table may be dropped here. `gone` is not data of the program: it
lists the tables whose drop has returned.
-/

namespace TimeLake.Engine.Drop

open TimeLake.Library TimeLake.Catalog TimeLake.Rows TimeLake.Store TimeLake.Cluster
open TimeLake.Ingest (LastValueCache keyPrefix seriesKey sortTags)

/-- Where a `drop_table` stands. -/
inductive Stage where
  | begun
  | waiting (flight : Nat)
  | flushed
  | committed
  | released
  | purged
  deriving DecidableEq, Repr

structure State where
  engine : Engine.State
  cache : LastValueCache
  cacheDoc : List TableKey
  rewrites : AssocMap Nat (List FileMeta)
  drops : AssocMap Nat (TableKey × Stage)
  gone : List TableKey

inductive Action where
  | engine (a : Engine.Action)
  | enable (key : TableKey) (stored : Bool)
  | disable (key : TableKey) (stored : Bool)
  | compact (key : TableKey) (inputs : List FileMeta) (output : FileMeta)
  | expire (paths : List String)
  | tombstone (t : Tombstone)
  | rewriteStart (k : Nat)
  | rewriteSkip (k : Nat)
  | rewriteCommit (k : Nat) (output : Option FileMeta)
  | dropStart (d : Nat) (key : TableKey)
  | dropIdle (d : Nat)
  | dropFlush (d k : Nat) (columns : TableKey → List String) (rotation : Rotation)
      (unreadable : TableKey → Bool)
  | dropReclaim (d : Nat) (deleted : Nat)
  | dropCommit (d : Nat) (result : CommitResult)
  | dropHeld (d : Nat)
  | dropBuffers (d : Nat)
  | dropCache (d : Nat) (stored : Bool)
  | dropFail (d : Nat)

def observeRow (c : LastValueCache) (p : TableKey × Row) : LastValueCache :=
  c.observe p.1.1 p.1.2 p.2.tags.pairs p.2.time p.2.fields

/-- `enabled_tables`, a name split at its first zero character. -/
def enabledTables (c : LastValueCache) : List TableKey :=
  c.enabled.filterMap fun name =>
    match name.toList.span (· ≠ '\x00') with
    | (db, _ :: table) => some (String.ofList db, String.ofList table)
    | (_, []) => none

def emptyCache (cap : Nat) (tables : List TableKey) : LastValueCache :=
  tables.foldl (fun c key => c.enable key.1 key.2) (.new cap)

def initial (cap : Nat) : State := ⟨Engine.initial, .new cap, [], ∅, ∅, []⟩

namespace State

def setDrop (s : State) (d : Nat) (key : TableKey) (stage : Stage) : State :=
  { s with drops := s.drops.insert d (key, stage) }

def endDrop (s : State) (d : Nat) : State := { s with drops := s.drops.erase d }

def commitEntry (s : State) (args : CommitArgs) : State :=
  { s with engine := { s.engine with
      log := s.engine.log ++ [args.entry (s.engine.log.length + 1)] } }

/-- The document of the opt-ins, if its put succeeds. -/
def setCache (s : State) (c : LastValueCache) (stored : Bool) : State :=
  { s with cache := c, cacheDoc := if stored then enabledTables c else s.cacheDoc }

end State

/-- The rows that a frame applied whole shows to the cache. -/
def observed (db : String) (lines : List Line) (defaultTs : Int) (first applied : Nat) :
    List (TableKey × Row) :=
  if lines.length ≤ applied then applyLines db lines defaultTs first else []

def replayed (wal : List Generation) (applied : Frame → Nat) : List (TableKey × Row) :=
  (wal.flatMap Prod.snd).flatMap fun f => observed f.db f.lines 0 f.first (applied f)

/-- What an action of the engine does to the cache: a restart begins with the
stored opt-ins. -/
def cacheAfter (s : State) : Engine.Action → LastValueCache
  | .write db lines now applied =>
      (observed db lines now s.engine.arrivals applied).foldl observeRow s.cache
  | .recover db lines applied =>
      (observed db lines 0 s.engine.arrivals applied).foldl observeRow s.cache
  | .reopen _ applied =>
      (replayed s.engine.wal applied).foldl observeRow (emptyCache s.cache.cap s.cacheDoc)
  | _ => s.cache

def engineStep (s : State) (a : Engine.Action) : Option State :=
  match a with
  | .drop _ _ => none
  | .reopen _ _ =>
      (Engine.step s.engine a).map fun e =>
        { s with engine := e, cache := cacheAfter s a, rewrites := ∅, drops := ∅ }
  | _ => (Engine.step s.engine a).map fun e => { s with engine := e, cache := cacheAfter s a }

/-- `commit_replace`: every input is still listed. -/
def compact (s : State) (key : TableKey) (inputs : List FileMeta) (output : FileMeta) :
    Option State :=
  if inputs ≠ [] ∧ (∀ f ∈ inputs, f ∈ listed s.engine.log ∧ f.key = key) ∧ output.key = key then
    some (s.commitEntry ⟨[output], inputs.map FileMeta.path, [], [], [], true⟩)
  else none

def rewriteStart (s : State) (k : Nat) : Option State :=
  match s.rewrites.lookup k with
  | none => some { s with rewrites := s.rewrites.insert k (listed s.engine.log) }
  | some _ => none

def rewriteSkip (s : State) (k : Nat) : Option State :=
  match s.rewrites.lookup k with
  | some (_ :: rest) => some { s with rewrites := s.rewrites.insert k rest }
  | _ => none

/-- The file goes; what is left of its rows, if any, comes in a new one. -/
def rewriteCommit (s : State) (k : Nat) (output : Option FileMeta) : Option State :=
  match s.rewrites.lookup k with
  | some (f :: rest) =>
      if ∀ o ∈ output, o.key = f.key then
        some { s.commitEntry ⟨output.toList, [f.path], [], [], [], false⟩ with
          rewrites := s.rewrites.insert k rest }
      else none
  | _ => none

def dropStart (s : State) (d : Nat) (key : TableKey) : Option State :=
  match s.drops.lookup d with
  | none => some (s.setDrop d key .begun)
  | some _ => none

/-- A flush with nothing to do, whatever the log still holds. -/
def dropIdle (s : State) (d : Nat) : Option State :=
  match s.drops.lookup d with
  | some (key, .begun) => if s.engine.dbs = [] then some (s.setDrop d key .flushed) else none
  | _ => none

def dropFlush (s : State) (d k : Nat) (columns : TableKey → List String) (rotation : Rotation)
    (unreadable : TableKey → Bool) : Option State :=
  match s.drops.lookup d with
  | some (key, .begun) =>
      (handover s.engine k columns rotation unreadable).map fun e =>
        match rotation with
        | .ok => { s with engine := e }.setDrop d key (.waiting k)
        | _ => { s with engine := e }.endDrop d
  | _ => none

/-- The end of the drop's own flush: an error unless no table failed and every
sealed generation was deleted. -/
def dropReclaim (s : State) (d deleted : Nat) : Option State :=
  match s.drops.lookup d with
  | some (key, .waiting k) =>
      match s.engine.flights.lookup k with
      | some (.released gen failed) =>
          (reclaim s.engine k deleted).map fun e =>
            if failed = false ∧ (victims s.engine gen).length ≤ deleted then
              { s with engine := e }.setDrop d key .flushed
            else { s with engine := e }.endDrop d
      | _ => none
  | _ => none

def dropCommit (s : State) (d : Nat) (result : CommitResult) : Option State :=
  match s.drops.lookup d with
  | some (key, .flushed) =>
      match result with
      | .ok => some ({ s with engine := dropTable s.engine key .catalog }.setDrop d key .committed)
      | .failed true => some ({ s with engine := dropTable s.engine key .catalog }.endDrop d)
      | .failed false => some (s.endDrop d)
  | _ => none

def dropHeld (s : State) (d : Nat) : Option State :=
  match s.drops.lookup d with
  | some (key, .committed) =>
      some ({ s with engine := dropTable s.engine key .held }.setDrop d key .released)
  | _ => none

def dropBuffers (s : State) (d : Nat) : Option State :=
  match s.drops.lookup d with
  | some (key, .released) =>
      some ({ s with engine := dropTable s.engine key .buffers }.setDrop d key .purged)
  | _ => none

/-- The last of it: the opt-in goes if it is listed, and the call returns. -/
def dropCache (s : State) (d : Nat) (stored : Bool) : Option State :=
  match s.drops.lookup d with
  | some (key, .purged) =>
      let s' := if (enabledTables s.cache).contains key then
        s.setCache (s.cache.disable key.1 key.2) stored else s
      some { s'.endDrop d with gone := key :: s.gone }
  | _ => none

def step (s : State) : Action → Option State
  | .engine a => engineStep s a
  | .enable key stored => some (s.setCache (s.cache.enable key.1 key.2) stored)
  | .disable key stored => some (s.setCache (s.cache.disable key.1 key.2) stored)
  | .compact key inputs output => compact s key inputs output
  | .expire paths => some (s.commitEntry ⟨[], paths, [], [], [], false⟩)
  | .tombstone t => some (s.commitEntry ⟨[], [], [t], [], [], false⟩)
  | .rewriteStart k => rewriteStart s k
  | .rewriteSkip k => rewriteSkip s k
  | .rewriteCommit k output => rewriteCommit s k output
  | .dropStart d key => dropStart s d key
  | .dropIdle d => dropIdle s d
  | .dropFlush d k columns rotation unreadable => dropFlush s d k columns rotation unreadable
  | .dropReclaim d deleted => dropReclaim s d deleted
  | .dropCommit d result => dropCommit s d result
  | .dropHeld d => dropHeld s d
  | .dropBuffers d => dropBuffers s d
  | .dropCache d stored => dropCache s d stored
  | .dropFail d => some (s.endDrop d)

end TimeLake.Engine.Drop
