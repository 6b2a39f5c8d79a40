import TimeLake.Cluster.Machine
import TimeLake.Ingest.Node

/-!
The schema registry of an engine over whole histories: writes, flushes,
compactions, restarts with their replay, and the entries other nodes append to
the shared log. The write path is that of `Ingest`; of a data file only the
schema in its footer is kept, and which groups a compaction picks and how much
of the write-ahead log a flush reclaims are left to the run.

Two things are not data of the program: whether a union of schemas has ever
found a conflict, and the columns that have been stored in a buffer so far.
-/

namespace TimeLake.Registry

open TimeLake.Library TimeLake.Catalog TimeLake.Rows TimeLake.Ingest TimeLake.Wal
open TimeLake.Store TimeLake.Cluster

/-- A `write_lp_internal` between its append to the log and its `apply`. -/
structure Waiting where
  db : String
  mult : Int64
  text : String

/-- A `flush_all` behind its handover: the buffers it has yet to encode and the
files it has uploaded. -/
structure Flight where
  todo : List (TableKey × TableBuffer)
  metas : List FileMeta

/-- A node that is down, one whose replay has these frames before it, and one
that serves. -/
inductive Phase where
  | down
  | replaying (todo : List Frame)
  | serving

structure State where
  node : Ingest.Node
  waiting : List Waiting
  source : AssocMap TableKey String
  log : List ManifestEntry
  head : Nat
  footers : AssocMap String Schema
  fileSeq : Nat
  flights : AssocMap Nat Flight
  phase : Phase
  conflict : Bool
  stored : List (TableKey × String × DataType)

/-- A commit that fails may have folded in what it collided with. -/
inductive CommitEnd where
  | landed
  | failed (folded : Bool)
  deriving DecidableEq, Repr

inductive Action where
  | append (c : Ingest.Call)
  | apply (i : Nat) (nowNs : Int)
  | handover (k : Nat) (rotated : Bool)
  | flushOne (k : Nat) (size : Nat → Nat) (puts : Option Nat)
  | commit (k : Nat) (result : CommitEnd)
  | reclaim (frames : Nat)
  | compact (group : GroupKey) (maxTs : Int) (size : Nat) (result : CommitEnd)
  | foreign (e : ManifestEntry) (footers : List (String × Schema))
  | catchUp
  | openEngine
  | replay
  | serve

/-- Before the first boot: a log, the footers of the files in the store, and the
frames of the write-ahead log. -/
def start (declared : AssocMap TableKey TableSchema) (lastValue : LastValueCache)
    (log : List ManifestEntry) (footers : AssocMap String Schema)
    (frames : List Frame) : State where
  node := ⟨∅, ∅, lastValue, declared, frames⟩
  waiting := []
  source := ∅
  log := log
  head := 0
  footers := footers
  fileSeq := 0
  flights := ∅
  phase := .down
  conflict := false
  stored := []

namespace State

/-- The files this node's catalog lists. -/
def files (s : State) : List FileMeta := listed (s.log.take s.head)

def registered (s : State) (key : TableKey) : Option Schema := s.node.schemas.lookup key

/-- The names of the columns the registry has for a table. -/
def columns (s : State) (key : TableKey) : List String :=
  ((s.registered key).getD []).map Prod.fst

/-- `Engine::table_schema`. -/
def tableSchema (s : State) (key : TableKey) : Option Schema :=
  let b := (s.node.buffer key).1
  if 0 < b.rowCount then (schemaUnion (s.registered key) b.schemaOnly).toOption
  else s.registered key

/-- The columns of all buffers. -/
def buffered (n : Ingest.Node) : List (TableKey × String × DataType) :=
  n.buffers.entries.flatMap fun e => e.2.1.schemaOnly.map fun c => (e.1, c)

/-- The node after an `apply`, with what it has found and stored. -/
def applied (s : State) (r : Ingest.Node × Except ApplyError Nat) : State :=
  { s with
    node := r.1
    conflict := s.conflict || (match r.2 with | .error (.union _) => true | _ => false)
    stored := s.stored ++ buffered r.1 }

/-- One table of `refresh_schema_registry`. A footer that cannot be read and a
schema that does not merge are logged. -/
def refreshTable (s : State) (key : TableKey) (path : String) : State :=
  if s.source.lookup key = some path then s
  else match s.footers.lookup path with
    | none => s
    | some schema =>
        match schemaUnion (s.registered key) schema with
        | .ok merged =>
            { s with
              node := { s.node with schemas := s.node.schemas.insert key merged }
              source := s.source.insert key path }
        | .error _ => { s with conflict := true }

/-- `refresh_schema_registry`. -/
def refresh (s : State) : State :=
  (newestFiles s.files).entries.foldl (fun s e => s.refreshTable e.1 e.2) s

/-- The files of a snapshot, numbered on from the last one. -/
def outputs (s : State) (key : TableKey) (b : TableBuffer) (size : Nat → Nat) : List FileMeta :=
  ((prepare b.tagNames b.rows).zipIdx s.fileSeq).map fun p =>
    outputMeta .fresh key p.1.1 p.1.2 (timeBounds p.1.2).2 p.2 (size p.2)

def putAll (footers : AssocMap String Schema) (files : List FileMeta) (schema : Schema) :
    AssocMap String Schema :=
  files.foldl (fun m f => m.insert f.path schema) footers

/-- The inputs of a compaction of one partition, oldest first. -/
def inputs (s : State) (group : GroupKey) : List FileMeta :=
  sortByPath (s.files.filter fun f => groupKey f = group)

/-- The log folded in up to its end. -/
def fold (s : State) (folded : Bool) : State :=
  if folded then { s with head := s.log.length } else s

end State

/-- The schema `align` gives a list of batches. -/
def alignSchema (schemas : List Schema) : Except UnionConflict Schema :=
  schemas.foldlM unionInto []

section Steps

variable (fl : FloatOps)

/-- The check and the append of `write_lp_internal`. -/
def append (s : State) (c : Ingest.Call) : Option State :=
  match s.phase, s.node.check fl c with
  | .serving, .ok (mult, text, _) =>
      some { s with
        node := { s.node with wal := s.node.wal ++ [⟨c.db, mult, c.body⟩] }
        waiting := s.waiting ++ [⟨c.db, mult, text⟩] }
  | _, _ => none

def apply (s : State) (i : Nat) (nowNs : Int) : Option State :=
  match s.waiting[i]? with
  | none => none
  | some w =>
      some { s.applied (s.node.apply fl w.db w.text w.mult nowNs) with
        waiting := s.waiting.eraseIdx i }

/-- The critical section of `flush_all`, which waits for the writes under way. A
rotation that fails drops the buffers it has taken. -/
def handover (s : State) (k : Nat) (rotated : Bool) : Option State :=
  match s.phase, s.waiting, s.flights.lookup k with
  | .serving, [], none =>
      let todo := (s.node.buffers.entries.filter fun e => 0 < e.2.1.rowCount).map fun e =>
        (e.1, e.2.1)
      some { s with
        node := { s.node with buffers := ∅ }
        flights := if rotated then s.flights.insert k ⟨todo, []⟩ else s.flights }
  | _, _, _ => none

/-- `flush_one`: the registry first, then one file for each hour. It may fail
behind any of the puts. -/
def flushOne (s : State) (k : Nat) (size : Nat → Nat) (puts : Option Nat) : Option State :=
  match s.flights.lookup k with
  | some ⟨(key, b) :: todo, metas⟩ =>
      match schemaUnion (s.registered key) b.schemaOnly with
      | .error _ => some { s with conflict := true, flights := s.flights.insert k ⟨todo, metas⟩ }
      | .ok merged =>
          let out := s.outputs key b size
          let done := out.take (puts.getD out.length)
          some { s with
            node := { s.node with schemas := s.node.schemas.insert key merged }
            footers := State.putAll s.footers done b.schemaOnly
            fileSeq := s.fileSeq + out.length
            flights := s.flights.insert k ⟨todo, if puts.isSome then metas else metas ++ out⟩ }
  | _ => none

/-- A commit folds in what other nodes have appended and goes behind it; the
registry is not refreshed. -/
def commit (s : State) (k : Nat) (result : CommitEnd) : Option State :=
  match s.flights.lookup k with
  | some ⟨[], metas⟩ =>
      let flights := s.flights.erase k
      match result with
      | .landed =>
          let entry := CommitArgs.entry ⟨metas, [], [], [], [], false⟩ (s.log.length + 1)
          some { s with log := s.log ++ [entry], head := s.log.length + 1, flights := flights }
      | .failed folded => some { s.fold folded with flights := flights }
  | _ => none

/-- One partition of `compact_once`. The inputs may have been replaced when the
commit comes; the merged file is then not listed. -/
def compact (s : State) (group : GroupKey) (maxTs : Int) (size : Nat) (result : CommitEnd) :
    Option State :=
  match s.phase, s.inputs group, (s.inputs group).mapM fun f => s.footers.lookup f.path with
  | .serving, f0 :: rest, some schemas =>
      match alignSchema schemas with
      | .error _ => some { s with conflict := true }
      | .ok schema =>
          let out := outputMeta .compacted f0.key f0.partition [] maxTs s.fileSeq size
          let removed := (f0 :: rest).map FileMeta.path
          let t := { s with
            footers := s.footers.insert out.path schema
            fileSeq := s.fileSeq + 1 }
          match result with
          | .failed folded => some (t.fold folded)
          | .landed =>
              if firstAbsent (indexOf s.log).files removed = none then
                let entry := CommitArgs.entry ⟨[out], removed, [], [], [], true⟩ (s.log.length + 1)
                some { t with log := s.log ++ [entry], head := s.log.length + 1 }
              else some (t.fold true)
  | _, _, _ => none

/-- Another node puts files and commits them. -/
def foreign (s : State) (e : ManifestEntry) (footers : List (String × Schema)) : State :=
  { s with
    log := s.log ++ [{ e with seq := s.log.length + 1 }]
    footers := footers.foldl (fun m p => m.insert p.1 p.2) s.footers }

/-- `catch_up_catalog`: the registry is refreshed when the head has moved. -/
def catchUp (s : State) : Option State :=
  match s.phase with
  | .serving =>
      if s.head = s.log.length then some s else some { s with head := s.log.length }.refresh
  | _ => none

/-- A crash, if the node is up, and `Engine::open` as far as its first refresh. -/
def openEngine (s : State) : State :=
  { s with
    node := { s.node with buffers := ∅, schemas := ∅ }
    waiting := []
    source := ∅
    head := s.log.length
    fileSeq := 0
    flights := ∅
    phase := .replaying s.node.wal }.refresh

/-- The next frame of the log; one that cannot be applied is logged. -/
def replay (s : State) : Option State :=
  match s.phase with
  | .replaying (f :: todo) =>
      some { s.applied (s.node.apply fl f.db (fromUtf8Lossy f.body) f.mult 0) with
        phase := .replaying todo }
  | _ => none

/-- The refresh that ends the recovery. -/
def serve (s : State) : Option State :=
  match s.phase with
  | .replaying [] => some { s.refresh with phase := .serving }
  | _ => none

def step (s : State) : Action → Option State
  | .append c => append fl s c
  | .apply i nowNs => apply fl s i nowNs
  | .handover k rotated => handover s k rotated
  | .flushOne k size puts => flushOne s k size puts
  | .commit k result => commit s k result
  | .reclaim frames => some { s with node := { s.node with wal := s.node.wal.drop frames } }
  | .compact group maxTs size result => compact s group maxTs size result
  | .foreign e footers => some (foreign s e footers)
  | .catchUp => catchUp s
  | .openEngine => some (openEngine s)
  | .replay => replay fl s
  | .serve => serve s

end Steps

end TimeLake.Registry
