import TimeLake.Cluster.Machine
import TimeLake.Library.AssocMap

/-!
One engine: its write-ahead log, its buffers, the batches a flush holds in
`flushing`, and any number of `flush_all` calls under way. A write appends a
frame and applies it to the buffers under the ingest gate, and the handover of
a flush runs under the gate and both locks, so each is one step; the upload of
one piece, the commit, the removal from `flushing` and the reclaim are steps of
their own, and every one of them may fail.

The log is taken frame by frame: what a frame's bytes do is the subject of
`Wal.Recovery`. Four things are not data of the program: the number and the
time stamp a frame's rows were given and whether it was acknowledged, the
number of the next row, the acknowledged rows, and whether a flush of this
process has left a table without its file.
-/

namespace TimeLake.Engine

open TimeLake.Library TimeLake.Catalog TimeLake.Rows TimeLake.Store TimeLake.Cluster

/-- A line of line protocol, its time scaled to nanoseconds if it has one. -/
structure Line where
  table : String
  time : Option Int
  tags : TagSet
  fields : List (String × FieldValue)
  deriving DecidableEq

/-- The rows `apply` makes of a body; a line without a time takes the default. -/
def applyLines (db : String) (lines : List Line) (defaultTs : Int) (first : Nat) :
    List (TableKey × Row) :=
  (lines.zipIdx first).map fun p =>
    ((db, p.1.table), ⟨p.1.time.getD defaultTs, p.1.tags, p.1.fields, p.2⟩)

structure Frame where
  db : String
  lines : List Line
  first : Nat
  now : Int
  acked : Bool
  deriving DecidableEq

def Frame.rows (f : Frame) (defaultTs : Int) : List (TableKey × Row) :=
  applyLines f.db f.lines defaultTs f.first

/-- The generation a `Wal` counts and the one whose file it writes to. A rotation
that fails on its way leaves them apart. -/
structure Handle where
  generation : Nat
  file : Nat
  deriving DecidableEq

abbrev Generation := Nat × List Frame

/-- Where a `flush_all` stands after its handover. -/
inductive Flight where
  | uploading (sealedGen : Nat) (failed : Bool) (todo : List FlushTable)
      (current metas : List FileMeta) (done : List FlushTable)
  | committed (sealedGen : Nat) (failed : Bool) (done : List FlushTable)
  | released (sealedGen : Nat) (failed : Bool)

structure State where
  wal : List Generation
  handle : Handle
  dbs : List (TableKey × Row)
  flushing : AssocMap TableKey (List Row)
  flights : AssocMap Nat Flight
  fileSeq : Nat
  objects : AbsPath → Option (List Row)
  log : List ManifestEntry
  arrivals : Nat
  acked : List (TableKey × Row)
  failures : Bool

/-- How `Wal::rotate` ends: with the new file, with the old one not synced, or
with the generation counted and its file not made. -/
inductive Rotation where
  | ok
  | syncFailed
  | createFailed
  deriving DecidableEq, Repr

/-- A commit that returns an error may have landed all the same. -/
inductive CommitResult where
  | ok
  | failed (landed : Bool)
  deriving DecidableEq, Repr

/-- The three places `drop_table` takes a table from, one after the other. -/
inductive DropStage where
  | catalog
  | held
  | buffers
  deriving DecidableEq, Repr

inductive Action where
  | write (db : String) (lines : List Line) (now : Int) (applied : Nat)
  | recover (db : String) (lines : List Line) (applied : Nat)
  | handover (k : Nat) (columns : TableKey → List String) (rotation : Rotation)
      (unreadable : TableKey → Bool)
  | upload (k : Nat) (size : Nat)
  | uploadFail (k : Nat) (bumped : Bool)
  | commit (k : Nat) (result : CommitResult)
  | release (k : Nat)
  | reclaim (k : Nat) (deleted : Nat)
  | drop (key : TableKey) (stage : DropStage)
  | reopen (encrypted : Bool) (applied : Frame → Nat)

def initial : State where
  wal := [(0, [])]
  handle := ⟨0, 0⟩
  dbs := []
  flushing := ∅
  flights := ∅
  fileSeq := 0
  objects := fun _ => none
  log := []
  arrivals := 0
  acked := []
  failures := false

/-- `Wal::append`: to the open file, which a deletion may have unlinked. -/
def appendFrame (wal : List Generation) (file : Nat) (f : Frame) : List Generation :=
  wal.map fun g => if g.1 = file then (g.1, g.2 ++ [f]) else g

/-- The frame becomes durable, then `apply` takes its rows one by one; a row it
refuses turns the answer into an error. -/
def write (s : State) (db : String) (lines : List Line) (now : Int) (applied : Nat) : State :=
  let acked := lines.length ≤ applied
  let rows := applyLines db lines now s.arrivals
  { s with
    wal := appendFrame s.wal s.handle.file ⟨db, lines, s.arrivals, now, acked⟩
    dbs := s.dbs ++ rows.take applied
    arrivals := s.arrivals + lines.length
    acked := if acked then s.acked ++ rows else s.acked }

/-- `recover_from_replica` applies a peer's frame, which is in no log of this
engine. -/
def recover (s : State) (db : String) (lines : List Line) (applied : Nat) : State :=
  let rows := (applyLines db lines 0 s.arrivals).take applied
  { s with
    dbs := s.dbs ++ rows
    arrivals := s.arrivals + lines.length
    acked := s.acked ++ rows }

def heldBatches (tables : List FlushTable) (flushing : AssocMap TableKey (List Row)) :
    AssocMap TableKey (List Row) :=
  tables.foldl (fun m b => m.insert b.key b.rows) flushing

/-- The critical section of `flush_all`. The buffers are taken before the log is
rotated, so a rotation that fails drops what it has taken. -/
def handover (s : State) (k : Nat) (columns : TableKey → List String) (rotation : Rotation)
    (unreadable : TableKey → Bool) : Option State :=
  if (s.flights.lookup k).isNone ∧ s.dbs ≠ [] ∧
      ∀ p ∈ s.dbs, (Clustering.mk none (columns p.1)).covers p.2 then
    match rotation with
    | .syncFailed => some { s with dbs := [], failures := true }
    | .createFailed =>
        some { s with
          dbs := []
          handle := ⟨s.handle.generation + 1, s.handle.file⟩
          failures := true }
    | .ok =>
        let tables := snapshots s.dbs columns
        let held := tables.filter fun b => !unreadable b.key
        let failed := tables.any fun b => unreadable b.key
        let next := s.handle.generation + 1
        some { s with
          wal := s.wal ++ [(next, [])]
          handle := ⟨next, next⟩
          dbs := []
          flushing := heldBatches held s.flushing
          flights := s.flights.insert k (.uploading s.handle.generation failed held [] [] [])
          failures := s.failures || failed }
  else none

/-- One piece of the current table; the last one ends the table. -/
def upload (s : State) (k : Nat) (size : Nat) : Option State :=
  match s.flights.lookup k with
  | some (.uploading gen failed (⟨key, columns, rows, (partition, piece) :: pieces⟩ :: todo)
      current metas done) =>
      let maxTs := (timeBounds piece).2
      let path := (fileTag .fresh key.1 key.2 partition maxTs s.fileSeq).path
      let current' := current ++ [outputMeta .fresh key partition piece maxTs s.fileSeq size]
      let flight := match pieces with
        | [] => Flight.uploading gen failed todo [] (metas ++ current')
            (done ++ [⟨key, columns, rows, []⟩])
        | _ => Flight.uploading gen failed (⟨key, columns, rows, pieces⟩ :: todo) current' metas
            done
      some { s with
        fileSeq := s.fileSeq + 1
        objects := Function.update s.objects path (some piece)
        flights := s.flights.insert k flight }
  | _ => none

/-- A table that fails to encode or to upload stays in `flushing`. -/
def uploadFail (s : State) (k : Nat) (bumped : Bool) : Option State :=
  match s.flights.lookup k with
  | some (.uploading gen _ (_ :: todo) _ metas done) =>
      some { s with
        fileSeq := if bumped then s.fileSeq + 1 else s.fileSeq
        flights := s.flights.insert k (.uploading gen true todo [] metas done)
        failures := true }
  | _ => none

def addEntry (s : State) (metas : List FileMeta) : List ManifestEntry :=
  s.log ++ [CommitArgs.entry ⟨metas, [], [], [], [], false⟩ (s.log.length + 1)]

def commit (s : State) (k : Nat) (result : CommitResult) : Option State :=
  match s.flights.lookup k with
  | some (.uploading gen failed [] _ metas done) =>
      match result with
      | .ok =>
          some { s with
            log := addEntry s metas
            flights := s.flights.insert k (.committed gen failed done) }
      | .failed landed =>
          some { s with
            log := if landed then addEntry s metas else s.log
            flights := s.flights.erase k
            failures := s.failures || !landed }
  | _ => none

/-- The committed tables leave `flushing`. -/
def release (s : State) (k : Nat) : Option State :=
  match s.flights.lookup k with
  | some (.committed gen failed done) =>
      some { s with
        flushing := done.foldl (fun m b => m.erase b.key) s.flushing
        flights := s.flights.insert k (.released gen failed) }
  | _ => none

/-- The numbers `delete_generations_upto` removes, oldest first. -/
def victims (s : State) (upto : Nat) : List Nat :=
  (s.wal.map Prod.fst).filter fun g => g ≤ upto && g ≠ s.handle.generation

/-- The sealed generations go unless a table failed; the deletion may stop
early. -/
def reclaim (s : State) (k : Nat) (deleted : Nat) : Option State :=
  match s.flights.lookup k with
  | some (.released gen failed) =>
      let gone := if failed then [] else (victims s gen).take deleted
      some { s with
        wal := s.wal.filter fun g => !gone.contains g.1
        flights := s.flights.erase k }
  | _ => none

def dropEntry (s : State) (key : TableKey) : List ManifestEntry :=
  s.log ++ [CommitArgs.entry ⟨[], [], [], [], [⟨key.1, key.2⟩], false⟩ (s.log.length + 1)]

/-- What `drop_table` does behind its flush. -/
def dropTable (s : State) (key : TableKey) (stage : DropStage) : State :=
  let acked := s.acked.filter fun p => p.1 ≠ key
  match stage with
  | .catalog => { s with log := dropEntry s key, acked := acked }
  | .held => { s with flushing := s.flushing.erase key, acked := acked }
  | .buffers => { s with dbs := s.dbs.filter fun p => p.1 ≠ key, acked := acked }

/-- `Wal::open`: a plaintext log goes on in its last generation, an encrypted one
in a new one. -/
def openWal (wal : List Generation) (encrypted : Bool) : List Generation × Nat :=
  match wal.getLast? with
  | none => ([(0, [])], 0)
  | some last =>
      if encrypted then (wal ++ [(last.1 + 1, [])], last.1 + 1) else (wal, last.1)

/-- The rows a replay applies, a frame it cannot apply whole being cut short. -/
def replay (wal : List Generation) (applied : Frame → Nat) : List (TableKey × Row) :=
  (wal.flatMap Prod.snd).flatMap fun f => (f.rows 0).take (applied f)

/-- A crash and `Engine::open`. -/
def reopen (s : State) (encrypted : Bool) (applied : Frame → Nat) : State :=
  let (wal, file) := openWal s.wal encrypted
  { s with
    wal := wal
    handle := ⟨file, file⟩
    dbs := replay s.wal applied
    flushing := ∅
    flights := ∅
    fileSeq := 0
    failures := false }

def step (s : State) : Action → Option State
  | .write db lines now applied => some (write s db lines now applied)
  | .recover db lines applied => some (recover s db lines applied)
  | .handover k columns rotation unreadable => handover s k columns rotation unreadable
  | .upload k size => upload s k size
  | .uploadFail k bumped => uploadFail s k bumped
  | .commit k result => commit s k result
  | .release k => release s k
  | .reclaim k deleted => reclaim s k deleted
  | .drop key stage => some (dropTable s key stage)
  | .reopen encrypted applied => some (reopen s encrypted applied)

end TimeLake.Engine
