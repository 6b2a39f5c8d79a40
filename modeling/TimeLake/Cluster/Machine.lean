import TimeLake.Catalog.Fence
import TimeLake.Rows.Flush
import TimeLake.Store.Paths
import TimeLake.Library.Run
import TimeLake.Library.Int64

/-!
Any number of nodes over one object store and one manifest log, each running
any number of maintenance calls at a time: `flush_all`, `compact_once`,
`apply_tombstones_once`, `enforce_retention`, `drop_table` and `run_gc`. Every
call is cut at its store and catalog calls. A commit is one step at the end of
the log and a node's catalog is a prefix of the log: that is what the
instances of `Catalog.Commit` come to, by `Catalog.step_effect`.

A node's working set other than the write-ahead log is here; what a restart
replays from that log is an argument of the restart. Four fields are not data
of the program: `written` numbers the rows the clients wrote, `flushed` lists
the rows of committed flushes, `puts` lists the tags of all objects written so
far and `content` remembers what was last written at a path.
-/

namespace TimeLake.Cluster

open TimeLake.Library TimeLake.Catalog TimeLake.Rows TimeLake.Store

/-- A table on its way through a flush: the batch with the tag columns of its
schema, and the pieces of it still to be written. -/
structure FlushTable where
  key : TableKey
  columns : List String
  rows : List Row
  pieces : List (String × List Row)

/-- Where a maintenance call stands between two store or catalog calls. -/
inductive Task where
  | flush (todo : List FlushTable) (current metas : List FileMeta)
      (rows : List (TableKey × Row))
  | compactNext (groups : List (List FileMeta))
  | compactRead (groups : List (List FileMeta)) (files rest : List FileMeta)
      (sets : List (List Row))
  | compactCommit (groups : List (List FileMeta)) (files : List FileMeta) (output : FileMeta)
  | rewriteNext (tombstones : List Tombstone) (todo : List FileMeta) (rewritten : Nat)
  | rewriteDrop (tombstones : List Tombstone) (todo : List FileMeta) (rewritten : Nat)
      (input : FileMeta)
  | rewritePut (tombstones : List Tombstone) (todo : List FileMeta) (rewritten : Nat)
      (input : FileMeta) (kept : List Row)
  | rewriteCommit (tombstones : List Tombstone) (todo : List FileMeta) (rewritten : Nat)
      (input output : FileMeta)
  | retention (remove : List String)
  | drop (db table : String) (paths : List String)
  | gc (due : List String)

structure Node where
  head : Nat
  fileSeq : Nat
  pendingGc : List String
  buffer : List (TableKey × Row)

structure State (ι : Type) where
  objects : AbsPath → Option (List Row)
  log : List ManifestEntry
  node : ι → Node
  task : ι → Nat → Option Task
  written : List (TableKey × Row)
  flushed : List (TableKey × Row)
  puts : List FileTag
  content : AbsPath → List Row

abbrev GroupKey := String × String × String

def groupKey (f : FileMeta) : GroupKey := (f.db, f.table, f.partition)

inductive Trigger where
  | fileCount
  | overlap
  deriving DecidableEq, Repr

/-- The scan of `has_overlap` over ranges sorted by start. -/
def overlapScan (furthestEnd : Int) : List (Int × Int) → Bool
  | [] => false
  | (start, stop) :: rest =>
      if start < furthestEnd then true else overlapScan (max furthestEnd stop) rest

def hasOverlap (files : List FileMeta) : Bool :=
  match (files.map fun f => (f.minTsNs, f.maxTsNs)).insertionSort
      (fun a b => a.1 < b.1 ∨ (a.1 = b.1 ∧ a.2 ≤ b.2)) with
  | [] => false
  | first :: rest => overlapScan first.2 rest

def triggerFor (files : List FileMeta) (minFiles : Nat) : Option Trigger :=
  if max minFiles 2 ≤ files.length then some .fileCount
  else if hasOverlap files then some .overlap
  else none

def maxGroupsPerTick : Nat := 8

def maxFilesPerTick : Nat := 16

/-- `files.sort_by(|a, b| a.path.cmp(&b.path))`. -/
def sortByPath (files : List FileMeta) : List FileMeta :=
  files.insertionSort fun a b => a.path ≤ b.path

def tombstoneOverlapsFile (t : Tombstone) (f : FileMeta) : Bool :=
  (t.minTsNs.getD (-2 ^ 63)) ≤ f.maxTsNs && f.minTsNs ≤ (t.maxTsNs.getD (2 ^ 63 - 1))

/-- A string column of a row, be it a tag or a field. -/
def textCell (r : Row) (name : String) : Option String :=
  match r.tags.get name with
  | some value => some value
  | none =>
      match r.fields.lookup name with
      | some (.str value) => some value
      | _ => none

/-- All tag equalities of the tombstone and its time range. -/
def matchesTombstone (t : Tombstone) (r : Row) : Bool :=
  (t.tagEquals.all fun p => textCell r p.1 == some p.2) &&
    (t.minTsNs.all fun lo => lo ≤ r.time) && (t.maxTsNs.all fun hi => r.time ≤ hi)

/-- `apply_restriction` of the tombstones that could touch the file. -/
def applyTombstones (deletes : List Tombstone) (rows : List Row) : List Row :=
  rows.filter fun r => !deletes.any fun t => matchesTombstone t r

structure RetentionPolicy where
  db : String
  table : String
  seconds : Nat
  deriving DecidableEq, Repr

def retentionAnyDb : String := "*"

def RetentionPolicy.covers (p : RetentionPolicy) (db table : String) : Bool :=
  p.table = table && (p.db = retentionAnyDb || p.db = db)

/-- The policy of a file, the exact database before a wildcard. -/
def policyFor (policies : List RetentionPolicy) (f : FileMeta) : Option RetentionPolicy :=
  (policies.find? fun p => p.db = f.db && p.table = f.table).or
    (policies.find? fun p => p.covers f.db f.table)

/-- `now - (seconds as i64) * 1_000_000_000`, which wraps. -/
def retentionCutoff (now : Int) (seconds : Nat) : Int :=
  wrap64 (now - wrap64 (wrap64 seconds * 1000000000))

/-- Whether the partition of a file lies wholly before its cutoff hour. -/
def expired (policies : List RetentionPolicy) (now : Int) (f : FileMeta) : Bool :=
  (policyFor policies f).any fun p => f.partition < hourPartition (retentionCutoff now p.seconds)

inductive Action (ι : Type) where
  | write (i : ι) (key : TableKey) (time : Int) (tags : TagSet)
      (fields : List (String × FieldValue))
  | catchUp (i : ι)
  | tombstone (i : ι) (t : Tombstone)
  | flushStart (i : ι) (k : Nat) (columns : TableKey → List String)
  | flushPut (i : ι) (k : Nat) (size : Nat)
  | flushFail (i : ι) (k : Nat) (bumped : Bool)
  | flushCommit (i : ι) (k : Nat)
  | compactStart (i : ι) (k : Nat) (minFiles : Nat) (keys : List GroupKey)
  | compactNext (i : ι) (k : Nat)
  | compactRead (i : ι) (k : Nat)
  | compactPut (i : ι) (k : Nat) (clustering : Clustering) (size : Nat)
  | compactCommit (i : ι) (k : Nat) (seen : Nat)
  | rewriteStart (i : ι) (k : Nat)
  | rewriteRead (i : ι) (k : Nat)
  | rewritePut (i : ι) (k : Nat) (clustering : Clustering) (size : Nat)
  | rewriteCommit (i : ι) (k : Nat)
  | retentionStart (i : ι) (k : Nat) (policies : List RetentionPolicy) (now : Int)
  | retentionCommit (i : ι) (k : Nat)
  | dropStart (i : ι) (k : Nat) (db table : String)
  | dropCommit (i : ι) (k : Nat)
  | gcStart (i : ι) (k : Nat) (ready : String → Bool)
  | gcDelete (i : ι) (k : Nat)
  | abandon (i : ι) (k : Nat) (bumped : Bool)
  | restart (i : ι) (replayed : List (TableKey × Row))

variable {ι : Type} [DecidableEq ι]

def initial : State ι where
  objects := fun _ => none
  log := []
  node := fun _ => ⟨0, 0, [], []⟩
  task := fun _ _ => none
  written := []
  flushed := []
  puts := []
  content := fun _ => []

namespace State

def setNode (s : State ι) (i : ι) (n : Node) : State ι :=
  { s with node := Function.update s.node i n }

def setTask (s : State ι) (i : ι) (k : Nat) (t : Option Task) : State ι :=
  { s with task := Function.update s.task i (Function.update (s.task i) k t) }

/-- The files a node's own catalog lists. -/
def snapshot (s : State ι) (i : ι) : List FileMeta :=
  listed (s.log.take (s.node i).head)

/-- Write an object and count the file. -/
def put (s : State ι) (i : ι) (tag : FileTag) (rows : List Row) : State ι :=
  { s.setNode i { s.node i with fileSeq := (s.node i).fileSeq + 1 } with
    objects := Function.update s.objects tag.path (some rows)
    puts := tag :: s.puts
    content := Function.update s.content tag.path rows }

/-- Append an entry; the node that appended it has seen the whole log. -/
def commit (s : State ι) (i : ι) (args : CommitArgs) : State ι :=
  { s.setNode i { s.node i with head := s.log.length + 1 } with
    log := s.log ++ [args.entry (s.log.length + 1)] }

def deferGc (s : State ι) (i : ι) (paths : List String) : State ι :=
  s.setNode i { s.node i with pendingGc := (s.node i).pendingGc ++ paths }

end State

/-- The catalog record of an output file. -/
def outputMeta (kind : FileKind) (key : TableKey) (partition : String) (rows : List Row)
    (maxTs : Int) (seq size : Nat) : FileMeta where
  db := key.1
  table := key.2
  partition := partition
  path := dataPath kind key.1 key.2 partition maxTs seq
  rows := rows.length
  sizeBytes := size
  minTsNs := (timeBounds rows).1
  maxTsNs := maxTs

/-- The tables of a buffer in the order they were first written. -/
def bufferedTables (buffer : List (TableKey × Row)) : List TableKey :=
  (buffer.map Prod.fst).dedup

def tableRows (buffer : List (TableKey × Row)) (key : TableKey) : List Row :=
  (buffer.filter fun p => p.1 = key).map Prod.snd

/-- The swapped-out buffers, each table prepared for its files. -/
def snapshots (buffer : List (TableKey × Row)) (columns : TableKey → List String) :
    List FlushTable :=
  (bufferedTables buffer).map fun key =>
    ⟨key, columns key, tableRows buffer key, prepare (columns key) (tableRows buffer key)⟩

/-- The handover. With nothing buffered there is no flush; `columns` are the tag
columns of each table, and its rows have no others. -/
def flushStart (s : State ι) (i : ι) (k : Nat) (columns : TableKey → List String) :
    Option (State ι) :=
  let n := s.node i
  if (s.task i k).isNone ∧ n.buffer ≠ [] ∧
      ∀ p ∈ n.buffer, (Clustering.mk none (columns p.1)).covers p.2 then
    some ((s.setNode i { n with buffer := [] }).setTask i k
      (some (.flush (snapshots n.buffer columns) [] [] [])))
  else none

/-- One piece of the current table goes to the store; the last piece of a table
makes its files part of the commit. -/
def flushPut (s : State ι) (i : ι) (k : Nat) (size : Nat) : Option (State ι) :=
  match s.task i k with
  | some (.flush (⟨key, columns, rows, (partition, piece) :: pieces⟩ :: todo) current metas done) =>
      let maxTs := (timeBounds piece).2
      let seq := (s.node i).fileSeq
      let tag := fileTag .fresh key.1 key.2 partition maxTs seq
      let current' := current ++ [outputMeta .fresh key partition piece maxTs seq size]
      let task := match pieces with
        | [] => Task.flush todo [] (metas ++ current') (done ++ rows.map fun r => (key, r))
        | _ => Task.flush (⟨key, columns, rows, pieces⟩ :: todo) current' metas done
      some ((s.put i tag piece).setTask i k (some task))
  | _ => none

/-- A failed store call may come after the file was counted. -/
def countFile (s : State ι) (i : ι) (bumped : Bool) : State ι :=
  let n := s.node i
  s.setNode i { n with fileSeq := if bumped then n.fileSeq + 1 else n.fileSeq }

/-- A table that fails to encode or upload is left out of the commit. -/
def flushFail (s : State ι) (i : ι) (k : Nat) (bumped : Bool) : Option (State ι) :=
  match s.task i k with
  | some (.flush (_ :: todo) _ metas done) =>
      some ((countFile s i bumped).setTask i k (some (.flush todo [] metas done)))
  | _ => none

def flushCommit (s : State ι) (i : ι) (k : Nat) : Option (State ι) :=
  match s.task i k with
  | some (.flush [] _ metas done) =>
      some { (s.commit i ⟨metas, [], [], [], [], false⟩).setTask i k none with
        flushed := s.flushed ++ done }
  | _ => none

/-- Any triggered partitions of the node's catalog, at most eight of them; which
ones is up to their order and to the node's share of the work. -/
def compactStart (s : State ι) (i : ι) (k : Nat) (minFiles : Nat) (keys : List GroupKey) :
    Option (State ι) :=
  let group (key : GroupKey) := (s.snapshot i).filter fun f => groupKey f = key
  if (s.task i k).isNone ∧ keys.Nodup ∧ keys.length ≤ maxGroupsPerTick ∧
      ∀ key ∈ keys, triggerFor (group key) minFiles ≠ none then
    some (s.setTask i k (some (.compactNext (keys.map group))))
  else none

def compactNext (s : State ι) (i : ι) (k : Nat) : Option (State ι) :=
  match s.task i k with
  | some (.compactNext (files :: groups)) =>
      some (s.setTask i k (some (.compactRead groups (sortByPath files) (sortByPath files) [])))
  | some (.compactNext []) => some (s.setTask i k none)
  | _ => none

/-- A missing object ends the whole pass with an error. -/
def compactRead (s : State ι) (i : ι) (k : Nat) : Option (State ι) :=
  match s.task i k with
  | some (.compactRead groups files (f :: rest) sets) =>
      match s.objects (abs f.path) with
      | some rows => some (s.setTask i k (some (.compactRead groups files rest (sets ++ [rows]))))
      | none => some (s.setTask i k none)
  | _ => none

def compactPut (s : State ι) (i : ι) (k : Nat) (c : Clustering) (size : Nat) :
    Option (State ι) :=
  match s.task i k with
  | some (.compactRead groups (f₀ :: files) [] sets) =>
      if sets.flatten.all c.covers then
        match mergeFiles c sets with
        | .error _ => some (s.setTask i k none)
        | .ok merged =>
            let seq := (s.node i).fileSeq
            let tag := fileTag .compacted f₀.db f₀.table f₀.partition merged.maxTs seq
            let output := outputMeta .compacted f₀.key f₀.partition merged.rows merged.maxTs
              seq size
            some ((s.put i tag merged.rows).setTask i k
              (some (.compactCommit groups (f₀ :: files) output)))
      else none
  | _ => none

/-- `commit_replace` against the part of the log the last attempt has seen: a
removal missing there makes the merge stale, and otherwise the attempt wins
only at the end of the log. -/
def compactCommit (s : State ι) (i : ι) (k : Nat) (seen : Nat) : Option (State ι) :=
  match s.task i k with
  | some (.compactCommit groups files output) =>
      let remove := files.map FileMeta.path
      let args : CommitArgs := ⟨[output], remove, [], [], [], true⟩
      if (s.node i).head ≤ seen ∧ seen ≤ s.log.length then
        match args.missing (indexOf (s.log.take seen)).files with
        | some _ =>
            let caughtUp := s.setNode i { s.node i with head := seen }
            some ((caughtUp.deferGc i [output.path]).setTask i k (some (.compactNext groups)))
        | none =>
            if seen = s.log.length then
              some (((s.commit i args).deferGc i remove).setTask i k
                (some (.compactNext groups)))
            else none
      else none
  | _ => none

def rewriteStart (s : State ι) (i : ι) (k : Nat) : Option (State ι) :=
  let index := indexOf (s.log.take (s.node i).head)
  match s.task i k, index.tombstones with
  | none, t :: ts => some (s.setTask i k (some (.rewriteNext (t :: ts) (s.snapshot i) 0)))
  | _, _ => none

/-- Read the next file and see what its tombstones leave of it. -/
def rewriteRead (s : State ι) (i : ι) (k : Nat) : Option (State ι) :=
  match s.task i k with
  | some (.rewriteNext tombstones (f :: todo) rewritten) =>
      if maxFilesPerTick ≤ rewritten then some (s.setTask i k none)
      else
        let deletes := tombstones.filter fun t =>
          t.db = f.db && t.table = f.table && tombstoneOverlapsFile t f
        let skip := some (s.setTask i k (some (.rewriteNext tombstones todo rewritten)))
        if deletes = [] then skip
        else match s.objects (abs f.path) with
          | none => some (s.setTask i k none)
          | some rows =>
              let kept := applyTombstones deletes rows
              if kept.length = rows.length then skip
              else if kept = [] then
                some (s.setTask i k (some (.rewriteDrop tombstones todo rewritten f)))
              else some (s.setTask i k (some (.rewritePut tombstones todo rewritten f kept)))
  | some (.rewriteNext _ [] _) => some (s.setTask i k none)
  | _ => none

def rewritePut (s : State ι) (i : ι) (k : Nat) (c : Clustering) (size : Nat) :
    Option (State ι) :=
  match s.task i k with
  | some (.rewritePut tombstones todo rewritten f kept) =>
      if kept.all c.covers then
        match mergeFiles c [kept] with
        | .error _ => some (s.setTask i k none)
        | .ok merged =>
            let seq := (s.node i).fileSeq
            let tag := fileTag .rewritten f.db f.table f.partition merged.maxTs seq
            let output := outputMeta .rewritten f.key f.partition merged.rows merged.maxTs
              seq size
            some ((s.put i tag merged.rows).setTask i k
              (some (.rewriteCommit tombstones todo rewritten f output)))
      else none
  | _ => none

/-- The swap is a plain `commit`: nothing asks whether the input is still
listed. -/
def rewriteCommit (s : State ι) (i : ι) (k : Nat) : Option (State ι) :=
  match s.task i k with
  | some (.rewriteDrop tombstones todo rewritten f) =>
      some (((s.commit i ⟨[], [f.path], [], [], [], false⟩).deferGc i [f.path]).setTask i k
        (some (.rewriteNext tombstones todo (rewritten + 1))))
  | some (.rewriteCommit tombstones todo rewritten f output) =>
      some (((s.commit i ⟨[output], [f.path], [], [], [], false⟩).deferGc i [f.path]).setTask i k
        (some (.rewriteNext tombstones todo (rewritten + 1))))
  | _ => none

def retentionStart (s : State ι) (i : ι) (k : Nat) (policies : List RetentionPolicy)
    (now : Int) : Option (State ι) :=
  match s.task i k, ((s.snapshot i).filter (expired policies now)).map FileMeta.path with
  | none, p :: ps => some (s.setTask i k (some (.retention (p :: ps))))
  | _, _ => none

def retentionCommit (s : State ι) (i : ι) (k : Nat) : Option (State ι) :=
  match s.task i k with
  | some (.retention remove) =>
      some (((s.commit i ⟨[], remove, [], [], [], false⟩).deferGc i remove).setTask i k none)
  | _ => none

/-- `drop_table` behind its flush: the paths to reclaim, then the commit. -/
def dropStart (s : State ι) (i : ι) (k : Nat) (db table : String) : Option (State ι) :=
  match s.task i k with
  | none =>
      let files := (indexOf (s.log.take (s.node i).head)).files.filesFor (db, table)
      some (s.setTask i k (some (.drop db table (files.map FileMeta.path))))
  | some _ => none

def dropCommit (s : State ι) (i : ι) (k : Nat) : Option (State ι) :=
  match s.task i k with
  | some (.drop db table paths) =>
      let dropped := (s.commit i ⟨[], [], [], [], [⟨db, table⟩], false⟩).deferGc i paths
      let n := dropped.node i
      some ((dropped.setNode i
        { n with buffer := n.buffer.filter fun p => p.1 ≠ (db, table) }).setTask i k none)
  | _ => none

/-- Take what is past its grace period out of the queue. -/
def gcStart (s : State ι) (i : ι) (k : Nat) (ready : String → Bool) : Option (State ι) :=
  match s.task i k with
  | none =>
      let n := s.node i
      let kept := n.pendingGc.filter fun p => !ready p
      some ((s.setNode i { n with pendingGc := kept }).setTask i k
        (some (.gc (n.pendingGc.filter ready))))
  | some _ => none

def gcDelete (s : State ι) (i : ι) (k : Nat) : Option (State ι) :=
  match s.task i k with
  | some (.gc (p :: due)) =>
      some ({ s with objects := Function.update s.objects (abs p) none }.setTask i k
        (some (.gc due)))
  | some (.gc []) => some (s.setTask i k none)
  | _ => none

/-- A call that ends early with an error. -/
def abandon (s : State ι) (i : ι) (k : Nat) (bumped : Bool) : Option (State ι) :=
  match s.task i k with
  | some _ => some ((countFile s i bumped).setTask i k none)
  | none => none

/-- A boot: counters, queues and calls are gone, the catalog is loaded and rows
of the write-ahead log come back in write order. -/
def restart (s : State ι) (i : ι) (replayed : List (TableKey × Row)) : Option (State ι) :=
  if (replayed.map fun p => p.2.arrival).Pairwise (· < ·) ∧ ∀ p ∈ replayed, p ∈ s.written then
    some { s.setNode i ⟨s.log.length, 0, [], replayed⟩ with
      task := Function.update s.task i fun _ => none }
  else none

def step (s : State ι) : Action ι → Option (State ι)
  | .write i key time tags fields =>
      let entry := (key, Row.mk time tags fields s.written.length)
      let n := s.node i
      some { s.setNode i { n with buffer := n.buffer ++ [entry] } with
        written := s.written ++ [entry] }
  | .catchUp i => some (s.setNode i { s.node i with head := s.log.length })
  | .tombstone i t => some (s.commit i ⟨[], [], [t], [], [], false⟩)
  | .flushStart i k columns => flushStart s i k columns
  | .flushPut i k size => flushPut s i k size
  | .flushFail i k bumped => flushFail s i k bumped
  | .flushCommit i k => flushCommit s i k
  | .compactStart i k minFiles keys => compactStart s i k minFiles keys
  | .compactNext i k => compactNext s i k
  | .compactRead i k => compactRead s i k
  | .compactPut i k c size => compactPut s i k c size
  | .compactCommit i k seen => compactCommit s i k seen
  | .rewriteStart i k => rewriteStart s i k
  | .rewriteRead i k => rewriteRead s i k
  | .rewritePut i k c size => rewritePut s i k c size
  | .rewriteCommit i k => rewriteCommit s i k
  | .retentionStart i k policies now => retentionStart s i k policies now
  | .retentionCommit i k => retentionCommit s i k
  | .dropStart i k db table => dropStart s i k db table
  | .dropCommit i k => dropCommit s i k
  | .gcStart i k ready => gcStart s i k ready
  | .gcDelete i k => gcDelete s i k
  | .abandon i k bumped => abandon s i k bumped
  | .restart i replayed => restart s i replayed

end TimeLake.Cluster
