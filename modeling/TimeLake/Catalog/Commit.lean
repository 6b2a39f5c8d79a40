import TimeLake.Catalog.Manifest
import TimeLake.Library.Run
import Mathlib.Data.List.Sort
import Mathlib.Logic.Function.Basic

/-!
Any number of `Catalog` instances over one store. Every call is cut at its
store calls: between two of them the caller holds its own `commit_lock`, so
nothing else touches its replica, while the other instances may take any
number of steps on the shared store. `put_if_absent` and `list` are atomic and
`list` is sorted by key, as the `Store` trait asks.

Beside the program's own data the state records which call wrote which entry
and what every finished call returned.
-/

namespace TimeLake.Catalog

open TimeLake.Library

def maxCommitAttempts : Nat := 100

inductive IoError where
  | notFound
  | invalidData
  | alreadyExists (missing : String)
  | resourceBusy
  | other
  deriving DecidableEq, Repr

/-- The objects under `catalog/manifest`. -/
abbrev ManifestStore := AssocMap String ManifestEntry

/-- `Store::list`: paths in lexicographic order. -/
def ManifestStore.list (store : ManifestStore) : List String :=
  store.keys.insertionSort (· ≤ ·)

/-- `read_entry`: an entry of a newer format is refused. -/
def readEntry (store : ManifestStore) (path : String) : Except IoError ManifestEntry :=
  match store.lookup path with
  | none => .error .notFound
  | some entry =>
      if entry.format > manifestFormatVersion then .error .invalidData else .ok entry

/-- What one `Catalog` holds in memory. -/
structure Replica where
  seq : Nat
  index : Index
  commitConflicts : Nat

def Replica.fresh : Replica := ⟨0, .empty, 0⟩

/-- `Catalog::load`: fold the listing in the order the store gives it. -/
def load (store : ManifestStore) : Except IoError Replica :=
  (ManifestStore.list store).foldlM (fun r path => do
      let entry ← readEntry store path
      pure { r with seq := max r.seq entry.seq, index := applyEntry r.index entry })
    Replica.fresh

/-- The arguments of `commit_guarded`. -/
structure CommitArgs where
  addFiles : List FileMeta
  removePaths : List String
  tombstones : List Tombstone
  schemaDecls : List TableSchema
  dropTables : List DroppedTable
  requireRemovalsPresent : Bool
  deriving DecidableEq, Repr

inductive Call where
  | commit (addFiles : List FileMeta) (removePaths : List String)
  | commitReplace (addFiles : List FileMeta) (removePaths : List String)
  | commitTombstone (tombstone : Tombstone)
  | commitSchema (schema : TableSchema)
  | commitDrop (db table : String)
  | catchUp
  deriving DecidableEq, Repr

def Call.args : Call → Option CommitArgs
  | .commit add remove => some ⟨add, remove, [], [], [], false⟩
  | .commitReplace add remove => some ⟨add, remove, [], [], [], true⟩
  | .commitTombstone t => some ⟨[], [], [t], [], [], false⟩
  | .commitSchema s => some ⟨[], [], [], [s], [], false⟩
  | .commitDrop db table => some ⟨[], [], [], [], [⟨db, table⟩], false⟩
  | .catchUp => none

/-- The entry an attempt at `seq` writes; tombstones are stamped with it. -/
def CommitArgs.entry (args : CommitArgs) (seq : Nat) : ManifestEntry where
  format := manifestFormatVersion
  seq := seq
  addFiles := args.addFiles
  removePaths := args.removePaths
  tombstones := args.tombstones.map fun t => { t with createdSeq := seq }
  schemaDecls := args.schemaDecls
  dropTables := args.dropTables

/-- The path the fence refuses, when the commit asks for the fence. -/
def CommitArgs.missing (args : CommitArgs) (files : FileIndex) : Option String :=
  if args.requireRemovalsPresent then firstAbsent files args.removePaths else none

/-- A commit that lost `attempt` races, resumed after catching up. -/
abbrev Retry := Option (CommitArgs × Nat)

/-- Where a call stands between two store calls. -/
inductive Stage where
  | put (args : CommitArgs) (attempt : Nat)
  | list (retry : Retry)
  | read (todo : List String) (newer : List ManifestEntry) (retry : Retry)

structure Op where
  id : Nat
  call : Call
  stage : Stage

structure Node where
  replica : Replica
  pending : Option Op

structure Returned where
  id : Nat
  call : Call
  result : Except IoError Nat

structure Cluster (ι : Type) where
  store : ManifestStore
  node : ι → Node
  nextId : Nat
  writer : List Nat
  returned : List Returned

inductive Action (ι : Type) where
  | start (i : ι) (call : Call)
  | resume (i : ι)
  | fail (i : ι)

variable {ι : Type} [DecidableEq ι]

def initial : Cluster ι := ⟨∅, fun _ => ⟨.fresh, none⟩, 0, [], []⟩

def Cluster.set (s : Cluster ι) (i : ι) (n : Node) : Cluster ι :=
  { s with node := Function.update s.node i n }

/-- The call returns and releases `commit_lock`. -/
def Cluster.finish (s : Cluster ι) (i : ι) (r : Replica) (op : Op)
    (result : Except IoError Nat) : Cluster ι :=
  { s.set i ⟨r, none⟩ with returned := s.returned ++ [⟨op.id, op.call, result⟩] }

def Call.firstStage (call : Call) : Stage :=
  match call.args with
  | some args => .put args 0
  | none => .list none

/-- The end of `catch_up_locked`: apply what was read, in `seq` order. -/
def Replica.catchUp (r : Replica) (newer : List ManifestEntry) : Replica :=
  let sorted := newer.insertionSort fun a b => a.seq ≤ b.seq
  { r with
    index := sorted.foldl applyEntry r.index
    seq := sorted.foldl (fun head e => max head e.seq) r.seq }

/-- One attempt of `commit_guarded`: the fence on the local replica, then the
conditional put at the next sequence key. -/
def Cluster.attempt (s : Cluster ι) (i : ι) (r : Replica) (op : Op)
    (args : CommitArgs) (lost : Nat) : Cluster ι :=
  match args.missing r.index.files with
  | some path => s.finish i r op (.error (.alreadyExists path))
  | none =>
      let seq := r.seq + 1
      let entry := args.entry seq
      match s.store.lookup (manifestPath seq) with
      | none =>
          { s.finish i { r with seq := seq, index := applyEntry r.index entry } op (.ok seq) with
            store := s.store.insert (manifestPath seq) entry
            writer := s.writer ++ [op.id] }
      | some _ =>
          s.set i ⟨{ r with commitConflicts := r.commitConflicts + 1 },
            some { op with stage := .list (some (args, lost + 1)) }⟩

/-- Everything read: fold it in, then return or go on with the commit. -/
def Cluster.caughtUp (s : Cluster ι) (i : ι) (r : Replica) (op : Op)
    (newer : List ManifestEntry) (retry : Retry) : Cluster ι :=
  let r' := r.catchUp newer
  match retry with
  | none => s.finish i r' op (.ok r'.seq)
  | some (args, lost) =>
      if lost < maxCommitAttempts then
        s.set i ⟨r', some { op with stage := .put args lost }⟩
      else s.finish i r' op (.error .resourceBusy)

def Cluster.readNext (s : Cluster ι) (i : ι) (r : Replica) (op : Op)
    (path : String) (todo : List String) (newer : List ManifestEntry) (retry : Retry) :
    Cluster ι :=
  match readEntry s.store path with
  | .error e => s.finish i r op (.error e)
  | .ok entry =>
      let newer' := if entry.seq > r.seq then newer ++ [entry] else newer
      s.set i ⟨r, some { op with stage := .read todo newer' retry }⟩

def Cluster.advance (s : Cluster ι) (i : ι) (op : Op) : Cluster ι :=
  let r := (s.node i).replica
  match op.stage with
  | .put args lost => s.attempt i r op args lost
  | .list retry =>
      s.set i ⟨r, some { op with stage := .read (ManifestStore.list s.store) [] retry }⟩
  | .read (path :: todo) newer retry => s.readNext i r op path todo newer retry
  | .read [] newer retry => s.caughtUp i r op newer retry

def step (s : Cluster ι) : Action ι → Option (Cluster ι)
  | .start i call =>
      match (s.node i).pending with
      | some _ => none
      | none =>
          some { s.set i ⟨(s.node i).replica, some ⟨s.nextId, call, call.firstStage⟩⟩ with
            nextId := s.nextId + 1 }
  | .resume i => (s.node i).pending.map fun op => s.advance i op
  | .fail i =>
      (s.node i).pending.map fun op => s.finish i (s.node i).replica op (.error .other)

end TimeLake.Catalog
