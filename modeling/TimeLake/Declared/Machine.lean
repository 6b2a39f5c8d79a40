import TimeLake.Catalog.Commit
import TimeLake.Ingest.Node
import Mathlib.Data.Fintype.Defs

/-!
Explicit declarations on any number of nodes over one manifest log. A
`create_table`, a `write_lp_internal`, a `drop_table` and a `flush_all` are each
cut wherever another call can come between: at every read of the catalog or of
the buffers, at the log, at the commit. A node sees the manifest log as far as
it has folded it.

An attempt of `commit_guarded` wins exactly when the node has folded the whole
log, and a lost one catches up; a commit that gives up is one of the calls that
end with an error. The number of a write and the acknowledged lines are not data
of the program.
-/

namespace TimeLake.Declared

open TimeLake.Library
open TimeLake.Catalog (TableKey TableSchema FileMeta ManifestEntry CommitArgs Replica applyEntry
  indexOf)
open TimeLake.Ingest (ParsedLine DeclaredError validateDeclared)

structure Row where
  write : Nat
  line : ParsedLine
  deriving DecidableEq

/-- Where a write stands. The ingest gate is held from the log on. -/
inductive WriteStage where
  | checking (todo : List ParsedLine)
  | logged
  | applied
  deriving DecidableEq

/-- `declared` is what the check has looked up so far, once for each table of
the body. -/
structure Write where
  db : String
  lines : List ParsedLine
  declared : AssocMap String (Option TableSchema)
  stage : WriteStage

/-- What `create_table` looks at next. -/
inductive CreateStage where
  | buffers
  | files
  | commit
  deriving DecidableEq, Repr

inductive FlushStage where
  | handover
  | uploading (failed : Bool) (todo : List (TableKey × List Row)) (metas : List FileMeta)
      (done : List TableKey)
  | release (failed : Bool) (done : List TableKey)

/-- What `drop_table` does behind its flush. -/
inductive DropStage where
  | commit
  | flushing
  | buffers
  deriving DecidableEq, Repr

/-- A flush that is the first part of a drop knows the table. -/
inductive Call where
  | write (w : Write)
  | create (schema : TableSchema) (stage : CreateStage)
  | flush (dropping : Option TableKey) (stage : FlushStage)
  | drop (key : TableKey) (stage : DropStage)

structure Node where
  catalog : Replica
  dbs : AssocMap TableKey (List Row)
  flushing : AssocMap TableKey (List Row)

/-- An acknowledged line, and how long the manifest log was by then. -/
structure Acked where
  write : Nat
  key : TableKey
  line : ParsedLine
  commits : Nat
  deriving DecidableEq

structure State (ι : Type) where
  log : List ManifestEntry
  objects : String → List Row
  node : ι → Node
  calls : AssocMap Nat (ι × Call)
  started : Nat
  acked : List Acked

def initial {ι : Type} : State ι where
  log := []
  objects := fun _ => []
  node := fun _ => ⟨.fresh, ∅, ∅⟩
  calls := ∅
  started := 0
  acked := []

section Functions

inductive CreateError where
  | databaseRequired
  | tableRequired
  | alreadyDeclared (table db : String)
  | alreadyExists (table db : String)
  | columnRequired
  | timeColumn
  | declaredTwice (column : String)
  deriving DecidableEq, Repr

def schemaKey (schema : TableSchema) : TableKey := (schema.db, schema.table)

/-- The names, and the declarations this node knows. -/
def checkDeclaration (catalog : Replica) (schema : TableSchema) : Except CreateError Unit :=
  if schema.db = "" then .error .databaseRequired
  else if schema.table = "" then .error .tableRequired
  else if (catalog.index.declared.lookup (schemaKey schema)).isSome then
    .error (.alreadyDeclared schema.table schema.db)
  else .ok ()

def checkColumns (seen : List String) : List String → Except CreateError Unit
  | [] => .ok ()
  | name :: rest =>
      if name = "" then .error .columnRequired
      else if name = "time" then .error .timeColumn
      else if seen.contains name then .error (.declaredTwice name)
      else checkColumns (name :: seen) rest

/-- The tables `table_names` has from the catalog. -/
def catalogNames (catalog : Replica) (key : TableKey) : Bool :=
  (catalog.index.files.map.lookup key).isSome || (catalog.index.declared.lookup key).isSome

/-- What a write has looked up for the table, or else what this node knows. -/
def knownFor (catalog : Replica) (declared : AssocMap String (Option TableSchema))
    (db table : String) : Option TableSchema :=
  match declared.lookup table with
  | some known => known
  | none => catalog.index.declared.lookup (db, table)

/-- `validate_declared` against what was looked up, if anything. -/
def validate (declared : Option TableSchema) (line : ParsedLine) : Except DeclaredError Unit :=
  match declared with
  | none => .ok ()
  | some schema => validateDeclared line.table line.tags line.fields schema

/-- The rows of one line more. -/
def addLine (db : String) (write : Nat) (dbs : AssocMap TableKey (List Row)) (line : ParsedLine) :
    AssocMap TableKey (List Row) :=
  dbs.insert (db, line.table) ((dbs.lookup (db, line.table)).getD [] ++ [⟨write, line⟩])

/-- The table of a line that is refused has got its buffer all the same. -/
def addTable (db : String) (dbs : AssocMap TableKey (List Row)) (line : Option ParsedLine) :
    AssocMap TableKey (List Row) :=
  match line with
  | none => dbs
  | some line => dbs.insert (db, line.table) ((dbs.lookup (db, line.table)).getD [])

/-- The buffers `flush_all` takes; each leaves an empty one behind. -/
def owned (dbs : AssocMap TableKey (List Row)) : List (TableKey × List Row) :=
  (dbs.entries.map fun e => (e.1, e.2)).filter fun b => !b.2.isEmpty

def hold (flushing : AssocMap TableKey (List Row)) (held : List (TableKey × List Row)) :
    AssocMap TableKey (List Row) :=
  held.foldl (fun m b => m.insert b.1 b.2) flushing

def putAll (objects : String → List Row) (pieces : List (FileMeta × List Row)) :
    String → List Row :=
  pieces.foldl (fun objects p => Function.update objects p.1.path p.2) objects

/-- What a call is about to commit. -/
def Call.commits : Call → Option CommitArgs
  | .create schema .commit => (Catalog.Call.commitSchema schema).args
  | .flush _ (.uploading _ [] metas _) => (Catalog.Call.commit metas []).args
  | .drop key .commit => (Catalog.Call.commitDrop key.1 key.2).args
  | _ => none

/-- The call behind its commit, unless the commit was its last step. -/
def Call.committed : Call → Option Call
  | .flush dropping (.uploading failed _ _ done) => some (.flush dropping (.release failed done))
  | .drop key _ => some (.drop key .flushing)
  | _ => none

/-- A flush has returned, without an error unless a table failed. -/
def flushed (dropping : Option TableKey) (failed : Bool) : Option Call :=
  if failed then none else dropping.map fun key => .drop key .commit

/-- The call holds the ingest gate as a writer does. -/
def Call.inGate : Call → Bool
  | .write ⟨_, _, _, .logged⟩ => true
  | .write ⟨_, _, _, .applied⟩ => true
  | _ => false

end Functions

section Steps

variable {ι : Type} [DecidableEq ι]

def State.set (s : State ι) (i : ι) (node : Node) : State ι :=
  { s with node := Function.update s.node i node }

/-- The call goes on as `c`, or has returned. -/
def State.next (s : State ι) (k : Nat) (i : ι) (c : Option Call) : State ι :=
  { s with
    calls := match c with
      | some c => s.calls.insert k (i, c)
      | none => s.calls.erase k }

def State.start (s : State ι) (i : ι) (c : Call) : State ι :=
  { s.next s.started i (some c) with started := s.started + 1 }

/-- A line is checked against the declaration of its table, which is looked up
for the first line of the table. -/
def check (s : State ι) (k : Nat) : Option (State ι) :=
  match s.calls.lookup k with
  | some (i, .write ⟨db, lines, declared, .checking (line :: todo)⟩) =>
      let known := knownFor (s.node i).catalog declared db line.table
      match validate known line with
      | .ok () =>
          some (s.next k i (some (.write
            ⟨db, lines, declared.insert line.table known, .checking todo⟩)))
      | .error _ => some (s.next k i none)
  | _ => none

def append (s : State ι) (k : Nat) : Option (State ι) :=
  match s.calls.lookup k with
  | some (i, .write ⟨db, lines, declared, .checking []⟩) =>
      some (s.next k i (some (.write ⟨db, lines, declared, .logged⟩)))
  | _ => none

/-- `apply` takes some of the lines. The registry may refuse the columns of all
of them. -/
def apply (s : State ι) (k applied : Nat) (registered : Bool) : Option (State ι) :=
  match s.calls.lookup k with
  | some (i, .write ⟨db, lines, declared, .logged⟩) =>
      let node := s.node i
      let rows := (lines.take applied).foldl (addLine db k) node.dbs
      let s := s.set i { node with dbs := addTable db rows (lines[applied]?) }
      some (s.next k i
        (if lines.length ≤ applied ∧ registered then
          some (.write ⟨db, lines, declared, .applied⟩) else none))
  | _ => none

/-- The write returns its number of lines. -/
def ack (s : State ι) (k : Nat) : Option (State ι) :=
  match s.calls.lookup k with
  | some (i, .write ⟨db, lines, _, .applied⟩) =>
      some { s.next k i none with
        acked := s.acked ++ lines.map fun l => ⟨k, (db, l.table), l, s.log.length⟩ }
  | _ => none

def create (s : State ι) (i : ι) (schema : TableSchema) : Option (State ι) :=
  match checkDeclaration (s.node i).catalog schema with
  | .ok () => some (s.start i (.create schema .buffers))
  | .error _ => some s

/-- `table_names`, its buffers. -/
def lookBuffers (s : State ι) (k : Nat) : Option (State ι) :=
  match s.calls.lookup k with
  | some (i, .create schema .buffers) =>
      if ((s.node i).dbs.lookup (schemaKey schema)).isSome then some (s.next k i none)
      else some (s.next k i (some (.create schema .files)))
  | _ => none

/-- `table_names`, its catalog and on a querier the tables that were `live` on
the ingesters when it last asked; then the columns. -/
def lookFiles (s : State ι) (k : Nat) (live : List TableKey) : Option (State ι) :=
  match s.calls.lookup k with
  | some (i, .create schema .files) =>
      if catalogNames (s.node i).catalog (schemaKey schema) || live.contains (schemaKey schema) then
        some (s.next k i none)
      else match checkColumns [] (schema.columns.map Catalog.TableColumn.name) with
        | .ok () => some (s.next k i (some (.create schema .commit)))
        | .error _ => some (s.next k i none)
  | _ => none

def drop (s : State ι) (i : ι) (key : TableKey) : Option (State ι) :=
  let node := s.node i
  if (node.dbs.lookup key).isSome || catalogNames node.catalog key then
    some (s.start i (.flush (some key) .handover))
  else some s

/-- The critical section of `flush_all`. Buffers that were taken are gone if the
log does not rotate, and a table whose batch cannot be built is not held. -/
def handover (s : State ι) (k : Nat) (rotated : Bool) (unreadable : TableKey → Bool) :
    Option (State ι) :=
  match s.calls.lookup k with
  | some (i, .flush dropping .handover) =>
      if (s.calls.values.any fun c => c.1 = i && c.2.inGate) then none
      else
        let node := s.node i
        let taken := owned node.dbs
        if taken.isEmpty then some (s.next k i (flushed dropping false))
        else
          let dbs := AssocMap.mapVal (fun _ => []) node.dbs
          if rotated then
            let held := taken.filter fun b => !unreadable b.1
            let failed := taken.any fun b => unreadable b.1
            some ((s.set i ⟨node.catalog, dbs, hold node.flushing held⟩).next k i
              (some (.flush dropping (.uploading failed held [] []))))
          else some ((s.set i { node with dbs := dbs }).next k i none)
  | _ => none

/-- `flush_one`: the rows of a table in pieces, each in a file of its own. -/
def upload (s : State ι) (k : Nat) (pieces : List (FileMeta × List Row)) : Option (State ι) :=
  match s.calls.lookup k with
  | some (i, .flush dropping (.uploading failed ((key, rows) :: todo) metas done)) =>
      if ∀ p ∈ pieces, p.1.key = key ∧ p.2.all rows.contains then
        some { s.next k i (some (.flush dropping (.uploading failed todo
            (metas ++ pieces.map Prod.fst) (done ++ [key])))) with
          objects := putAll s.objects pieces }
      else none
  | _ => none

def uploadFail (s : State ι) (k : Nat) : Option (State ι) :=
  match s.calls.lookup k with
  | some (i, .flush dropping (.uploading _ (_ :: todo) metas done)) =>
      some (s.next k i (some (.flush dropping (.uploading true todo metas done))))
  | _ => none

/-- `catch_up`: everything behind the head is folded in. -/
def folded (log : List ManifestEntry) (r : Replica) : Replica :=
  { r with seq := log.length, index := (log.drop r.seq).foldl applyEntry r.index }

/-- One attempt of `commit_guarded`. -/
def commit (s : State ι) (k : Nat) : Option (State ι) :=
  match s.calls.lookup k with
  | some (i, c) =>
      match c.commits with
      | none => none
      | some args =>
          let node := s.node i
          let r := node.catalog
          if r.seq = s.log.length then
            let e := args.entry (r.seq + 1)
            let r := { r with seq := r.seq + 1, index := applyEntry r.index e }
            some { (s.set i { node with catalog := r }).next k i c.committed with
              log := s.log ++ [e] }
          else
            let r := folded s.log { r with commitConflicts := r.commitConflicts + 1 }
            some (s.set i { node with catalog := r })
  | none => none

/-- A put that returns an error after the object has landed. -/
def commitLost (s : State ι) (k : Nat) : Option (State ι) :=
  match s.calls.lookup k with
  | some (i, c) =>
      match c.commits with
      | none => none
      | some args =>
          let r := (s.node i).catalog
          if r.seq = s.log.length then
            some { s.next k i none with log := s.log ++ [args.entry (r.seq + 1)] }
          else none
  | none => none

/-- The committed tables leave `flushing`. -/
def release (s : State ι) (k : Nat) : Option (State ι) :=
  match s.calls.lookup k with
  | some (i, .flush dropping (.release failed done)) =>
      let node := s.node i
      some ((s.set i { node with
        flushing := done.foldl (fun m key => m.erase key) node.flushing }).next k i
          (flushed dropping failed))
  | _ => none

/-- What a drop takes from the memory of its node. -/
def purge (s : State ι) (k : Nat) : Option (State ι) :=
  match s.calls.lookup k with
  | some (i, .drop key .flushing) =>
      let node := s.node i
      some ((s.set i { node with flushing := node.flushing.erase key }).next k i
        (some (.drop key .buffers)))
  | some (i, .drop key .buffers) =>
      let node := s.node i
      some ((s.set i { node with dbs := node.dbs.erase key }).next k i none)
  | _ => none

def catchUp (s : State ι) (i : ι) : State ι :=
  let node := s.node i
  s.set i { node with catalog := folded s.log node.catalog }

/-- A call that ends with an error where it stands. -/
def fail (s : State ι) (k : Nat) : Option (State ι) :=
  (s.calls.lookup k).map fun c => s.next k c.1 none

inductive Action (ι : Type) where
  | write (i : ι) (db : String) (lines : List ParsedLine)
  | check (k : Nat)
  | append (k : Nat)
  | apply (k applied : Nat) (registered : Bool)
  | ack (k : Nat)
  | create (i : ι) (schema : TableSchema)
  | lookBuffers (k : Nat)
  | lookFiles (k : Nat) (live : List TableKey)
  | flush (i : ι)
  | drop (i : ι) (key : TableKey)
  | handover (k : Nat) (rotated : Bool) (unreadable : TableKey → Bool)
  | upload (k : Nat) (pieces : List (FileMeta × List Row))
  | uploadFail (k : Nat)
  | commit (k : Nat)
  | commitLost (k : Nat)
  | release (k : Nat)
  | purge (k : Nat)
  | catchUp (i : ι)
  | fail (k : Nat)

def step (s : State ι) : Action ι → Option (State ι)
  | .write i db lines => some (s.start i (.write ⟨db, lines, ∅, .checking lines⟩))
  | .check k => check s k
  | .append k => append s k
  | .apply k applied registered => apply s k applied registered
  | .ack k => ack s k
  | .create i schema => create s i schema
  | .lookBuffers k => lookBuffers s k
  | .lookFiles k live => lookFiles s k live
  | .flush i => some (s.start i (.flush none .handover))
  | .drop i key => drop s i key
  | .handover k rotated unreadable => handover s k rotated unreadable
  | .upload k pieces => upload s k pieces
  | .uploadFail k => uploadFail s k
  | .commit k => commit s k
  | .commitLost k => commitLost s k
  | .release k => release s k
  | .purge k => purge s k
  | .catchUp i => some (catchUp s i)
  | .fail k => fail s k

end Steps

section Meaning

variable {ι : Type}

/-- A row a query may meet: in the buffers of a node, in the batches a flush
holds there, or in a file the log lists. -/
def State.Stored (s : State ι) (key : TableKey) (r : Row) : Prop :=
  (∃ i, r ∈ ((s.node i).dbs.lookup key).getD [] ∨
    r ∈ ((s.node i).flushing.lookup key).getD []) ∨
    ∃ f ∈ (indexOf s.log).files.filesFor key, r ∈ s.objects f.path

def State.HasAckedRows (s : State ι) (key : TableKey) : Prop :=
  ∃ r, s.Stored key r ∧ ∃ a ∈ s.acked, a.write = r.write ∧ a.line = r.line ∧ a.key = key

def declaredIn (log : List ManifestEntry) (key : TableKey) : Option TableSchema :=
  (indexOf log).declared.lookup key

/-- The entry declares the table. -/
def declares (key : TableKey) (e : ManifestEntry) : Bool :=
  e.schemaDecls.any fun schema => schemaKey schema = key

/-- Every line acknowledged since the declaration that is in force fits it. -/
def State.Conforms (s : State ι) : Prop :=
  ∀ a ∈ s.acked, ∀ schema ∈ declaredIn s.log a.key,
    (∀ e ∈ s.log.drop a.commits, declares a.key e = false) →
      validateDeclared a.line.table a.line.tags a.line.fields schema = .ok ()

instance (s : State ι) : Decidable s.Conforms :=
  inferInstanceAs (Decidable (∀ a ∈ s.acked, ∀ schema ∈ declaredIn s.log a.key, _ → _))

/-- The entries a step adds declare no table that has acknowledged rows. -/
def State.DeclaresUnused (s t : State ι) : Prop :=
  ∀ e, t.log = s.log ++ [e] → ∀ key, declares key e = true → ¬ s.HasAckedRows key

end Meaning

end TimeLake.Declared
