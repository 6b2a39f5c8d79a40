import TimeLake.Engine.Visibility

/-!
A querier over the ingesters of a cluster. The ingesters share the store and the
manifest log; each has its own buffers, flushes and catalog head, and runs the
steps of `Engine.Machine` on its view of what is shared. A query is the sequence
of steps `sql_batches` makes of it: poll every ingester, fold the log forward,
name the tables, ask every ingester for the rows of one table after the other,
fold the log to the highest head heard of, list the files of each table, read
them. An ingester answers a request in two steps, the buffers first and the head
after them.

The querier takes no writes, so its own buffers are left out. What is not data of
the program: the number of the next row, and the rows each ingester had
acknowledged when the query started.
-/

namespace TimeLake.Querier

open TimeLake.Library TimeLake.Catalog TimeLake.Rows TimeLake.Store TimeLake.Cluster

/-- A request to one ingester, with the attempts that are left. -/
inductive Request (α : Type) where
  | asked (retries : Nat)
  | read (retries : Nat) (value : α)
  | answered (value : α) (head : Nat)
  | failed

namespace Request

variable {α : Type}

def done : Request α → Bool
  | .answered .. | .failed => true
  | _ => false

def answer : Request α → Option (α × Nat)
  | .answered value head => some (value, head)
  | _ => none

/-- The connection breaks or the answer is not a success. -/
def lose : Request α → Option (Request α)
  | .asked 0 | .read 0 _ => some .failed
  | .asked (retries + 1) | .read (retries + 1) _ => some (.asked retries)
  | _ => none

end Request

/-- What is registered for a table: its live rows and its files, which a scan
reads one after the other, or a provider that fails the scan. -/
inductive Provider where
  | lazyTable (rows : List Row) (files : List FileMeta)
  | errorTable

/-- The merged schema of a table: built, in conflict, or known to nobody. -/
inductive Schema where
  | merged
  | conflict
  | missing
  deriving DecidableEq, Repr

/-- Where `sql_batches` stands. -/
inductive Query (ι : Type) where
  | idle
  | polling (fan : ι → Request (List TableKey))
  | folding (target : Nat)
  | taking (name : String) (fan : ι → Request (List Row)) (todo : List String)
      (live : List (String × List Row)) (watermark : Nat)
  | catching (live : List (String × List Row)) (watermark : Nat)
  | listing (live : List (String × List Row)) (tables : List (String × Provider))
  | scanning (tables : List (String × Provider))
  | refused

structure State (ι : Type) where
  ingester : ι → Engine.State
  ingesterHead : ι → Nat
  objects : AbsPath → Option (List Row)
  /-- The bytes of the object, which its rows do not say. -/
  lengths : AbsPath → Nat
  log : List ManifestEntry
  arrivals : Nat
  head : Nat
  live : List TableKey
  db : String
  query : Query ι
  before : ι → List (TableKey × Row)

inductive Action (ι : Type) where
  | ingest (i : ι) (a : Engine.Action)
  | land (i : ι) (k : Nat)
  | heard (i : ι) (k : Nat)
  | catchUp (i : ι) (seen : Nat)
  | tail (seen : Nat)
  | start (db : String)
  | read (i : ι)
  | answer (i : ι)
  | lose (i : ι)
  | polled
  | listTables (seen : Option Nat)
  | gathered
  | caught (seen : Option Nat)
  | listFiles (schema : Schema)
  | scan (name : String) (fetched : Bool)

variable {ι : Type}

/-- Ingesters just opened with empty logs over a store of any content; the
querier may be behind. -/
def opened (objects : AbsPath → Option (List Row)) (lengths : AbsPath → Nat)
    (log : List ManifestEntry) (arrivals head : Nat) (live : List TableKey) : State ι where
  ingester := fun _ => Engine.initial
  ingesterHead := fun _ => log.length
  objects := objects
  lengths := lengths
  log := log
  arrivals := arrivals
  head := head
  live := live
  db := ""
  query := .idle
  before := fun _ => []

/-- The engine of an ingester with the store, and the log as far as its catalog
has folded it. -/
def view (s : State ι) (i : ι) : Engine.State :=
  { s.ingester i with
    objects := s.objects
    log := s.log.take (s.ingesterHead i)
    arrivals := s.arrivals }

/-- Writes and the steps of a flush. The manifest of a commit that succeeds is
`land` and `heard`. -/
def ofIngester : Engine.Action → Bool
  | .write .. | .handover .. | .upload .. | .uploadFail .. | .release _ | .reclaim .. => true
  | .commit _ (.failed landed) => !landed
  | _ => false

/-- An upload puts as many bytes as it records for the file. -/
def lengthsAfter (s : State ι) (i : ι) (a : Engine.Action) : AbsPath → Nat :=
  match a, Engine.nextUpload (view s i) a with
  | .upload _ size, some put => Function.update s.lengths put.1 size
  | _, _ => s.lengths

section Ingester

variable [DecidableEq ι]

def setIngester (s : State ι) (i : ι) (e : Engine.State) : State ι :=
  { s with
    ingester := Function.update s.ingester i e
    objects := e.objects
    arrivals := e.arrivals }

def ingest (s : State ι) (i : ι) (a : Engine.Action) : Option (State ι) :=
  if ofIngester a then
    (Engine.step (view s i) a).map fun e =>
      { setIngester s i e with lengths := lengthsAfter s i a }
  else none

def flushEntry (metas : List FileMeta) (seq : Nat) : ManifestEntry :=
  CommitArgs.entry ⟨metas, [], [], [], [], false⟩ seq

/-- `put_if_absent` of the next manifest: it goes through when the catalog is not
behind. -/
def land (s : State ι) (i : ι) (k : Nat) : Option (State ι) :=
  match (s.ingester i).flights.lookup k with
  | some (.uploading _ _ [] _ metas _) =>
      if s.ingesterHead i = s.log.length then
        some { s with log := s.log ++ [flushEntry metas (s.log.length + 1)] }
      else none
  | _ => none

/-- The rest of a commit whose manifest has landed. -/
def heard (s : State ι) (i : ι) (k : Nat) : Option (State ι) :=
  match (s.ingester i).flights.lookup k with
  | some (.uploading _ _ [] _ metas _) =>
      let head := s.ingesterHead i
      if s.log[head]? = some (flushEntry metas (head + 1)) then
        (Engine.step (view s i) (.commit k .ok)).map fun e =>
          { setIngester s i e with
            ingesterHead := Function.update s.ingesterHead i (head + 1) }
      else none
  | _ => none

/-- `catch_up` after a collision; the log may have grown since its listing. -/
def catchUp (s : State ι) (i : ι) (seen : Nat) : Option (State ι) :=
  if s.ingesterHead i ≤ seen ∧ seen ≤ s.log.length then
    some { s with ingesterHead := Function.update s.ingesterHead i seen }
  else none

end Ingester

section Query

/-- `Engine::live_tables`. -/
def liveTables (e : Engine.State) : List TableKey := bufferedTables e.dbs ++ e.flushing.keys

/-- `Engine::snapshot_ipc`: both places under both locks. -/
def snapshotIpc (e : Engine.State) (key : TableKey) : List Row :=
  tableRows e.dbs key ++ (e.flushing.lookup key).getD []

def finished : Query ι → Bool
  | .idle | .scanning _ | .refused => true
  | _ => false

def start (s : State ι) (db : String) : Option (State ι) :=
  if finished s.query then
    some { s with
      db := db
      query := .polling fun _ => .asked 0
      before := fun i => (s.ingester i).acked }
  else none

variable [DecidableEq ι]

/-- The buffers, as the ingester of a request reads them. -/
def readBuffers (s : State ι) (i : ι) : Option (State ι) :=
  match s.query with
  | .polling fan =>
      match fan i with
      | .asked retries =>
          let reply := .read retries (liveTables (s.ingester i))
          some { s with query := .polling (Function.update fan i reply) }
      | _ => none
  | .taking name fan todo live watermark =>
      match fan i with
      | .asked retries =>
          let reply := .read retries (snapshotIpc (s.ingester i) (s.db, name))
          some { s with query := .taking name (Function.update fan i reply) todo live watermark }
      | _ => none
  | _ => none

/-- The head, after the buffers. -/
def answer (s : State ι) (i : ι) : Option (State ι) :=
  match s.query with
  | .polling fan =>
      match fan i with
      | .read _ tables =>
          let reply := .answered tables (s.ingesterHead i)
          some { s with query := .polling (Function.update fan i reply) }
      | _ => none
  | .taking name fan todo live watermark =>
      match fan i with
      | .read _ rows =>
          let reply := .answered rows (s.ingesterHead i)
          some { s with query := .taking name (Function.update fan i reply) todo live watermark }
      | _ => none
  | _ => none

def lose (s : State ι) (i : ι) : Option (State ι) :=
  match s.query with
  | .polling fan =>
      (fan i).lose.map fun reply => { s with query := .polling (Function.update fan i reply) }
  | .taking name fan todo live watermark =>
      (fan i).lose.map fun reply =>
        { s with query := .taking name (Function.update fan i reply) todo live watermark }
  | _ => none

/-- The end of `refresh_live`. The tables known shrink only when every ingester
has been heard. -/
def polled (peers : List ι) (s : State ι) : Option (State ι) :=
  match s.query with
  | .polling fan =>
      if peers.all fun i => (fan i).done then
        let reports := peers.filterMap fun i => (fan i).answer
        let seen := reports.flatMap Prod.fst
        some { s with
          live := if reports.length = peers.length then seen else s.live ++ seen
          query := .folding ((reports.map Prod.snd).foldl max 0) }
      else none
  | _ => none

/-- `Engine::catch_up_catalog` and the head it returns. `seen` is how far the
listing of the log went, `none` when it failed. -/
def catchUpCatalog (s : State ι) (target : Nat) (seen : Option Nat) : Option (State ι × Nat) :=
  if target ≤ s.head ∧ 0 < target then some (s, s.head)
  else
    match seen with
    | none => some (s, s.head)
    | some n => if s.head ≤ n ∧ n ≤ s.log.length then some ({ s with head := n }, n) else none

/-- The querier's catalog. -/
def index (s : State ι) : Index := indexOf (s.log.take s.head)

def tableNames (s : State ι) : List String :=
  let known := (index s).files.map.keys ++ (index s).declared.keys ++ s.live
  ((known.filter fun key => key.1 = s.db).map Prod.snd).dedup.insertionSort (· ≤ ·)

def listTables (s : State ι) (seen : Option Nat) : Option (State ι) :=
  match s.query with
  | .folding target =>
      (catchUpCatalog s target seen).map fun p =>
        match tableNames p.1 with
        | [] => { p.1 with query := .refused }
        | name :: todo => { p.1 with query := .taking name (fun _ => .asked 1) todo [] 0 }
  | _ => none

/-- The end of one table's round. After the last one the watermark is compared
with the catalog. -/
def gathered (peers : List ι) (s : State ι) : Option (State ι) :=
  match s.query with
  | .taking name fan todo live watermark =>
      if peers.all fun i => (fan i).done then
        let replies := peers.filterMap fun i => (fan i).answer
        let live := live ++ [(name, replies.flatMap Prod.fst)]
        let watermark := (replies.map Prod.snd).foldl max watermark
        let query := match todo with
          | next :: rest => .taking next (fun _ => .asked 1) rest live watermark
          | [] => if s.head < watermark then .catching live watermark else .listing live []
        some { s with query := if replies.length = peers.length then query else .refused }
      else none
  | _ => none

def caught (s : State ι) (seen : Option Nat) : Option (State ι) :=
  match s.query with
  | .catching live watermark =>
      (catchUpCatalog s watermark seen).map fun p =>
        { p.1 with query := if p.2 < watermark then .refused else .listing live [] }
  | _ => none

/-- The provider of one table, if one is registered. -/
def provider (s : State ι) (name : String) (rows : List Row) (schema : Schema) :
    Option Provider :=
  let files := (index s).files.filesFor (s.db, name)
  if rows = [] ∧ files = [] then
    ((index s).declared.lookup (s.db, name)).map fun _ => .lazyTable [] []
  else
    match schema with
    | .merged => some (.lazyTable rows files)
    | .conflict => some .errorTable
    | .missing => none

def listFiles (s : State ι) (schema : Schema) : Option (State ι) :=
  match s.query with
  | .listing ((name, rows) :: todo) tables =>
      let registered := (provider s name rows schema).toList.map fun p => (name, p)
      some { s with
        query := match todo with
          | [] => .scanning (tables ++ registered)
          | _ => .listing todo (tables ++ registered) }
  | _ => none

/-- One file of a table is read, or cannot be. It is opened with the length the
catalog has for it, and in an object of another length that is not where the footer
ends. -/
def scan (s : State ι) (name : String) (fetched : Bool) : Option (State ι) :=
  match s.query with
  | .scanning tables =>
      match tables.lookup name with
      | some (.lazyTable rows (f :: files)) =>
          let next := match s.objects (objectOf f), fetched with
            | some content, true =>
                if s.lengths (objectOf f) = f.sizeBytes then .lazyTable (rows ++ content) files
                else .errorTable
            | _, _ => .errorTable
          some { s with
            query := .scanning (tables.map fun t => if t.1 = name then (name, next) else t) }
      | _ => none
  | _ => none

end Query

def step [DecidableEq ι] (peers : List ι) (s : State ι) : Action ι → Option (State ι)
  | .ingest i a => if i ∈ peers then ingest s i a else none
  | .land i k => if i ∈ peers then land s i k else none
  | .heard i k => if i ∈ peers then heard s i k else none
  | .catchUp i seen => if i ∈ peers then catchUp s i seen else none
  | .tail seen => if s.head ≤ seen ∧ seen ≤ s.log.length then some { s with head := seen } else none
  | .start db => start s db
  | .read i => readBuffers s i
  | .answer i => answer s i
  | .lose i => lose s i
  | .polled => polled peers s
  | .listTables seen => listTables s seen
  | .gathered => gathered peers s
  | .caught seen => caught s seen
  | .listFiles schema => listFiles s schema
  | .scan name fetched => scan s name fetched

/-- Why a query has no rows of a table. -/
inductive QueryError where
  | refused
  | notFound
  | unreadable
  deriving DecidableEq, Repr

/-- How the query ends for a query of one table; `none` while it is under way. -/
def result (s : State ι) (name : String) : Option (Except QueryError (List Row)) :=
  match s.query with
  | .refused => some (.error .refused)
  | .scanning tables =>
      match tables.lookup name with
      | none => some (.error .notFound)
      | some .errorTable => some (.error .unreadable)
      | some (.lazyTable rows []) => some (.ok rows)
      | some (.lazyTable _ _) => none
  | _ => none

end TimeLake.Querier
