import TimeLake.Query.Restriction

/-!
The scan of `LazyTable`: the bounds and literals it takes from the pushed
filters, the files and row groups it skips for them, the rows the decoder drops,
and what it does to every batch before the plan exists. A data file is its footer
schema and its row groups, with the statistics and Bloom filters the writer gave
each column of a group.
-/

namespace TimeLake.Query

open TimeLake.Library TimeLake.Wal TimeLake.Catalog TimeLake.Rows TimeLake.Ingest

section Filters

inductive ScalarValue where
  | timestamp (unit : TimeUnit) (value : Option Int64)
  | utf8 (value : Option String)
  | largeUtf8 (value : Option String)
  | utf8View (value : Option String)
  | dictionary (value : ScalarValue)
  | float64 (bits : Option UInt64)
  | int64 (value : Option Int64)
  | uint64 (value : Option UInt64)
  | boolean (value : Option Bool)
  deriving DecidableEq

inductive Operator where
  | and | or | eq | notEq | lt | ltEq | gt | gtEq
  deriving DecidableEq, Repr

/-- The expressions a filter is made of; `other` stands for those the walk does
not look into. -/
inductive Expr where
  | column (name : String)
  | literal (value : ScalarValue)
  | cast (e : Expr) (target : ArrowType)
  | binary (left : Expr) (op : Operator) (right : Expr)
  | other (name : String)

structure Pruning where
  minTsNs : Option Int
  maxTsNs : Option Int
  tagEquals : List (String × String)

def Pruning.none : Pruning := ⟨.none, .none, []⟩

/-- The column a comparison is about, through any casts. -/
def colName : Expr → Option String
  | .column name => some name
  | .cast e _ => colName e
  | _ => none

/-- A nanosecond or microsecond literal, through any casts, in nanoseconds. -/
def tsLiteral : Expr → Option Int
  | .literal (.timestamp .nanosecond (some v)) => some v.toInt
  | .literal (.timestamp .microsecond (some v)) =>
      if -2 ^ 63 ≤ v.toInt * 1000 ∧ v.toInt * 1000 < 2 ^ 63 then some (v.toInt * 1000) else none
  | .cast e _ => tsLiteral e
  | _ => none

def strLiteral : Expr → Option String
  | .literal (.utf8 (some s)) | .literal (.utf8View (some s))
  | .literal (.dictionary (.utf8 (some s))) => some s
  | _ => none

def walk : Expr → Pruning → Pruning
  | .binary l .and r, p => walk r (walk l p)
  | .binary l .gtEq r, p | .binary l .gt r, p =>
      match colName l, tsLiteral r with
      | some "time", some ts => { p with minTsNs := some (p.minTsNs.elim ts (max · ts)) }
      | _, _ => p
  | .binary l .ltEq r, p | .binary l .lt r, p =>
      match colName l, tsLiteral r with
      | some "time", some ts => { p with maxTsNs := some (p.maxTsNs.elim ts (min · ts)) }
      | _, _ => p
  | .binary l .eq r, p =>
      match colName l, strLiteral r with
      | some col, some v => { p with tagEquals := p.tagEquals ++ [(col, v)] }
      | _, _ => p
  | _, p => p

def extractPruning (filters : List Expr) : Pruning :=
  filters.foldl (fun p f => walk f p) .none

end Filters

section Files

/-- A row group: its rows, and for each column the least and the greatest value
and the Bloom filter, where the writer gave one. -/
structure RowGroup where
  rows : List Record
  stats : String → Option (Bytes × Bytes)
  bloom : String → Option (String → Bool)

/-- The rows have cells in the columns of the footer only, and of their types. -/
structure DataFile where
  schema : List (String × ArrowType)
  groups : List RowGroup
  typed : ∀ g ∈ groups, ∀ p ∈ schema, ∀ r ∈ g.rows, ∀ c, r p.1 = some c → c.hasType p.2
  whole : ∀ g ∈ groups, ∀ r ∈ g.rows, ∀ name, (r name).isSome → (schema.lookup name).isSome

inductive ScanError where
  | unreadable (path : String)
  | notComparable (ty : ArrowType)
  | notCastable (source target : ArrowType)
  | restriction (e : RestrictionError)
  deriving DecidableEq

variable (f : DataFile)

/-- The literals about columns the file has. -/
def DataFile.known (tagEquals : List (String × String)) : List (String × String) :=
  tagEquals.filter fun p => (f.schema.lookup p.1).isSome

/-- A group is skipped when a literal is outside its range. Statistics of columns
that are not byte arrays say nothing. -/
def statsKeep (tagEquals : List (String × String)) (g : RowGroup) : Bool :=
  (f.known tagEquals).all fun p =>
    match g.stats p.1 with
    | some (lo, hi) => !(decide (utf8 p.2 < lo) || decide (hi < utf8 p.2))
    | none => true

def bloomKeep (tagEquals : List (String × String)) (g : RowGroup) : Bool :=
  (f.known tagEquals).all fun p =>
    match g.bloom p.1 with
    | some check => check p.2
    | none => true

/-- The types Arrow's `eq` compares with a string. -/
def comparable : ArrowType → Bool
  | .utf8 | .dictionary => true
  | _ => false

/-- The decoder's row filter: one predicate after the other, on the rows the ones
before it left. -/
def rowFilter : List (String × String) → List Record → Except ScanError (List Record)
  | [], rows => .ok rows
  | (col, v) :: rest, rows =>
      match f.schema.lookup col with
      | none => rowFilter rest rows
      | some ty =>
          if rows.isEmpty then .ok []
          else if comparable ty then
            rowFilter rest (rows.filter fun r => r col = some (.str v))
          else .error (.notComparable ty)

/-- The decoder drops rows and makes none up. -/
theorem rowFilter_subset {tagEquals : List (String × String)} {rows kept : List Record}
    (h : rowFilter f tagEquals rows = .ok kept) : kept ⊆ rows := by
  induction tagEquals generalizing rows with
  | nil =>
      obtain rfl := Except.ok.inj h
      exact List.Subset.refl _
  | cons p rest ih =>
      simp only [rowFilter] at h
      split at h
      · exact ih h
      · split at h
        · obtain rfl := Except.ok.inj h
          exact List.nil_subset _
        · split at h
          · exact fun r hr => List.mem_of_mem_filter (ih h hr)
          · cases h

/-- A dictionary column is presented as a view. -/
def viewType : ArrowType → ArrowType
  | .dictionary => .utf8View
  | ty => ty

def viewSchema (schema : List (String × ArrowType)) : List (String × ArrowType) :=
  schema.map fun p => (p.1, viewType p.2)

theorem hasType_viewType {c : Cell} {ty : ArrowType} (h : c.hasType ty) :
    c.hasType (viewType ty) := by
  cases ty <;> first | exact h | (cases c <;> first | rfl | cases h)

def inBounds (info : FileMeta) (p : Pruning) : Bool :=
  p.minTsNs.all (· ≤ info.maxTsNs) && p.maxTsNs.all (info.minTsNs ≤ ·)

/-- The batch of a kept group: the columns asked for, those of the file that there
are. -/
def decoded (needed : Option (List String)) (g : RowGroup) (hg : g ∈ f.groups)
    (kept : List Record) (hkept : kept ⊆ g.rows) : RecordBatch where
  schema := viewSchema (f.schema.filter fun p => needed.all (·.contains p.1))
  rows := kept
  typed := by
    intro p hp r hr c hc
    obtain ⟨q, hq, rfl⟩ := List.mem_map.mp hp
    exact hasType_viewType (f.typed g hg q (List.mem_of_mem_filter hq) r (hkept hr) c hc)

/-- One kept group. -/
def decodeGroup (p : Pruning) (needed : Option (List String)) (g : { g // g ∈ f.groups }) :
    Except ScanError RecordBatch :=
  match h : rowFilter f p.tagEquals g.1.rows with
  | .error e => .error e
  | .ok kept => .ok (decoded f needed g.1 g.2 kept (rowFilter_subset f h))

/-- `load_one_file`: nothing of a file outside the bounds, else the groups that
statistics and Bloom filters do not exclude. -/
def loadOneFile (info : FileMeta) (p : Pruning) (needed : Option (List String)) :
    Except ScanError (List RecordBatch) :=
  if inBounds info p then
    (f.groups.attach.filter fun g => statsKeep f p.tagEquals g.1 &&
        bloomKeep f p.tagEquals g.1).mapM
      (decodeGroup f p needed)
  else .ok []

end Files

/-- What `sql_batches` registers for a table. The live batches are snapshots, with
all the columns their rows have. `castable` is what Arrow's `cast` supports. -/
structure LazyTable where
  name : String
  schema : List (String × ArrowType)
  buffer : List RecordBatch
  files : List FileMeta
  fetch : FileMeta → Option DataFile
  castable : ArrowType → ArrowType → Bool
  session : QuerySession
  whole : ∀ b ∈ buffer, ∀ r ∈ b.rows, ∀ name, (r name).isSome → (b.column name).isSome

namespace LazyTable

variable (t : LazyTable)

def loadFile (p : Pruning) (needed : Option (List String)) (info : FileMeta) :
    Except ScanError (List RecordBatch) :=
  match t.fetch info with
  | none => if inBounds info p then .error (.unreadable info.path) else .ok []
  | some f => loadOneFile f info p needed

/-- `load_pruned`: the live batches with the columns asked for, then the files. -/
def loadPruned (p : Pruning) (needed : Option (List String)) :
    Except ScanError (List RecordBatch) := do
  let fromFiles ← t.files.mapM (t.loadFile p needed)
  .ok (t.buffer.map (fun b => needed.elim b b.project) ++ fromFiles.flatten)

def restrictions : List Restriction := mandatoryPredicate t.session t.schema

/-- The columns the masks need, each once. -/
def extraColumns : List String := (t.restrictions.flatMap Restriction.requiredColumns).dedup

/-- The schema of what the scan delivers and the columns it reads for it. An empty
projection counts rows, and reads the time for that. -/
def target : Option (List Nat) → List (String × ArrowType) × Option (List String)
  | none => (t.schema, none)
  | some [] => ([], some ("time" :: t.extraColumns.filter (· ≠ "time")))
  | some idx =>
      let fields := idx.filterMap (t.schema[·]?)
      let names := fields.map Prod.fst
      (fields, some (names ++ t.extraColumns.filter fun c => !names.contains c))

/-- `align_to`: a column of another type is cast, a missing one is null. -/
def alignTo (target : List (String × ArrowType)) (b : RecordBatch) : Except ScanError Unit :=
  target.forM fun p =>
    match b.column p.1 with
    | none => .ok ()
    | some ty =>
        if ty = p.2 || t.castable ty p.2 then .ok () else .error (.notCastable ty p.2)

def restrict (b : RecordBatch) : Except ScanError RecordBatch :=
  match applyAll t.restrictions b with
  | .ok b => .ok b
  | .error e => .error (.restriction e)

/-- `LazyTable::scan`: the stored rows behind the batches it hands to the plan. -/
def scan (projection : Option (List Nat)) (filters : List Expr) :
    Except ScanError (List Record) := do
  let (target, needed) := t.target projection
  let batches ← t.loadPruned (extractPruning filters) needed
  let kept ← batches.mapM t.restrict
  kept.forM (t.alignTo target)
  .ok (kept.flatMap RecordBatch.rows)

end LazyTable

end TimeLake.Query
