import TimeLake.Query.Label
import TimeLake.Ingest.Node

/-!
Row security of `crates/query`: what a session may see of a table, as the
restrictions `mandatory_predicate` requires of a scan and as the masks
`apply_restriction` makes of them, one batch at a time.

A row of a batch keeps every cell it has in its buffer or file; the schema says
which of them the batch has as columns. So a projection changes the schema only,
and a row that has lost its label column is still the labelled row.
-/

namespace TimeLake.Query

open TimeLake.Library TimeLake.Catalog TimeLake.Rows TimeLake.Ingest

inductive TimeUnit where
  | second | millisecond | microsecond | nanosecond
  deriving DecidableEq, Repr

inductive ArrowType where
  | timestamp (unit : TimeUnit)
  | date32
  | float64
  | int64
  | uint64
  | boolean
  | utf8
  | largeUtf8
  | utf8View
  | dictionary
  deriving DecidableEq, Repr

def arrowType : DataType → ArrowType
  | .timestamp => .timestamp .nanosecond
  | .dictionary => .dictionary
  | .float64 => .float64
  | .int64 => .int64
  | .uint64 => .uint64
  | .boolean => .boolean
  | .utf8 => .utf8
  | .largeUtf8 => .largeUtf8

inductive Cell where
  | timestamp (unit : TimeUnit) (value : Int)
  | date (days : Int)
  | float (bits : UInt64)
  | int (value : Int64)
  | uint (value : UInt64)
  | bool (value : Bool)
  | str (value : String)
  deriving DecidableEq

def Cell.ofField : FieldValue → Cell
  | .float bits => .float bits
  | .int value => .int value
  | .uint value => .uint value
  | .bool value => .bool value
  | .str value => .str value

def Cell.hasType : Cell → ArrowType → Bool
  | .timestamp unit _, .timestamp unit' => unit = unit'
  | .date _, .date32 | .float _, .float64 | .int _, .int64 | .uint _, .uint64
  | .bool _, .boolean => true
  | .str _, .utf8 | .str _, .largeUtf8 | .str _, .utf8View | .str _, .dictionary => true
  | _, _ => false

/-- The cells of a stored row; `none` is a null or a column the row lacks. -/
abbrev Record := String → Option Cell

/-- A record batch. The cells of a column have the column's type. -/
structure RecordBatch where
  schema : List (String × ArrowType)
  rows : List Record
  typed : ∀ p ∈ schema, ∀ r ∈ rows, ∀ c, r p.1 = some c → c.hasType p.2

namespace RecordBatch

/-- `column_by_name`, as far as its type. -/
def column (b : RecordBatch) (name : String) : Option ArrowType := b.schema.lookup name

/-- `filter_record_batch`. -/
def filter (b : RecordBatch) (keep : Record → Bool) : RecordBatch where
  schema := b.schema
  rows := b.rows.filter keep
  typed := fun p hp r hr => b.typed p hp r (List.mem_of_mem_filter hr)

/-- The columns of the given names, in the batch's order. -/
def project (b : RecordBatch) (names : List String) : RecordBatch where
  schema := b.schema.filter fun p => names.contains p.1
  rows := b.rows
  typed := fun p hp => b.typed p (List.mem_of_mem_filter hp)

end RecordBatch

/-- `QuerySession`, as resolved; the tombstones are those of one table. -/
structure QuerySession where
  authorizations : List String
  tombstones : List Tombstone

def visibilityColumn : String := "_visibility"

inductive Restriction where
  | visibility (column : String) (authorizations : List String)
  | tombstone (deletes : List Tombstone)

/-- The columns a mask reads, which the scan loads whatever it projects. -/
def Restriction.requiredColumns : Restriction → List String
  | .visibility column _ => [column]
  | .tombstone deletes =>
      deletes.foldl (fun cols t => addTags cols t.tagEquals) ["time"]

inductive RestrictionError where
  | labelNotString (column : String) (ty : ArrowType)
  | tagNotString (ty : ArrowType)
  deriving DecidableEq, Repr

def mandatoryPredicate (session : QuerySession) (schema : List (String × ArrowType)) :
    List Restriction :=
  (if (schema.lookup visibilityColumn).isSome then
    [.visibility visibilityColumn session.authorizations] else []) ++
    (if session.tombstones.isEmpty then [] else [.tombstone session.tombstones])

/-- The shapes a tag or a label arrives in. -/
def isLabelType : ArrowType → Bool
  | .dictionary | .utf8 | .utf8View => true
  | _ => false

/-- No label, or one the authorizations satisfy. -/
def labelVisible (column : String) (auths : List String) (r : Record) : Bool :=
  match r column with
  | some (.str label) => isVisible label auths
  | _ => true

def applyVisibility (column : String) (auths : List String) (b : RecordBatch) :
    Except RestrictionError RecordBatch :=
  match b.column column with
  | none => .ok b
  | some ty =>
      if isLabelType ty then .ok (b.filter (labelVisible column auths))
      else .error (.labelNotString column ty)

/-- A tag column the batch lacks makes a tombstone unsatisfiable; one that is no
string fails the scan. -/
def satisfiable (b : RecordBatch) : List (String × String) → Except RestrictionError Bool
  | [] => .ok true
  | (tag, _) :: rest =>
      match b.column tag with
      | none => .ok false
      | some ty => if isLabelType ty then satisfiable b rest else .error (.tagNotString ty)

/-- `read_ts_nanos`: a null time reads as `i64::MIN`. -/
def timeNs (r : Record) : Int :=
  match r "time" with
  | some (.timestamp .nanosecond v) => v
  | some (.int v) => v.toInt
  | _ => -2 ^ 63

def hasTime (b : RecordBatch) : Bool :=
  match b.column "time" with
  | some (.timestamp .nanosecond) | some .int64 => true
  | _ => false

def withinBounds (t : Tombstone) (time : Int) : Bool :=
  t.minTsNs.all (· ≤ time) && t.maxTsNs.all (time ≤ ·)

/-- The rows of a batch that some tombstone deletes. -/
def deleted (b : RecordBatch) : List Tombstone → Except RestrictionError (Record → Bool)
  | [] => .ok fun _ => false
  | t :: rest =>
      match satisfiable b t.tagEquals, deleted b rest with
      | .error e, _ => .error e
      | .ok _, .error e => .error e
      | .ok sat, .ok more =>
          let bounded := t.minTsNs.isSome || t.maxTsNs.isSome
          .ok fun r =>
            (sat && (!bounded || hasTime b) &&
              t.tagEquals.all (fun p => r p.1 = some (.str p.2)) &&
              (!bounded || withinBounds t (timeNs r))) || more r

def applyTombstone (deletes : List Tombstone) (b : RecordBatch) :
    Except RestrictionError RecordBatch :=
  if b.rows.isEmpty || deletes.isEmpty then .ok b
  else
    match deleted b deletes with
    | .error e => .error e
    | .ok gone => .ok (b.filter fun r => !gone r)

def applyRestriction : Restriction → RecordBatch → Except RestrictionError RecordBatch
  | .visibility column auths, b => applyVisibility column auths b
  | .tombstone deletes, b => applyTombstone deletes b

/-- The restrictions one after the other. -/
def applyAll (restrictions : List Restriction) (b : RecordBatch) :
    Except RestrictionError RecordBatch :=
  restrictions.foldlM (fun b r => applyRestriction r b) b

/-- A tombstone covers a row: every tag equality holds on a tag that is there, and
the time is within the bounds. -/
def covers (t : Tombstone) (r : Record) : Prop :=
  (∀ p ∈ t.tagEquals, r p.1 = some (.str p.2)) ∧
    ((t.minTsNs.isSome ∨ t.maxTsNs.isSome) → ∃ v, r "time" = some (.timestamp .nanosecond v) ∧
      (∀ lo ∈ t.minTsNs, lo ≤ v) ∧ ∀ hi ∈ t.maxTsNs, v ≤ hi)

/-- The row carries no label or one the session satisfies, and no tombstone covers
it. -/
structure Permitted (session : QuerySession) (r : Record) : Prop where
  label : r visibilityColumn = none ∨
    ∃ label, r visibilityColumn = some (.str label) ∧ isVisible label session.authorizations = true
  live : ∀ t ∈ session.tombstones, ¬ covers t r

end TimeLake.Query
