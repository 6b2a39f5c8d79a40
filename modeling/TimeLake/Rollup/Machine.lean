import TimeLake.Rollup.Lines
import TimeLake.Query.Restriction
import TimeLake.Library.Int64
import TimeLake.Library.Run

/-!
Rollup materialisation: `materialize_one` and `target_watermark` of
`crates/server`, with the query of `build_rollup_sql` as what it selects. The
result is written as line protocol, and the target takes what the parser makes of
the text. Writes to the tables arrive between the passes and between the
definitions of one pass.

A table is the rows a query over it reads. The aggregates, the filter text, the
rendering of a number as a tag and the text of a float are parameters; `date_bin`
rounds down to a multiple of the interval. The query and the write succeed: a
bucket outside 64 bits or a text that is refused ends no pass.
-/

namespace TimeLake.Rollup

open TimeLake.Admin
open TimeLake.Catalog
open TimeLake.Cluster
open TimeLake.Ingest
open TimeLake.Library
open TimeLake.Query (isVisible visibilityColumn)
open TimeLake.Rows
open TimeLake.Rollup.Lines (Cell Column Batch cellText batchesToLineProtocol)

structure Point where
  time : Int
  tags : TagSet
  fields : List (String × FieldValue)
  deriving DecidableEq

/-- A column of a row, be it a tag or a field. -/
def Point.cell (p : Point) (name : String) : Option FieldValue :=
  match p.tags.get name with
  | some value => some (.str value)
  | none => p.fields.lookup name

/-- What a reader without authorizations sees. A label that is not a string
fails the query. -/
def Point.isPublic (p : Point) : Bool :=
  match p.cell visibilityColumn with
  | none => true
  | some (.str label) => isVisible label []
  | some _ => false

/-- The row a parsed line is for a reader. -/
def Point.ofLine (l : ParsedLine) : Point := ⟨l.timestampNs, tagSet l.tags, l.fields⟩

structure Sql where
  aggregate : RollupAgg → List Point → Option FieldValue
  keeps : String → Point → Bool
  render : Cell → String
  display : UInt64 → List Char
  floats : FloatOps
  inverse : FloatInverse floats display

def cellOf : FieldValue → Cell
  | .float bits => .float bits
  | .int x => .int x
  | .uint x => .uint x
  | .bool b => .bool b
  | .str s => .text s

def Sql.text (sql : Sql) (v : FieldValue) : String := cellText sql.render (cellOf v)

def sourceKey (d : RollupDef) : TableKey := (d.db, d.source)

def targetKey (d : RollupDef) : TableKey := (d.db, d.target)

section Clock

def nanos : Int := 1000000000

/-- `secs as i64 * 1_000_000_000`. -/
def secsNs (secs : Nat) : Int := wrap64 (wrap64 secs * nanos)

def intervalNs (d : RollupDef) : Int := secsNs d.intervalSecs

def horizon (d : RollupDef) (now : Int) : Int := saturate64 (now - secsNs d.lookbackSecs)

/-- The end of the window of a pass, as the code computes it. -/
def high (d : RollupDef) (now : Int) : Int :=
  wrap64 (horizon d now / intervalNs d * intervalNs d)

end Clock

section Pass

variable (sql : Sql)

/-- `date_bin` over `INTERVAL '{} seconds'`. -/
def bucket (d : RollupDef) (time : Int) : Int := floorTo (d.intervalSecs * nanos) time

def tagColumns (rows : List Point) : List String :=
  (rows.flatMap fun p => p.tags.pairs.map Prod.fst).dedup

def restrictTags (columns : List String) (t : TagSet) : TagSet :=
  ⟨t.pairs.filter fun p => columns.contains p.1, t.sorted.filter _⟩

/-- The tags of the row a source row contributes to: all tag columns of the
source when `group_by` is empty, else the columns it names. -/
def groupTags (d : RollupDef) (source : List Point) (p : Point) : TagSet :=
  if d.groupBy.isEmpty then restrictTags (tagColumns source) p.tags
  else tagSet (d.groupBy.filterMap fun c => (p.cell c).map fun v => (c, sql.text v))

def targetWatermark (rows : List Point) : Option Int :=
  ((rows.filter Point.isPublic).map Point.time).max?

/-- `WHERE time >= lower AND time < high AND (filter)`, over public rows. -/
def selects (d : RollupDef) (lower : Option Int) (high : Int) (p : Point) : Bool :=
  p.isPublic && (lower.all fun lo => lo ≤ p.time) && p.time < high &&
    d.filter.all fun f => sql.keeps f p

def groupKey (d : RollupDef) (source : List Point) (p : Point) : Int × TagSet :=
  (bucket d p.time, groupTags sql d source p)

/-- The groups of the query of a pass, each with its rows. -/
def groups (d : RollupDef) (now : Int) (source target : List Point) :
    List ((Int × TagSet) × List Point) :=
  let lower := (targetWatermark target).map fun m => wrap64 (m + intervalNs d)
  if lower.any fun lo => high d now ≤ lo then []
  else
    let rows := source.filter (selects sql d lower (high d now))
    ((rows.map (groupKey sql d source)).dedup).map fun key =>
      (key, rows.filter fun p => groupKey sql d source p = key)

/-- The tag columns of the result. -/
def passTags (d : RollupDef) (source : List Point) : List String :=
  if d.groupBy.isEmpty then tagColumns source else d.groupBy

def columnOf : Option FieldValue → Column
  | some (.float bits) => .floats [some bits]
  | some (.int x) => .ints [some x]
  | some (.uint x) => .uints [some x]
  | some (.bool b) => .bools [some b]
  | some (.str s) => .texts [some s]
  | none => .texts [none]

theorem columnOf_length (v : Option FieldValue) : (columnOf v).length = 1 := by
  rcases v with _ | (_ | _ | _ | _ | _) <;> rfl

/-- The columns of a group in the order of the select list. -/
def groupColumns (d : RollupDef) (tags : List String) (key : Int × TagSet) (rows : List Point) :
    List (String × Column) :=
  ("time", .timestamps [some (.ofInt key.1)]) ::
    (tags.map fun t => (t, .texts [key.2.get t])) ++
      d.aggregations.map fun a => (a.targetColumn, columnOf (sql.aggregate a rows))

/-- A group as a batch of its own: where DataFusion cuts the result does not show in
the text. -/
def groupBatch (d : RollupDef) (tags : List String) (key : Int × TagSet) (rows : List Point) :
    Batch where
  columns := groupColumns sql d tags key rows
  rows := 1
  aligned := by
    intro p hp
    rcases List.mem_append.mp hp with hp | hp
    · rcases List.mem_cons.mp hp with rfl | hp
      · rfl
      · obtain ⟨t, _, rfl⟩ := List.mem_map.mp hp
        rfl
    · obtain ⟨a, _, rfl⟩ := List.mem_map.mp hp
      exact columnOf_length _

end Pass

/-- `clock` is that of the last pass, and `passes` that of the last pass over
each definition. -/
structure State where
  tables : TableKey → List Point
  clock : Option Int
  passes : Nat → Option Int

def start : State := ⟨fun _ => [], none, fun _ => none⟩

inductive Action where
  | arrive (key : TableKey) (p : Point)
  | materializeOne (i : Nat) (now : Int)

def addRows (tables : TableKey → List Point) (key : TableKey) (rows : List Point) :
    TableKey → List Point :=
  Function.update tables key (tables key ++ rows)

/-- Every line goes to the table it names. -/
def addLines (tables : TableKey → List Point) (db : String) (lines : List ParsedLine) :
    TableKey → List Point :=
  fun key => tables key ++ (lines.filter fun l => (db, l.table) = key).map Point.ofLine

variable (sql : Sql) (defs : List RollupDef)

def State.tags (s : State) (d : RollupDef) : List String := passTags d (s.tables (sourceKey d))

def State.groups (s : State) (d : RollupDef) (now : Int) : List ((Int × TagSet) × List Point) :=
  Rollup.groups sql d now (s.tables (sourceKey d)) (s.tables (targetKey d))

def State.batches (s : State) (d : RollupDef) (now : Int) : List Batch :=
  (s.groups sql d now).map fun g => groupBatch sql d (s.tags d) g.1 g.2

/-- The result of a pass as text, parsed again. -/
def State.written (s : State) (d : RollupDef) (now : Int) : Option (List ParsedLine) :=
  match batchesToLineProtocol sql.display sql.render d.target (s.tags d) (s.batches sql d now) with
  | .error _ => none
  | .ok text => (parseLines sql.floats text 1 0).toOption

def arrive (s : State) (key : TableKey) (p : Point) : Option State :=
  if IsI64 p.time then some { s with tables := addRows s.tables key [p] } else none

def materializeOne (s : State) (i : Nat) (d : RollupDef) (now : Int) : Option State :=
  if IsI64 now ∧ (s.clock.all fun c => c ≤ now) ∧
      (s.groups sql d now).all fun g => IsI64 g.1.1 then
    (s.written sql d now).map fun lines =>
      { tables := addLines s.tables d.db lines
        clock := some now
        passes := Function.update s.passes i (some now) }
  else none

def step (s : State) : Action → Option State
  | .arrive key p => arrive s key p
  | .materializeOne i now => (defs[i]?).bind fun d => materializeOne sql s i d now

/-- The actions of one `materialize_rollups_at`: every definition in order,
at one clock. -/
def materializeRollupsAt (now : Int) : List Action :=
  (List.range defs.length).map fun i => .materializeOne i now

end TimeLake.Rollup
