import TimeLake.Ingest.Buffer
import TimeLake.Ingest.LastValue
import TimeLake.Catalog.Manifest
import TimeLake.Wal.Codec

/-!
The write path of one node (`Engine::write_lp_internal` and `Engine::apply` of
`crates/server`): the body is checked, made durable in the log, and applied to
the buffers, the last-value cache and the schema registry, in that order.
`openNode` is the part of `Engine::open` that rebuilds this state from the
catalogued files and the log, `recover` the part of `recover_from_replica`
that applies a peer's frames. The log is the list of its frames; how it is
kept on disk is the business of `Wal`.
-/

namespace TimeLake.Ingest

open TimeLake.Library TimeLake.Rows TimeLake.Catalog TimeLake.Wal

section Schemas

/-- An Arrow schema: names and types in order. -/
abbrev Schema := List (String × DataType)

structure UnionConflict where
  column : String
  known : DataType
  incoming : DataType
  deriving DecidableEq, Repr

/-- `TableBuffer::schema_only`, from the names of the tag columns and the types
of the field columns. -/
def columnsOf (tagNames : List String) (types : Types) : Schema :=
  ("time", .timestamp) :: (tagNames.map fun name => (name, .dictionary)) ++
    types.map fun p => (p.1, p.2.dataType)

def TableBuffer.tagNames (b : TableBuffer) : List String := b.tags.map Prod.fst

def TableBuffer.schemaOnly (b : TableBuffer) : Schema := columnsOf b.tagNames (typesOf b.fields)

/-- The types by name, a later column of the same name over an earlier one. -/
def Schema.types (s : Schema) : Established := fun name => s.reverse.lookup name

/-- The columns of `b` that `a` lacks, at its end; a column of both must have
one type. -/
def unionInto : Schema → Schema → Except UnionConflict Schema
  | a, [] => .ok a
  | a, (name, dt) :: rest =>
      match Schema.types a name with
      | none => unionInto (a ++ [(name, dt)]) rest
      | some known => if known = dt then unionInto a rest else .error ⟨name, known, dt⟩

/-- Two columns of one name both get the type of the later one. -/
def Schema.settle (s : Schema) : Schema :=
  s.map fun p => (p.1, (Schema.types s p.1).getD p.2)

def schemaUnion (a : Option Schema) (b : Schema) : Except UnionConflict Schema :=
  match a with
  | none => .ok b
  | some a => unionInto a.settle b

/-- The newest file of each table, by path. -/
def newestFiles (files : List FileMeta) : AssocMap TableKey String :=
  files.foldl (fun newest f =>
    if (newest.lookup f.key).getD "" < f.path then newest.insert f.key f.path else newest) ∅

/-- `refresh_schema_registry` on a registry without files folded in: the schema
of the newest file of every table, as its footer has it. -/
def bootRegistry (files : List FileMeta) (footer : String → Schema) : AssocMap TableKey Schema :=
  (newestFiles files).entries.foldl (fun reg e => reg.insert e.1 (footer e.2)) ∅

end Schemas

section Text

/-- The length of a multi-byte sequence and the range of its second byte, from
the first byte. -/
def sequenceShape (b : UInt8) : Option (Nat × UInt8 × UInt8) :=
  if 0xC2 ≤ b && b ≤ 0xDF then some (2, 0x80, 0xBF)
  else if b = 0xE0 then some (3, 0xA0, 0xBF)
  else if b = 0xED then some (3, 0x80, 0x9F)
  else if 0xE1 ≤ b && b ≤ 0xEF then some (3, 0x80, 0xBF)
  else if b = 0xF0 then some (4, 0x90, 0xBF)
  else if 0xF1 ≤ b && b ≤ 0xF3 then some (4, 0x80, 0xBF)
  else if b = 0xF4 then some (4, 0x80, 0x8F)
  else none

/-- How many bytes the sequence that starts here has, or would have had, and
whether it is whole. -/
def sequenceExtent (b : UInt8) (rest : Bytes) : Nat × Bool :=
  if b < 0x80 then (1, true)
  else match sequenceShape b with
    | none => (1, false)
    | some (len, lo, hi) =>
        match rest with
        | [] => (1, false)
        | c :: tail =>
            if lo ≤ c && c ≤ hi then
              let more := (tail.take (len - 2)).takeWhile fun d => 0x80 ≤ d && d ≤ 0xBF
              (2 + more.length, 2 + more.length = len)
            else (1, false)

/-- `String::from_utf8_lossy` on bytes that are not UTF-8: each maximal start of
a sequence that is not one becomes a replacement character. -/
def replaceInvalid : Nat → Bytes → String
  | 0, _ => ""
  | _, [] => ""
  | fuel + 1, b :: rest =>
      let (len, whole) := sequenceExtent b rest
      let here := if whole then (fromUtf8 ((b :: rest).take len)).getD "\uFFFD" else "\uFFFD"
      here ++ replaceInvalid fuel ((b :: rest).drop len)

def fromUtf8Lossy (bytes : Bytes) : String :=
  (fromUtf8 bytes).getD (replaceInvalid bytes.length bytes)

end Text

section Declared

inductive DeclaredError where
  | fieldNotTag (column table : String)
  | tagUnknown (column table : String)
  | tagNotField (column table : String)
  | typeDiffers (column table : String)
  | fieldUnknown (column table : String)
  deriving DecidableEq, Repr

def valueMatches : FieldValue → ColumnType → Bool
  | .float _, .float | .int _, .integer | .uint _, .unsigned | .bool _, .boolean
  | .str _, .string => true
  | _, _ => false

/-- A map of the declared columns by name; the last of one name counts. -/
def declaredColumn (s : TableSchema) (name : String) : Option TableColumn :=
  s.columns.reverse.find? fun c => c.name = name

def checkTag (s : TableSchema) (table name : String) : Except DeclaredError Unit :=
  match declaredColumn s name with
  | some c => if c.tag then .ok () else .error (.fieldNotTag name table)
  | none => .error (.tagUnknown name table)

def checkField (s : TableSchema) (table name : String) (v : FieldValue) :
    Except DeclaredError Unit :=
  match declaredColumn s name with
  | some c =>
      if c.tag then .error (.tagNotField name table)
      else if !valueMatches v c.ty then .error (.typeDiffers name table)
      else .ok ()
  | none => .error (.fieldUnknown name table)

/-- `validate_declared`: tags first, then fields. -/
def validateDeclared (table : String) (tags : List (String × String))
    (fields : List (String × FieldValue)) (s : TableSchema) : Except DeclaredError Unit := do
  tags.forM fun p => checkTag s table p.1
  fields.forM fun p => checkField s table p.1 p.2

end Declared

structure Node where
  buffers : AssocMap TableKey Buffer
  schemas : AssocMap TableKey Schema
  lastValue : LastValueCache
  declared : AssocMap TableKey TableSchema
  wal : List Frame

inductive ApplyError where
  | parse (e : ParseError)
  | conflict (e : TypeConflict)
  | union (e : UnionConflict)
  deriving DecidableEq

namespace Node

def buffer (s : Node) (key : TableKey) : Buffer := (s.buffers.lookup key).getD .empty

/-- The registry's types of a table. -/
def established (s : Node) (key : TableKey) : Established :=
  fun name => (s.schemas.lookup key).bind fun schema => Schema.types schema name

/-- The lines of a body into the buffers, up to the first one refused. A table
that is new gets its buffer before its line is checked. -/
def appendLines (fl : FloatOps) (db : String) (established : String → Established) :
    List ParsedLine → Node → Node × Except TypeConflict Unit
  | [], s => (s, .ok ())
  | line :: rest, s =>
      let key := (db, line.table)
      let (b, result) := (s.buffer key).append fl line (established line.table)
      let s := { s with buffers := s.buffers.insert key b }
      match result with
      | .error e => (s, .error e)
      | .ok () => appendLines fl db established rest s

def observeAll (s : Node) (db : String) (lines : List ParsedLine) : Node :=
  if s.lastValue.isActive then
    { s with
      lastValue := lines.foldl (fun cache line =>
        cache.observe db line.table line.tags line.timestampNs line.fields) s.lastValue }
  else s

/-- The registry takes a table's columns when the buffer has more of them than
it knows. -/
def noteColumns (s : Node) (key : TableKey) : Node × Except UnionConflict Unit :=
  let columns := (s.buffer key).1.schemaOnly
  let known := ((s.schemas.lookup key).map List.length).getD 0
  if known < columns.length then
    match schemaUnion (s.schemas.lookup key) columns with
    | .ok merged => ({ s with schemas := s.schemas.insert key merged }, .ok ())
    | .error e => (s, .error e)
  else (s, .ok ())

def noteAll : List TableKey → Node → Node × Except UnionConflict Unit
  | [], s => (s, .ok ())
  | key :: rest, s =>
      match s.noteColumns key with
      | (s, .error e) => (s, .error e)
      | (s, .ok ()) => noteAll rest s

/-- The tables of a body, sorted, each once. -/
def touched (db : String) (lines : List ParsedLine) : List TableKey :=
  ((lines.map ParsedLine.table).dedup.insertionSort (· ≤ ·)).map fun table => (db, table)

/-- `apply` behind its parser. The registry is read once, before the first
line. -/
def applyLines (fl : FloatOps) (s : Node) (db : String) (lines : List ParsedLine) :
    Node × Except ApplyError Nat :=
  match appendLines fl db (fun table => s.established (db, table)) lines s with
  | (s, .error e) => (s, .error (.conflict e))
  | (s, .ok ()) =>
      match noteAll (touched db lines) (s.observeAll db lines) with
      | (s, .error e) => (s, .error (.union e))
      | (s, .ok ()) => (s, .ok lines.length)

/-- `Engine::apply`. -/
def apply (fl : FloatOps) (s : Node) (db text : String) (mult : Int64) (defaultTsNs : Int) :
    Node × Except ApplyError Nat :=
  match parseLines fl text mult.toInt defaultTsNs with
  | .error e => (s, .error (.parse e))
  | .ok lines => applyLines fl s db lines

end Node

section Write

inductive BadRequest where
  | precision (p : String)
  | notUtf8
  | parse (e : ParseError)
  | declared (e : DeclaredError)
  | apply (e : ApplyError)
  deriving DecidableEq

inductive AppendFault where
  | diskFull | other
  deriving DecidableEq, Repr

inductive WriteError where
  | badRequest (e : BadRequest)
  | backpressure
  | append (fault : AppendFault)
  deriving DecidableEq

/-- What a write meets outside the node's own state: the log over its cap, a
log that cannot be written, the clock when the body is applied. -/
structure Weather where
  walFull : Bool
  fault : Option AppendFault
  nowNs : Int
  deriving DecidableEq, Repr

structure Call where
  db : String
  body : Bytes
  precision : Option String
  deriving DecidableEq

def Call.mult (c : Call) : Except BadRequest Int64 :=
  match c.precision with
  | none => .ok 1
  | some p =>
      match precisionMultiplier p with
      | some m => .ok m
      | none => .error (.precision p)

def Node.checkDeclared (s : Node) (db : String) (l : Line) : Except BadRequest Unit :=
  match s.declared.lookup (db, l.table) with
  | none => .ok ()
  | some schema =>
      match validateDeclared l.table l.tags l.fields schema with
      | .ok () => .ok ()
      | .error e => .error (.declared e)

/-- Everything that is checked before the log is touched. -/
def Node.check (fl : FloatOps) (s : Node) (c : Call) :
    Except BadRequest (Int64 × String × List Line) := do
  let mult ← c.mult
  match fromUtf8 c.body with
  | none => .error .notUtf8
  | some text =>
      match readLines fl text mult.toInt with
      | .error e => .error (.parse e)
      | .ok lines => do
          lines.forM fun l => s.checkDeclared c.db l
          .ok (mult, text, lines)

/-- `Engine::write_lp_internal`. -/
def Node.write (fl : FloatOps) (s : Node) (c : Call) (w : Weather) :
    Node × Except WriteError Nat :=
  match s.check fl c with
  | .error e => (s, .error (.badRequest e))
  | .ok (mult, text, _) =>
      if w.walFull then (s, .error .backpressure)
      else match w.fault with
        | some fault => (s, .error (.append fault))
        | none =>
            let frame : Frame := ⟨c.db, mult, c.body⟩
            let s := { s with wal := s.wal ++ [frame] }
            match s.apply fl c.db text mult w.nowNs with
            | (s, .error e) => (s, .error (.badRequest (.apply e)))
            | (s, .ok n) => (s, .ok n)

end Write

section Recovery

/-- One frame of a log on its way back: an error is logged and skipped. -/
def Node.replayFrame (fl : FloatOps) (s : Node) (f : Frame) : Node :=
  (s.apply fl f.db (fromUtf8Lossy f.body) f.mult 0).1

/-- What `recover_from_replica` does with the frames of the replica log before
it flushes. -/
def Node.recover (fl : FloatOps) (s : Node) (frames : List Frame) : Node :=
  frames.foldl (Node.replayFrame fl) s

/-- The files of the catalog with the schema in each footer, the declarations,
and the last-value cache the boot built. -/
structure Boot where
  files : List FileMeta
  footer : String → Schema
  declared : AssocMap TableKey TableSchema
  lastValue : LastValueCache

/-- `Engine::open`: the registry from the files, then every frame of the log.
The refresh that follows finds the same newest files and changes nothing. -/
def openNode (fl : FloatOps) (boot : Boot) (frames : List Frame) : Node :=
  let s : Node := ⟨∅, bootRegistry boot.files boot.footer, boot.lastValue, boot.declared, frames⟩
  s.recover fl frames

end Recovery

section Samples

/-- For bodies without float literals. -/
def noFloats : FloatOps := ⟨fun _ => none, fun _ => 0, fun _ => 0⟩

/-- A boot over a store without files. -/
def emptyBoot : Boot := ⟨[], fun _ => [], ∅, .new 1⟩

def sampleCall (body : String) : Call := ⟨"db", utf8 body, none⟩

def clear (nowNs : Int) : Weather := ⟨false, none, nowNs⟩

end Samples

end TimeLake.Ingest
