import TimeLake.Ingest.RoundTrip

/-!
The two producers that hand rows to the engine as line protocol: the decoder of
Prometheus `remote_write` and the Flight `DoPut` converter. Both build rows with at
least one field, finite floats and timestamps of the type, but they take every name
and every text as it comes. So what they hand over comes back from the parser if and
only if each row of it is plain.

Snappy and protobuf are parameters of the decoder. An Arrow batch is its columns, a
dictionary column the values its keys point at.
-/

namespace TimeLake.Producers

open TimeLake.Library TimeLake.Rows TimeLake.Ingest

section RemoteWrite

structure Label where
  name : String
  value : String
  deriving DecidableEq

/-- A value, as its bits, at a time in milliseconds. -/
structure Sample where
  value : UInt64
  timestamp : Int64
  deriving DecidableEq

structure TimeSeries where
  labels : List Label
  samples : List Sample
  deriving DecidableEq

structure WriteRequest where
  timeseries : List TimeSeries
  deriving DecidableEq

inductive RemoteWriteError where
  | snappy (text : String)
  | protobuf (text : String)
  | missingName
  deriving DecidableEq, Repr

def nameLabel : String := "__name__"

def valueField : String := "value"

/-- `i64::saturating_mul` -/
def saturatingMul (a b : Int) : Int := max (-2 ^ 63) (min (2 ^ 63 - 1) (a * b))

/-- The measurement and the tags of a series; the last name label wins. -/
def readLabels (labels : List Label) : Option String × List (String × String) :=
  labels.foldl (fun acc l =>
    if l.name = nameLabel then (some l.value, acc.2)
    else (acc.1, acc.2 ++ [(l.name, l.value)])) (none, [])

/-- One row for each sample that is finite. -/
def seriesRows (ts : TimeSeries) : Except RemoteWriteError (List ParsedLine) :=
  match readLabels ts.labels with
  | (none, _) => .error .missingName
  | (some measurement, tags) =>
      .ok ((ts.samples.filter (isFinite ·.value)).map fun s =>
        ⟨measurement, tags, [(valueField, .float s.value)],
          saturatingMul s.timestamp.toInt 1000000⟩)

/-- `map_write_request` -/
def mapWriteRequest (req : WriteRequest) : Except RemoteWriteError (List ParsedLine) :=
  (req.timeseries.mapM seriesRows).map List.flatten

/-- `decode_remote_write` -/
def decodeRemoteWrite (decompress : List UInt8 → Except String (List UInt8))
    (decode : List UInt8 → Except String WriteRequest) (body : List UInt8) :
    Except RemoteWriteError (List ParsedLine) :=
  match decompress body with
  | .error e => .error (.snappy e)
  | .ok raw =>
      match decode raw with
      | .error e => .error (.protobuf e)
      | .ok req => mapWriteRequest req

theorem i64_saturatingMul (a b : Int) : i64 (saturatingMul a b) = some (saturatingMul a b) := by
  rw [i64, if_pos]
  unfold saturatingMul
  omega

theorem produced_of_seriesRows {ts : TimeSeries} {rows : List ParsedLine}
    (h : seriesRows ts = .ok rows) : ∀ row ∈ rows, Produced row := by
  unfold seriesRows at h
  split at h
  · cases h
  · obtain rfl := Except.ok.inj h
    intro row hrow
    obtain ⟨s, hs, rfl⟩ := List.mem_map.mp hrow
    have hfinite : isFinite s.value = true := (List.mem_filter.mp hs).2
    refine ⟨List.cons_ne_nil _ _, ?_, i64_saturatingMul _ _⟩
    rw [List.all_cons, List.all_nil, Bool.and_true]
    exact hfinite

theorem produced_of_mapWriteRequest {req : WriteRequest} {rows : List ParsedLine}
    (h : mapWriteRequest req = .ok rows) : ∀ row ∈ rows, Produced row := by
  obtain ⟨groups, hgroups, rfl⟩ := map_eq_ok.mp h
  intro row hrow
  obtain ⟨group, hgroup, hmem⟩ := List.mem_flatten.mp hrow
  obtain ⟨ts, _, hts⟩ := mem_of_mapM_eq_ok hgroups hgroup
  exact produced_of_seriesRows hts row hmem

theorem produced_of_decodeRemoteWrite {decompress : List UInt8 → Except String (List UInt8)}
    {decode : List UInt8 → Except String WriteRequest} {body : List UInt8}
    {rows : List ParsedLine} (h : decodeRemoteWrite decompress decode body = .ok rows) :
    ∀ row ∈ rows, Produced row := by
  unfold decodeRemoteWrite at h
  split at h
  · cases h
  · split at h
    · cases h
    · exact produced_of_mapWriteRequest h

end RemoteWrite

section DoPut

/-- The columns an Arrow batch may bring, with their cells. -/
inductive ArrowArray where
  | timestampNs (zone : Option String) (cells : List (Option Int64))
  | float64 (cells : List (Option UInt64))
  | int64 (cells : List (Option Int64))
  | uint64 (cells : List (Option UInt64))
  | boolean (cells : List (Option Bool))
  | utf8 (cells : List (Option String))
  /-- Int32 keys into text values. -/
  | dictionary (keys : List (Option Nat)) (values : List String)
  /-- A dictionary of other keys or values. -/
  | otherDictionary (typeName : String) (length : Nat)
  | other (typeName : String) (length : Nat)
  deriving DecidableEq

def ArrowArray.length : ArrowArray → Nat
  | timestampNs _ cells | int64 cells => cells.length
  | float64 cells | uint64 cells => cells.length
  | boolean cells => cells.length
  | utf8 cells => cells.length
  | dictionary keys _ => keys.length
  | otherDictionary _ length | other _ length => length

def ArrowArray.typeName : ArrowArray → String
  | timestampNs none _ => "Timestamp(Nanosecond, None)"
  | timestampNs (some zone) _ => "Timestamp(Nanosecond, Some(\"" ++ zone ++ "\"))"
  | float64 _ => "Float64"
  | int64 _ => "Int64"
  | uint64 _ => "UInt64"
  | boolean _ => "Boolean"
  | utf8 _ => "Utf8"
  | dictionary _ _ => "Dictionary(Int32, Utf8)"
  | otherDictionary typeName _ | other typeName _ => typeName

/-- A column and the `timelake:role` of its field's metadata. -/
structure ArrowColumn where
  name : String
  role : Option String
  data : ArrowArray
  deriving DecidableEq

structure ArrowBatch where
  numRows : Nat
  columns : List ArrowColumn
  lengths : ∀ c ∈ columns, c.data.length = numRows

inductive DoPutError where
  | timeType (typeName : String)
  | unknownRole (column role : String)
  | tagNotString (column : String)
  | fieldUnread (column : String)
  | notAField (column typeName : String)
  | noTime
  | nullTime (row : Nat)
  | notFinite (column : String) (row : Nat)
  | noField (row : Nat)
  deriving DecidableEq, Repr

/-- `as_str_col` with `StrCol::value`: the validity of a dictionary's values is not
looked at. -/
def strCol : ArrowArray → Option (List (Option String))
  | .utf8 cells => some cells
  | .dictionary keys values => some (keys.map (Option.map fun k => values.getD k ""))
  | _ => none

def timeCol : ArrowArray → Except DoPutError (List (Option Int64))
  | .timestampNs _ cells | .int64 cells => .ok cells
  | data => .error (.timeType data.typeName)

/-- Whether a column is a tag: by its role, else if it has text. -/
def isTag (c : ArrowColumn) : Except DoPutError Bool :=
  match c.role with
  | some role =>
      if role = "tag" then .ok true
      else if role = "field" then .ok false
      else .error (.unknownRole c.name role)
  | none =>
      match c.data with
      | .utf8 _ | .dictionary _ _ | .otherDictionary _ _ => .ok true
      | _ => .ok false

def fieldCol (c : ArrowColumn) : Except DoPutError (List (Option FieldValue)) :=
  match c.data with
  | .float64 cells => .ok (cells.map (Option.map .float))
  | .int64 cells => .ok (cells.map (Option.map .int))
  | .uint64 cells => .ok (cells.map (Option.map .uint))
  | .boolean cells => .ok (cells.map (Option.map .bool))
  | .utf8 _ | .dictionary _ _ | .otherDictionary _ _ =>
      match strCol c.data with
      | some cells => .ok (cells.map (Option.map .str))
      | none => .error (.fieldUnread c.name)
  | data => .error (.notAField c.name data.typeName)

/-- The columns by their roles. -/
structure Roles where
  time : Option (List (Option Int64))
  tags : List (String × List (Option String))
  fields : List (String × List (Option FieldValue))

def addColumn (roles : Roles) (c : ArrowColumn) : Except DoPutError Roles :=
  if c.name = "time" then do
    let time ← timeCol c.data
    .ok { roles with time := some time }
  else do
    if ← isTag c then
      match strCol c.data with
      | some cells => .ok { roles with tags := roles.tags ++ [(c.name, cells)] }
      | none => .error (.tagNotString c.name)
    else
      let cells ← fieldCol c
      .ok { roles with fields := roles.fields ++ [(c.name, cells)] }

def cellAt {α : Type} (cells : List (Option α)) (r : Nat) : Option α := (cells[r]?).join

/-- The fields of a row; a float that line protocol cannot represent is refused. -/
def rowFields (r : Nat) : List (String × List (Option FieldValue)) →
    Except DoPutError (List (String × FieldValue))
  | [] => .ok []
  | (name, cells) :: rest =>
      match cellAt cells r with
      | none => rowFields r rest
      | some v =>
          if isFiniteField v then (rowFields r rest).map ((name, v) :: ·)
          else .error (.notFinite name r)

def rowOf (table : String) (time : List (Option Int64)) (roles : Roles) (r : Nat) :
    Except DoPutError ParsedLine :=
  match cellAt time r with
  | none => .error (.nullTime r)
  | some ts => do
      let tags := roles.tags.filterMap fun t => (cellAt t.2 r).map fun v => (t.1, v)
      let fields ← rowFields r roles.fields
      if fields = [] then .error (.noField r)
      else .ok ⟨table, tags, fields, ts.toInt⟩

/-- `batch_to_rows` -/
def batchToRows (table : String) (batch : ArrowBatch) : Except DoPutError (List ParsedLine) := do
  let roles ← batch.columns.foldlM addColumn ⟨none, [], []⟩
  match roles.time with
  | none => .error .noTime
  | some time => (List.range batch.numRows).mapM (rowOf table time roles)

theorem finite_of_rowFields {r : Nat} {columns : List (String × List (Option FieldValue))}
    {fields : List (String × FieldValue)} (h : rowFields r columns = .ok fields) :
    fields.all (isFiniteField ·.2) = true := by
  induction columns generalizing fields with
  | nil =>
      obtain rfl := Except.ok.inj h
      rfl
  | cons c columns ih =>
      obtain ⟨name, cells⟩ := c
      rw [rowFields] at h
      split at h
      · exact ih h
      · next v _ =>
          split at h
          · next hv =>
              obtain ⟨rest, hrest, rfl⟩ := map_eq_ok.mp h
              rw [List.all_cons, hv, ih hrest]
              rfl
          · cases h

theorem produced_of_rowOf {table : String} {time : List (Option Int64)} {roles : Roles} {r : Nat}
    {row : ParsedLine} (h : rowOf table time roles r = .ok row) : Produced row := by
  unfold rowOf at h
  split at h
  · cases h
  · next ts _ =>
      obtain ⟨fields, hfields, h⟩ := bind_eq_ok.mp h
      split at h
      · cases h
      · next hne =>
          obtain rfl := Except.ok.inj h
          refine ⟨hne, finite_of_rowFields hfields, ?_⟩
          rw [i64, if_pos ⟨ts.le_toInt, ts.toInt_lt⟩]

theorem produced_of_batchToRows {table : String} {batch : ArrowBatch} {rows : List ParsedLine}
    (h : batchToRows table batch = .ok rows) : ∀ row ∈ rows, Produced row := by
  obtain ⟨roles, _, h⟩ := bind_eq_ok.mp h
  split at h
  · cases h
  · intro row hrow
    obtain ⟨r, _, hr⟩ := mem_of_mapM_eq_ok h hrow
    exact produced_of_rowOf hr

end DoPut

section RoundTrip

/-- Floats that are written as their bits: zero as `0`. -/
def digitFloats : FloatOps :=
  ⟨fun text => (parseDigits text).map UInt64.ofNat, fun _ => 0, fun _ => 0⟩

theorem digitFloats_inverse : FloatInverse digitFloats fun bits => padNat 0 bits.toNat where
  decimal bits _ := by
    rw [isDecimal, Bool.and_eq_true]
    refine ⟨by simpa using padNat_ne_nil 0 bits.toNat, List.all_eq_true.mpr fun c hc => ?_⟩
    rw [padNat_isDigit hc]
    rfl
  parse bits _ := by
    change (parseDigits (padNat 0 bits.toNat)).map UInt64.ofNat = some bits
    rw [parseDigits_toDigits, Option.map_some, UInt64.ofNat_toNat]

/-- The rows a producer may hand to the serializer. -/
inductive Handed : List ParsedLine → Prop where
  | remoteWrite {decompress : List UInt8 → Except String (List UInt8)}
      {decode : List UInt8 → Except String WriteRequest} {body : List UInt8}
      {rows : List ParsedLine} :
      decodeRemoteWrite decompress decode body = .ok rows → Handed rows
  | doPut {table : String} {batch : ArrowBatch} {rows : List ParsedLine} :
      batchToRows table batch = .ok rows → Handed rows

theorem Handed.produced {rows : List ParsedLine} (h : Handed rows) :
    ∀ row ∈ rows, Produced row := by
  cases h with
  | remoteWrite h => exact produced_of_decodeRemoteWrite h
  | doPut h => exact produced_of_batchToRows h

/-- The rows of a producer come back from line protocol if and only if each of them is
plain. -/
theorem handed_rows_come_back_iff {fl : FloatOps} {display : UInt64 → List Char}
    (hfl : FloatInverse fl display) {rows : List ParsedLine} (h : Handed rows) :
    parseLines fl (toLineProtocol display rows) 1 0 = .ok rows ↔
      ∀ row ∈ rows, plainRow row = true :=
  parseLines_toLineProtocol hfl h.produced

/-- A label value that ends in a backslash: the value reaches over the fields, and the
timestamp is read as a key. -/
theorem trailing_backslash_lost :
    FloatInverse digitFloats (fun bits => padNat 0 bits.toNat) ∧
      mapWriteRequest ⟨[⟨[⟨"__name__", "disk"⟩, ⟨"path", "C:\\"⟩], [⟨0, 1⟩]⟩]⟩ =
        .ok [⟨"disk", [("path", "C:\\")], [("value", .float 0)], 1000000⟩] ∧
      parseLines digitFloats (toLineProtocol (fun bits => padNat 0 bits.toNat)
          [⟨"disk", [("path", "C:\\")], [("value", .float 0)], 1000000⟩]) 1 0 =
        .error ⟨1, .noValue .field "1000000", "disk,path=C:\\ value=0 1000000"⟩ :=
  ⟨digitFloats_inverse, by decide +kernel, by decide +kernel⟩

/-- A row of each kind of column comes back. -/
theorem put_row_comes_back :
    parseLines digitFloats (toLineProtocol (fun bits => padNat 0 bits.toNat)
        [⟨"log", [("host", "a b")], [("msg", .str "x=\"y\", z"), ("n", .int (-3))], 5⟩]) 1 0 =
      .ok [⟨"log", [("host", "a b")], [("msg", .str "x=\"y\", z"), ("n", .int (-3))], 5⟩] := by
  have hhanded : Handed
      [⟨"log", [("host", "a b")], [("msg", .str "x=\"y\", z"), ("n", .int (-3))], 5⟩] := by
    refine @Handed.doPut "log" ⟨1, [⟨"time", none, .int64 [some 5]⟩,
      ⟨"host", none, .dictionary [some 0] ["a b"]⟩,
      ⟨"msg", some "field", .utf8 [some "x=\"y\", z"]⟩, ⟨"n", none, .int64 [some (-3)]⟩],
      by decide⟩ _ ?_
    decide +kernel
  exact (handed_rows_come_back_iff digitFloats_inverse hhanded).mpr (by decide +kernel)

end RoundTrip

end TimeLake.Producers
