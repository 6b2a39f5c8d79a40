import TimeLake.Admin.Definitions
import TimeLake.Ingest.Producers

/-!
The rows of a rollup on their way to its target (`batches_to_line_protocol` of
`crates/query`): the second writer of line protocol. Its escapes are those of the
serializer of `crates/ingest`, but the measurement is written as it is. So the parser
gives a row back exactly if the row is plain and its target has no delimiter.

What Arrow shows for a cell that is no text is a parameter, as rendering a float is.
-/

namespace TimeLake.Rollup.Lines

open TimeLake.Admin (RollupDef RollupError)
open TimeLake.Ingest
open TimeLake.Library
open TimeLake.Producers (digitFloats digitFloats_inverse)
open TimeLake.Rows (FieldValue)

section Batches

/-- A cell that is not null. -/
inductive Cell where
  | timestamp (ns : Int64)
  | float (bits : UInt64)
  | int (x : Int64)
  | uint (x : UInt64)
  | bool (b : Bool)
  | text (s : String)
  deriving DecidableEq, Repr

inductive Column where
  | timestamps (cells : List (Option Int64))
  | floats (cells : List (Option UInt64))
  | ints (cells : List (Option Int64))
  | uints (cells : List (Option UInt64))
  | bools (cells : List (Option Bool))
  | texts (cells : List (Option String))

def Column.cell (c : Column) (row : Nat) : Option Cell :=
  match c with
  | .timestamps cells => cells[row]?.join.map .timestamp
  | .floats cells => cells[row]?.join.map .float
  | .ints cells => cells[row]?.join.map .int
  | .uints cells => cells[row]?.join.map .uint
  | .bools cells => cells[row]?.join.map .bool
  | .texts cells => cells[row]?.join.map .text

def Column.length : Column → Nat
  | .timestamps cells => cells.length
  | .floats cells => cells.length
  | .ints cells => cells.length
  | .uints cells => cells.length
  | .bools cells => cells.length
  | .texts cells => cells.length

/-- `RecordBatch`: the columns have as many cells as the batch has rows. -/
structure Batch where
  columns : List (String × Column)
  rows : Nat
  aligned : ∀ p ∈ columns, p.2.length = rows

end Batches

section Writer

variable (display : UInt64 → List Char) (render : Cell → String)

/-- `array_value_to_string`. -/
def cellText : Cell → String
  | .text s => s
  | c => render c

/-- `lp_escape_key` -/
def lpEscapeKey (s : List Char) : List Char :=
  s.flatMap fun c => if c = ',' || c = '=' || c = ' ' then ['\\', c] else [c]

/-- `lp_escape_str` -/
def lpEscapeStr (s : List Char) : List Char :=
  s.flatMap fun c => if c = '"' || c = '\\' then ['\\', c] else [c]

/-- The column `time` and where it stands. -/
def timeColumn (b : Batch) : Except String (Nat × List (Option Int64)) :=
  match b.columns.findIdx? fun p => p.1 = "time" with
  | none => .error "rollup result has no time column"
  | some i =>
      match b.columns[i]?.map Prod.snd with
      | some (.timestamps cells) => .ok (i, cells)
      | _ => .error "rollup time column is not Timestamp(nanosecond)"

/-- The columns beside the time that have a value in the row, tags or fields. -/
def cellsOf (tags : List String) (b : Batch) (timeIdx row : Nat) (isTag : Bool) :
    List (String × Cell) :=
  b.columns.zipIdx.filterMap fun p =>
    if p.2 = timeIdx || tags.contains p.1.1 ≠ isTag then none
    else (p.1.2.cell row).map fun c => (p.1.1, c)

def valueText : Cell → Option (List Char)
  | .float bits => if Ingest.isFinite bits then some (display bits) else none
  | .int x => some (padInt 0 x.toInt ++ ['i'])
  | .uint x => some (padNat 0 x.toNat ++ ['u'])
  | .bool b => some [if b then 't' else 'f']
  | c => some ('"' :: (lpEscapeStr (cellText render c).toList ++ ['"']))

/-- One more field behind a comma, the first one without. -/
def pushField (fields pair : List Char) : List Char :=
  if fields = [] then pair else fields ++ ',' :: pair

/-- A row without its line end; a row without a time or a field gives none. -/
def rowLine (measurement : String) (tags : List String) (b : Batch) (timeIdx row : Nat)
    (time : Option Int64) : Option (List Char) :=
  time.bind fun time =>
    let tagText := (cellsOf tags b timeIdx row true).flatMap fun p =>
      ',' :: (lpEscapeKey p.1.toList ++ '=' :: lpEscapeKey (cellText render p.2).toList)
    let fields := (cellsOf tags b timeIdx row false).foldl (fun fields p =>
      match valueText display render p.2 with
      | none => fields
      | some val => pushField fields (lpEscapeKey p.1.toList ++ '=' :: val)) []
    if fields = [] then none
    else some (measurement.toList ++ (tagText ++ ' ' :: (fields ++ ' ' :: padInt 0 time.toInt)))

def batchText (measurement : String) (tags : List String) (b : Batch) :
    Except String (List Char) :=
  (timeColumn b).map fun p =>
    (List.range b.rows).flatMap fun row =>
      ((rowLine display render measurement tags b p.1 row p.2[row]?.join).map (· ++ ['\n'])).getD []

/-- `batches_to_line_protocol` -/
def batchesToLineProtocol (measurement : String) (tags : List String) (batches : List Batch) :
    Except String String :=
  (batches.mapM (batchText display render measurement tags)).map fun texts =>
    String.ofList texts.flatten

end Writer

section Rows

variable (render : Cell → String)

/-- The value of a field, with its type; a float that is infinite or no number is none. -/
def fieldValue : Cell → Option FieldValue
  | .float bits => if Ingest.isFinite bits then some (.float bits) else none
  | .int x => some (.int x)
  | .uint x => some (.uint x)
  | .bool b => some (.bool b)
  | c => some (.str (cellText render c))

/-- The row that a result row stands for. -/
def resultRow (target : String) (tags : List String) (b : Batch) (timeIdx row : Nat)
    (time : Option Int64) : Option ParsedLine :=
  time.bind fun time =>
    let fields := (cellsOf tags b timeIdx row false).filterMap fun p =>
      (fieldValue render p.2).map fun v => (p.1, v)
    if fields = [] then none
    else some ⟨target,
      (cellsOf tags b timeIdx row true).map fun p => (p.1, cellText render p.2),
      fields, time.toInt⟩

/-- The rows of a batch with a time and a field, in order. -/
def batchRows (target : String) (tags : List String) (b : Batch) : List ParsedLine :=
  match timeColumn b with
  | .error _ => []
  | .ok p => (List.range b.rows).filterMap fun row =>
      resultRow render target tags b p.1 row p.2[row]?.join

def resultRows (target : String) (tags : List String) (batches : List Batch) : List ParsedLine :=
  batches.flatMap (batchRows render target tags)

end Rows

/-- A name that a measurement can be written as: nothing in it ends it. -/
def bare (table : String) : Bool := table.toList.all fun c => c ≠ ',' && c ≠ ' '

section Measurement

variable {d : Char} {t : List Char}

/-- A name that is not escaped does not come back with more backslashes in front. -/
theorem takeEscaped_raw_ne_more (hd : d = ',' ∨ d = ' ') (s : List Char) (k : Nat) :
    (takeEscaped ',' (s ++ d :: t)).1 ≠ List.replicate (k + 1) '\\' ++ s := by
  have hd' : d ≠ '\\' ∧ escapable d = true := delimiter_ne_backslash (p := .value) hd
  induction s using backslash_induction generalizing k with
  | nil =>
      rw [List.nil_append, takeEscaped_stop hd hd'.1]
      simp
  | last =>
      intro heq
      change (takeEscaped ',' ('\\' :: d :: t)).1 = _ at heq
      rw [takeEscaped_pair hd'.2, List.replicate_succ, List.cons_append] at heq
      exact hd'.1 (List.cons.inj heq).1
  | plain c s hc ih =>
      intro heq
      by_cases hstop : c = ',' ∨ c = ' '
      · rw [List.cons_append, takeEscaped_stop hstop hc] at heq
        simp at heq
      · obtain ⟨hcomma, hspace⟩ := not_or.mp hstop
        rw [List.cons_append, takeEscaped_plain (.inl hc) hcomma hspace, List.replicate_succ,
          List.cons_append] at heq
        exact hc (List.cons.inj heq).1
  | two s ih =>
      intro heq
      change (takeEscaped ',' ('\\' :: '\\' :: (s ++ d :: t))).1 = _ at heq
      rw [takeEscaped_pair rfl, List.replicate_succ, List.cons_append] at heq
      apply ih (k + 1)
      rw [(List.cons.inj heq).2, List.replicate_succ', List.replicate_succ']
      simp
  | pair n s hn ih =>
      intro heq
      change (takeEscaped ',' ('\\' :: n :: (s ++ d :: t))).1 = _ at heq
      cases hesc : escapable n with
      | true =>
          rw [takeEscaped_pair hesc, List.replicate_succ, List.cons_append] at heq
          exact hn (List.cons.inj heq).1
      | false =>
          have hplain : n ≠ ',' ∧ n ≠ ' ' := by
            constructor <;>
              (rintro rfl; cases hesc)
          rw [takeEscaped_plain (.inr ⟨n, _, rfl, hesc⟩) (by decide) (by decide),
            takeEscaped_plain (.inl hn) hplain.1 hplain.2, List.replicate_succ,
            List.cons_append] at heq
          have htail := (List.cons.inj heq).2
          cases k with
          | zero => exact hn (List.cons.inj htail).1
          | succ k =>
              rw [List.replicate_succ, List.cons_append] at htail
              exact hn (List.cons.inj htail).1

/-- A name that comes back as it was written is bare and keeps its backslashes. -/
theorem bare_of_takeEscaped (hd : d = ',' ∨ d = ' ') {s : List Char}
    (h : (takeEscaped ',' (s ++ d :: t)).1 = s) :
    (∀ c ∈ s, c ≠ ',' ∧ c ≠ ' ') ∧ keepsBackslashes .measurement s = true := by
  have hd' : d ≠ '\\' ∧ escapable d = true := delimiter_ne_backslash (p := .value) hd
  induction s using backslash_induction with
  | nil => exact ⟨fun c hc => absurd hc List.not_mem_nil, rfl⟩
  | last =>
      change (takeEscaped ',' ('\\' :: d :: t)).1 = _ at h
      rw [takeEscaped_pair hd'.2] at h
      exact absurd (List.cons.inj h).1 hd'.1
  | plain c s hc ih =>
      by_cases hstop : c = ',' ∨ c = ' '
      · rw [List.cons_append, takeEscaped_stop hstop hc] at h
        cases h
      · obtain ⟨hcomma, hspace⟩ := not_or.mp hstop
        rw [List.cons_append, takeEscaped_plain (.inl hc) hcomma hspace] at h
        obtain ⟨hall, hkeeps⟩ := ih (List.cons.inj h).2
        rw [keepsBackslashes_cons hc]
        exact ⟨List.forall_mem_cons.mpr ⟨⟨hcomma, hspace⟩, hall⟩, hkeeps⟩
  | two s ih =>
      change (takeEscaped ',' ('\\' :: '\\' :: (s ++ d :: t))).1 = _ at h
      rw [takeEscaped_pair rfl] at h
      exact absurd (List.cons.inj h).2 (takeEscaped_raw_ne_more hd s 0)
  | pair n s hn ih =>
      change (takeEscaped ',' ('\\' :: n :: (s ++ d :: t))).1 = _ at h
      cases hesc : escapable n with
      | true =>
          rw [takeEscaped_pair hesc] at h
          exact absurd (List.cons.inj h).1 hn
      | false =>
          have hplain : (n ≠ ',' ∧ n ≠ ' ') ∧ n ≠ '=' := by
            refine ⟨⟨?_, ?_⟩, ?_⟩ <;>
              (rintro rfl; cases hesc)
          rw [takeEscaped_plain (.inr ⟨n, _, rfl, hesc⟩) (by decide) (by decide),
            takeEscaped_plain (.inl hn) hplain.1.1 hplain.1.2] at h
          obtain ⟨hall, hkeeps⟩ := ih (List.cons.inj (List.cons.inj h).2).2
          rw [keepsBackslashes_pair hn, hkeeps, Bool.and_true]
          refine ⟨List.forall_mem_cons.mpr ⟨by decide,
            List.forall_mem_cons.mpr ⟨hplain.1, hall⟩⟩, ?_⟩
          simp [Place.allowsBehind, Place.stop, hn, hplain]

end Measurement

section Text

variable (display : UInt64 → List Char) (render : Cell → String)

/-- A row as it is written: the measurement without escapes. -/
def rawLine (row : ParsedLine) : List Char :=
  row.table.toList ++ (tagsText row.tags ++ ' ' ::
    (fieldsText display row.fields ++ ' ' :: padInt 0 row.timestampNs))

/-- Its escapes are the serializer's of `crates/ingest`. -/
theorem lpEscapeKey_eq {p : Place} (hp : p.escapeEquals = true) (s : List Char) :
    lpEscapeKey s = escapeInto p s := by
  rw [lpEscapeKey, escapeInto]
  congr 1
  funext c
  simp only [Place.escapes, hp, Bool.true_and]
  by_cases hcomma : c = ',' <;> by_cases hequals : c = '=' <;> by_cases hspace : c = ' ' <;>
    simp [hcomma, hequals, hspace]

theorem tagsText_eq (cells : List (String × Cell)) :
    (cells.flatMap fun p =>
      ',' :: (lpEscapeKey p.1.toList ++ '=' :: lpEscapeKey (cellText render p.2).toList)) =
      tagsText (cells.map fun p => (p.1, cellText render p.2)) := by
  induction cells with
  | nil => rfl
  | cons p cells ih =>
      rw [List.flatMap_cons, ih, List.map_cons, tagsText, lpEscapeKey_eq (p := .key) rfl,
        lpEscapeKey_eq (p := .value) rfl]
      simp

theorem valueText_eq (c : Cell) :
    valueText display render c = (fieldValue render c).map (fieldText display) := by
  cases c with
  | float bits =>
      rw [valueText, fieldValue]
      split <;> rfl
  | timestamp | int | uint | bool | text => rfl

theorem pairText_ne_nil (p : String × FieldValue) : pairText display p ≠ [] := by
  simp [pairText]

theorem fieldsText_concat (fields : List (String × FieldValue)) (p : String × FieldValue) :
    pushField (fieldsText display fields) (pairText display p) =
      fieldsText display (fields ++ [p]) := by
  induction fields with
  | nil => rfl
  | cons q fields ih =>
      cases fields with
      | nil =>
          rw [fieldsText, pushField, if_neg (pairText_ne_nil display q)]
          rfl
      | cons r fields =>
          have hne : ∀ rest, fieldsText display (r :: rest) ≠ [] := by
            intro rest
            cases rest <;> simp [fieldsText, pairText]
          rw [pushField, if_neg (hne fields)] at ih
          rw [fieldsText, pushField, if_neg (by simp), List.append_assoc, List.cons_append, ih]
          rfl

/-- The fields as they are pushed. -/
theorem foldl_pushField (cells : List (String × Cell)) (fields : List (String × FieldValue)) :
    cells.foldl (fun fields p =>
      match valueText display render p.2 with
      | none => fields
      | some val => pushField fields (lpEscapeKey p.1.toList ++ '=' :: val))
        (fieldsText display fields) =
      fieldsText display (fields ++ cells.filterMap fun p =>
        (fieldValue render p.2).map fun v => (p.1, v)) := by
  induction cells generalizing fields with
  | nil => simp
  | cons p cells ih =>
      rw [List.foldl_cons, valueText_eq]
      cases hvalue : fieldValue render p.2 with
      | none =>
          simp only [Option.map_none]
          rw [ih, List.filterMap_cons_none (by rw [hvalue]; rfl)]
      | some v =>
          simp only [Option.map_some]
          have hpair : lpEscapeKey p.1.toList ++ '=' :: fieldText display v =
              pairText display (p.1, v) := by
            rw [lpEscapeKey_eq (p := .key) rfl]
            rfl
          rw [hpair, fieldsText_concat, ih,
            List.filterMap_cons_some (b := (p.1, v)) (by rw [hvalue]; rfl), List.append_assoc]
          rfl

theorem fieldsText_eq_nil {fields : List (String × FieldValue)} :
    fieldsText display fields = [] ↔ fields = [] := by
  cases fields with
  | nil => exact ⟨fun _ => rfl, fun _ => rfl⟩
  | cons p fields => cases fields <;> simp [fieldsText, pairText]

theorem rowLine_eq (target : String) (tags : List String) (b : Batch) (timeIdx row : Nat)
    (time : Option Int64) :
    rowLine display render target tags b timeIdx row time =
      (resultRow render target tags b timeIdx row time).map (rawLine display) := by
  cases time with
  | none => rfl
  | some time =>
      have hfold := foldl_pushField display render (cellsOf tags b timeIdx row false) []
      rw [List.nil_append] at hfold
      change _ = fieldsText display _ at hfold
      simp only [rowLine, resultRow, Option.bind_some, tagsText_eq]
      simp only [fieldsText] at hfold
      rw [hfold]
      simp only [fieldsText_eq_nil]
      split
      · rfl
      · rfl

theorem flatMap_getD {α : Type} (rows : List α) (f : α → Option ParsedLine) :
    (rows.flatMap fun row =>
      (((f row).map (rawLine display)).map (· ++ ['\n'])).getD []) =
      (rows.filterMap f).flatMap fun row => rawLine display row ++ ['\n'] := by
  induction rows with
  | nil => rfl
  | cons row rows ih =>
      rw [List.flatMap_cons, ih]
      cases hrow : f row with
      | none =>
          rw [List.filterMap_cons_none hrow]
          rfl
      | some r =>
          rw [List.filterMap_cons_some hrow]
          rfl

/-- The text of the batches is the lines of their rows. -/
theorem batchesToLineProtocol_eq {target : String} {tags : List String} {batches : List Batch}
    (hb : ∀ b ∈ batches, ∃ p, timeColumn b = .ok p) :
    batchesToLineProtocol display render target tags batches =
      .ok (String.ofList ((resultRows render target tags batches).flatMap fun row =>
        rawLine display row ++ ['\n'])) := by
  have hbatch : ∀ b ∈ batches, batchText display render target tags b =
      .ok ((batchRows render target tags b).flatMap fun row => rawLine display row ++ ['\n']) := by
    intro b hmem
    obtain ⟨p, hp⟩ := hb b hmem
    simp only [batchText, batchRows, hp, Except.map, rowLine_eq, flatMap_getD]
  have hall : batches.mapM (batchText display render target tags) =
      .ok (batches.map fun b => (batchRows render target tags b).flatMap fun row =>
        rawLine display row ++ ['\n']) :=
    mapM_eq_ok.mpr (List.forall₂_map_right_iff.mpr (List.forall₂_same.mpr hbatch))
  rw [batchesToLineProtocol, hall, resultRows, List.flatMap_assoc]
  rfl

end Text

section Reading

variable {fl : FloatOps} {display : UInt64 → List Char}

/-- The parser gives the row back from its line among others. -/
def comesBack (row : ParsedLine) : Bool := bare row.table && plainRow row

theorem rawLine_of_bare {row : ParsedLine} (h : bare row.table = true) :
    rawLine display row = lineText display row := by
  have hsame : escapeInto .measurement row.table.toList = row.table.toList := by
    rw [bare, List.all_eq_true] at h
    rw [escapeInto]
    have hid : ∀ c ∈ row.table.toList,
        (if Place.measurement.escapes c then ['\\', c] else [c]) = [c] := by
      intro c hc
      have hplain := h c hc
      simp only [Bool.and_eq_true, decide_eq_true_eq] at hplain
      rw [if_neg]
      simp [Place.escapes, Place.escapeEquals, hplain]
    rw [List.flatMap_congr hid, List.flatMap_singleton']
  rw [rawLine, lineText, hsame]

theorem rdropWhile_rawLine (row : ParsedLine) :
    (rawLine display row).rdropWhile (· = '\r') = rawLine display row := by
  have hfront := rdropWhile_number (row.table.toList ++ (tagsText row.tags ++ ' ' ::
    (fieldsText display row.fields ++ [' ']))) row.timestampNs
  simpa [rawLine] using hfront

theorem rawLine_unbroken (hfl : FloatInverse fl display) {row : ParsedLine}
    (hrow : Produced row) (h : oneLine row.table row.tags row.fields = true) :
    '\n' ∉ rawLine display row := by
  simp only [oneLine, Bool.and_eq_true] at h
  simp only [rawLine, List.mem_cons, List.mem_append, not_or]
  have htable : '\n' ∉ row.table.toList := by simpa [unbroken] using h.1.1
  exact ⟨htable, tagsText_unbroken h.1.2, by decide,
    fieldsText_unbroken hfl hrow.finite h.2, by decide, padInt_unbroken _⟩

/-- A row that is read from its line has a bare measurement. -/
theorem bare_of_readLine {row : ParsedLine} {l : Line}
    (h : readLine fl 1 (rawLine display row) = .ok l) (htable : l.table = row.table) :
    bare row.table = true := by
  obtain ⟨hne, tags', rest, fields', after, timestamp, htags, hfields', _, rfl⟩ :=
    readLine_ok.mp h
  obtain ⟨d, tail, hd, hnext⟩ := tagsText_delimiter row.tags
    (fieldsText display row.fields ++ ' ' :: padInt 0 row.timestampNs)
  rw [rawLine, hnext] at htable
  have htable' := congrArg String.toList htable
  rw [String.toList_ofList] at htable'
  obtain ⟨hall, -⟩ := bare_of_takeEscaped hd htable'
  rw [bare, List.all_eq_true]
  intro c hc
  simpa using hall c hc

/-- Of lines that give as many rows as they are, none is skipped. -/
theorem bare_of_readLinesFrom (hfl : FloatInverse fl display) {rows : List ParsedLine}
    (hrows : ∀ row ∈ rows, Produced row)
    (hlines : ∀ row ∈ rows, oneLine row.table row.tags row.fields = true) (no : Nat)
    (h : (readLinesFrom fl 1 no (rows.map (rawLine display))).map (List.map (Line.stamp 0)) =
      .ok rows) : ∀ row ∈ rows, bare row.table = true := by
  induction rows generalizing no with
  | nil => exact fun _ hrow => absurd hrow List.not_mem_nil
  | cons row rows ih =>
      have hrest : ∀ row ∈ rows, Produced row := fun r hr => hrows r (.tail _ hr)
      have hlinesRest := fun r hr => hlines r (List.mem_cons_of_mem row hr)
      obtain ⟨ls, hls, heq⟩ := map_eq_ok.mp h
      rw [List.map_cons, readLinesFrom, rdropWhile_rawLine] at hls
      split at hls
      · have hunbroken : ∀ line ∈ rows.map (rawLine display), '\n' ∉ line := by
          intro line hline
          obtain ⟨r, hr, rfl⟩ := List.mem_map.mp hline
          exact rawLine_unbroken hfl (hrest r hr) (hlinesRest r hr)
        have hlen := (oneLine_of_readLinesFrom hls hunbroken).1
        have hlen' := congrArg List.length heq
        simp only [List.length_map, List.length_cons] at hlen hlen'
        omega
      · split at hls
        · cases hls
        · next l hline =>
            obtain ⟨more, hmore, rfl⟩ := map_eq_ok.mp hls
            obtain ⟨hstamp, hmap⟩ := List.cons.inj heq
            have hhead := bare_of_readLine hline (by rw [← hstamp]; rfl)
            exact List.forall_mem_cons.mpr ⟨hhead,
              ih hrest hlinesRest (no + 1) (map_eq_ok.mpr ⟨more, hmore, hmap⟩)⟩

theorem splitLines_rawText (hfl : FloatInverse fl display) {rows : List ParsedLine}
    (hrows : ∀ row ∈ rows, Produced row)
    (hlines : ∀ row ∈ rows, oneLine row.table row.tags row.fields = true) :
    splitLines (rows.flatMap fun row => rawLine display row ++ ['\n']) =
      rows.map (rawLine display) := by
  induction rows with
  | nil => rfl
  | cons row rows ih =>
      have hunbroken := rawLine_unbroken hfl (hrows row List.mem_cons_self)
        (hlines row List.mem_cons_self)
      rw [List.flatMap_cons, List.append_assoc, List.singleton_append, splitLines_cons hunbroken,
        List.map_cons, ih (fun r hr => hrows r (.tail _ hr)) fun r hr => hlines r (.tail _ hr)]

/-- Rows come back from the lines they are written as if and only if each one does. -/
theorem parseLines_rawText (hfl : FloatInverse fl display) {rows : List ParsedLine}
    (hrows : ∀ row ∈ rows, Produced row) :
    parseLines fl (String.ofList (rows.flatMap fun row => rawLine display row ++ ['\n'])) 1 0 =
      .ok rows ↔ ∀ row ∈ rows, comesBack row = true := by
  have hsame : (∀ row ∈ rows, bare row.table = true) →
      String.ofList (rows.flatMap fun row => rawLine display row ++ ['\n']) =
        toLineProtocol display rows := by
    intro hbare
    rw [toLineProtocol]
    exact congrArg String.ofList (List.flatMap_congr fun row hrow => by
      rw [rawLine_of_bare (hbare row hrow)])
  constructor
  · intro h
    have hlines : ∀ row ∈ rows, oneLine row.table row.tags row.fields = true := by
      intro row hrow
      obtain ⟨ls, hls, heq⟩ := map_eq_ok.mp h
      rw [← heq] at hrow
      obtain ⟨l, hl, rfl⟩ := List.mem_map.mp hrow
      exact (oneLine_of_readLinesFrom hls fun _ => splitLines_unbroken).2 l hl
    have hbare : ∀ row ∈ rows, bare row.table = true := by
      refine bare_of_readLinesFrom hfl hrows hlines 1 ?_
      rw [← splitLines_rawText hfl hrows hlines]
      rwa [parseLines, readLines, String.toList_ofList] at h
    rw [hsame hbare, parseLines_toLineProtocol hfl hrows] at h
    intro row hrow
    rw [comesBack, hbare row hrow, h row hrow]
    rfl
  · intro h
    have hboth : ∀ row ∈ rows, bare row.table = true ∧ plainRow row = true := by
      intro row hrow
      simpa [comesBack] using h row hrow
    rw [hsame fun row hrow => (hboth row hrow).1, parseLines_toLineProtocol hfl hrows]
    exact fun row hrow => (hboth row hrow).2

end Reading

section Results

/-- A row whose line is read as it: the target neither holds a delimiter nor opens a
comment, no key is the reserved one, no text breaks the line, and every backslash is
followed by a character that may follow it. -/
def intact (row : ParsedLine) : Bool :=
  bare row.table && row.table.toList.head? ≠ some '#' &&
    keepsBackslashes .measurement row.table.toList && row.tags.all plainTag &&
    row.fields.all plainKey && oneLine row.table row.tags row.fields

theorem comesBack_eq {row : ParsedLine} (hne : row.table ≠ "") :
    comesBack row = intact row := by
  have hname : decide (row.table ≠ "") = true := decide_eq_true hne
  simp only [comesBack, plainRow, readsBack, intact, hname, Bool.true_and]
  cases bare row.table <;> cases keepsBackslashes .measurement row.table.toList <;>
    cases row.tags.all plainTag <;> cases row.fields.all plainKey <;>
    cases oneLine row.table row.tags row.fields <;> simp

theorem target_ne_of_validate {d : RollupDef} (h : d.validate = .ok ()) : d.target ≠ "" := by
  intro hempty
  have hblank : Admin.isBlank d.target = true := by
    rw [hempty]
    rfl
  unfold RollupDef.validate at h
  rw [if_pos hblank] at h
  split at h
  · cases h
  · split at h
    · cases h
    · split at h <;> cases h

theorem produced_of_resultRow {render : Cell → String} {target : String} {tags : List String}
    {b : Batch} {timeIdx row : Nat} {time : Option Int64} {r : ParsedLine}
    (h : resultRow render target tags b timeIdx row time = some r) :
    r.table = target ∧ Produced r := by
  obtain ⟨time, rfl, hrow⟩ := Option.bind_eq_some_iff.mp h
  dsimp only at hrow
  split at hrow
  · cases hrow
  · next hne =>
      obtain rfl := Option.some.inj hrow
      refine ⟨rfl, hne, ?_, if_pos ⟨Int64.le_toInt time, Int64.toInt_lt time⟩⟩
      rw [List.all_eq_true]
      intro p hp
      obtain ⟨q, _, hq⟩ := List.mem_filterMap.mp hp
      obtain ⟨v, hv, rfl⟩ := Option.map_eq_some_iff.mp hq
      unfold fieldValue at hv
      split at hv
      · next bits _ =>
          split at hv
          · next hfinite =>
              obtain rfl := Option.some.inj hv
              exact hfinite
          · cases hv
      all_goals
        obtain rfl := Option.some.inj hv
        rfl

theorem produced_of_resultRows {render : Cell → String} {target : String} {tags : List String}
    {batches : List Batch} {r : ParsedLine} (h : r ∈ resultRows render target tags batches) :
    r.table = target ∧ Produced r := by
  obtain ⟨b, _, hr⟩ := List.mem_flatMap.mp h
  unfold batchRows at hr
  split at hr
  · cases hr
  · obtain ⟨row, _, hrow⟩ := List.mem_filterMap.mp hr
    exact produced_of_resultRow hrow

/-- The rows of a rollup are written for every list of tags and all result batches that
have a time, and the parser gives exactly them back if and only if each of them is
intact. -/
theorem rollup_rows_come_back_iff {fl : FloatOps} {display : UInt64 → List Char}
    (hfl : FloatInverse fl display) (render : Cell → String) {d : RollupDef}
    (hd : d.validate = .ok ()) (tags : List String) {batches : List Batch}
    (hb : ∀ b ∈ batches, ∃ p, timeColumn b = .ok p) :
    ∃ text, batchesToLineProtocol display render d.target tags batches = .ok text ∧
      (parseLines fl text 1 0 = .ok (resultRows render d.target tags batches) ↔
        ∀ row ∈ resultRows render d.target tags batches, intact row = true) := by
  refine ⟨_, batchesToLineProtocol_eq display render hb, ?_⟩
  rw [parseLines_rawText hfl fun row hrow => (produced_of_resultRows hrow).2]
  refine forall₂_congr fun row hrow => ?_
  rw [comesBack_eq]
  rw [(produced_of_resultRows hrow).1]
  exact target_ne_of_validate hd

/-- The hourly mean of a metric. -/
def hourly : RollupDef :=
  ⟨"poc", "hourly", "cpu", "cpu_1h", 3600, 3600, [],
    [⟨.avg, "usage", "usage_avg", none⟩], none⟩

/-- One bucket of one host. -/
def hostBatch (host : String) : Batch where
  columns := [("time", .timestamps [some 3600000000000]), ("host", .texts [some host]),
    ("usage_avg", .floats [some 7])]
  rows := 1
  aligned := by simp [Column.length]

theorem hourly_row_comes_back :
    ∃ text, batchesToLineProtocol (fun bits => padNat 0 bits.toNat) (fun _ => "") "cpu_1h"
        ["host"] [hostBatch "rack 4, left"] = .ok text ∧
      parseLines digitFloats text 1 0 = .ok
        [⟨"cpu_1h", [("host", "rack 4, left")], [("usage_avg", .float 7)], 3600000000000⟩] := by
  have htime : ∀ b ∈ [hostBatch "rack 4, left"], ∃ p, timeColumn b = .ok p := by
    intro b hb
    rw [List.mem_singleton.mp hb]
    exact ⟨_, rfl⟩
  obtain ⟨text, htext, hiff⟩ := rollup_rows_come_back_iff digitFloats_inverse (fun _ => "")
    (d := hourly) (by decide +kernel) ["host"] htime
  have hrows : resultRows (fun _ => "") hourly.target ["host"] [hostBatch "rack 4, left"] =
      [⟨"cpu_1h", [("host", "rack 4, left")], [("usage_avg", .float 7)], 3600000000000⟩] := by
    decide +kernel
  rw [hrows] at hiff
  exact ⟨text, htext, hiff.mpr (by decide +kernel)⟩

/-- The backslash at the end of a tag takes the space before the fields along. -/
theorem trailing_backslash_not_read :
    ¬∀ (fl : FloatOps) (display : UInt64 → List Char) (render : Cell → String) (d : RollupDef)
      (tags : List String) (batches : List Batch) (text : String), FloatInverse fl display →
      d.validate = .ok () → (∀ b ∈ batches, ∃ p, timeColumn b = .ok p) →
      batchesToLineProtocol display render d.target tags batches = .ok text →
      parseLines fl text 1 0 = .ok (resultRows render d.target tags batches) := by
  intro hall
  have htime : ∀ b ∈ [hostBatch "C:\\"], ∃ p, timeColumn b = .ok p := by
    intro b hb
    rw [List.mem_singleton.mp hb]
    exact ⟨_, rfl⟩
  have hback := hall digitFloats _ (fun _ => "") hourly ["host"] _ _ digitFloats_inverse
    (by decide +kernel) htime (batchesToLineProtocol_eq _ _ htime)
  rw [parseLines_rawText digitFloats_inverse fun row hrow => (produced_of_resultRows hrow).2]
    at hback
  exact absurd hback (by decide +kernel)

end Results

end TimeLake.Rollup.Lines
