import TimeLake.Ingest.Node

/-!
What a node knows of each table, as functions of the table: the types of the
field columns, the names of the tag columns, the registry entry and the rows.
`Tables` forgets how the columns are laid out and how the maps are kept, and
the steps of `apply` act on it directly: `applyLines_tables` is the
refinement. Everything later about replay and about concurrent writes is
proved of `Tables`.
-/

namespace TimeLake.Ingest

open TimeLake.Library TimeLake.Rows TimeLake.Catalog TimeLake.Wal

@[ext] structure Tables where
  types : TableKey → Types
  tagNames : TableKey → List String
  schemas : TableKey → Option Schema
  rows : TableKey → List Row

def Node.tables (s : Node) : Tables where
  types := fun key => typesOf (s.buffer key).1.fields
  tagNames := fun key => (s.buffer key).1.tagNames
  schemas := fun key => s.schemas.lookup key
  rows := fun key => (s.buffer key).1.rows

namespace Tables

def established (t : Tables) (key : TableKey) : Established :=
  fun name => (t.schemas key).bind fun schema => Schema.types schema name

/-- A line its table has admitted. -/
def append (fl : FloatOps) (key : TableKey) (types : Types) (line : ParsedLine)
    (t : Tables) : Tables where
  types := Function.update t.types key types
  tagNames := Function.update t.tagNames key (addTags (t.tagNames key) line.tags)
  schemas := t.schemas
  rows := Function.update t.rows key (t.rows key ++ [line.row fl types])

/-- The lines up to the first one refused, and whether there was none. -/
def appendLines (fl : FloatOps) (db : String) (est : String → Established) :
    List ParsedLine → Tables → Tables × Bool
  | [], t => (t, true)
  | line :: rest, t =>
      match admitFields (est line.table) (t.types (db, line.table)) line.fields with
      | none => (t, false)
      | some types => appendLines fl db est rest (t.append fl (db, line.table) types line)

def columns (t : Tables) (key : TableKey) : Schema := columnsOf (t.tagNames key) (t.types key)

def known (t : Tables) (key : TableKey) : Nat := ((t.schemas key).map List.length).getD 0

def noteColumns (t : Tables) (key : TableKey) : Tables × Bool :=
  if t.known key < (t.columns key).length then
    match schemaUnion (t.schemas key) (t.columns key) with
    | .ok merged => ({ t with schemas := Function.update t.schemas key (some merged) }, true)
    | .error _ => (t, false)
  else (t, true)

def noteAll : List TableKey → Tables → Tables × Bool
  | [], t => (t, true)
  | key :: rest, t =>
      match t.noteColumns key with
      | (t, false) => (t, false)
      | (t, true) => noteAll rest t

def applyLines (fl : FloatOps) (t : Tables) (db : String) (lines : List ParsedLine) :
    Tables × Bool :=
  match appendLines fl db (fun table => t.established (db, table)) lines t with
  | (t, false) => (t, false)
  | (t, true) => noteAll (Node.touched db lines) t

end Tables

section Refinement

variable {s : Node}

/-- A result of a node and one of its tables say the same. -/
def Agree {ε α : Type} (r : Node × Except ε α) (t : Tables × Bool) : Prop :=
  r.1.tables = t.1 ∧ (t.2 = true ↔ ∃ a, r.2 = .ok a)

theorem tables_insert {key : TableKey} {b : Buffer} {t : Tables}
    (htypes : t.types = Function.update s.tables.types key (typesOf b.1.fields))
    (htags : t.tagNames = Function.update s.tables.tagNames key b.1.tagNames)
    (hschemas : t.schemas = s.tables.schemas)
    (hrows : t.rows = Function.update s.tables.rows key b.1.rows) :
    ({ s with buffers := s.buffers.insert key b } : Node).tables = t := by
  have hbuffer : ∀ j, ({ s with buffers := s.buffers.insert key b } : Node).buffer j =
      if j = key then b else s.buffer j := by
    intro j
    by_cases hj : j = key
    · subst hj
      simp [Node.buffer]
    · simp [Node.buffer, AList.lookup_insert_ne hj, hj]
  ext1
  · rw [htypes]
    funext j
    by_cases hj : j = key <;> simp [Node.tables, hbuffer, Function.update_apply, hj]
  · rw [htags]
    funext j
    by_cases hj : j = key <;> simp [Node.tables, hbuffer, Function.update_apply, hj]
  · rw [hschemas]
    rfl
  · rw [hrows]
    funext j
    by_cases hj : j = key <;> simp [Node.tables, hbuffer, Function.update_apply, hj]

theorem appendLines_tables (fl : FloatOps) (db : String) (est : String → Established)
    (lines : List ParsedLine) (s : Node) :
    Agree (s.appendLines fl db est lines) (s.tables.appendLines fl db est lines) := by
  induction lines generalizing s with
  | nil => exact ⟨rfl, by simp [Node.appendLines, Tables.appendLines]⟩
  | cons line rest ih =>
      have hspec := append_spec fl (est line.table)
        (s.buffer (db, line.table)).2 line
      simp only [Node.appendLines, Tables.appendLines, Buffer.append]
      change match admitFields (est line.table) (s.tables.types (db, line.table)) line.fields with
        | none => _
        | some types => _ at hspec
      split at hspec
      · obtain ⟨e, happend⟩ := hspec
        simp only [happend]
        refine ⟨tables_insert ?_ ?_ rfl ?_, by simp⟩
        · exact (Function.update_eq_self _ _).symm
        · exact (Function.update_eq_self _ _).symm
        · exact (Function.update_eq_self _ _).symm
      · next types _ =>
          obtain ⟨b, happend, hwf, htypes, htags, hrows⟩ := hspec
          simp only [happend]
          have htables : ({ s with buffers := s.buffers.insert (db, line.table) ⟨b, hwf⟩ } :
              Node).tables = s.tables.append fl (db, line.table) types line := by
            refine tables_insert ?_ ?_ rfl ?_
            · rw [Tables.append, htypes]
            · rw [Tables.append, TableBuffer.tagNames, htags]
              rfl
            · rw [Tables.append, hrows]
              rfl
          rw [← htables]
          exact ih _

theorem noteColumns_tables (s : Node) (key : TableKey) :
    Agree (s.noteColumns key) (s.tables.noteColumns key) := by
  unfold Node.noteColumns Tables.noteColumns
  change Agree (if s.tables.known key < (s.tables.columns key).length then _ else _) _
  split
  · change Agree (match schemaUnion (s.tables.schemas key) (s.tables.columns key) with
      | .ok merged => _
      | .error e => _) _
    cases schemaUnion (s.tables.schemas key) (s.tables.columns key) with
    | error e => exact ⟨rfl, by simp⟩
    | ok merged =>
        refine ⟨?_, by simp⟩
        ext1
        · rfl
        · rfl
        · funext j
          by_cases hj : j = key
          · subst hj
            simp [Node.tables]
          · simp [Node.tables, AList.lookup_insert_ne hj, Function.update_of_ne hj]
        · rfl
  · exact ⟨rfl, by simp⟩

theorem noteAll_tables (keys : List TableKey) (s : Node) :
    Agree (s.noteAll keys) (s.tables.noteAll keys) := by
  induction keys generalizing s with
  | nil => exact ⟨rfl, by simp [Node.noteAll, Tables.noteAll]⟩
  | cons key rest ih =>
      obtain ⟨htables, hok⟩ := noteColumns_tables s key
      simp only [Node.noteAll, Tables.noteAll]
      cases hr : s.noteColumns key with
      | mk s' r =>
          cases ht : s.tables.noteColumns key with
          | mk t' ok =>
              rw [hr, ht] at htables hok
              simp only at htables hok
              subst htables
              cases r with
              | error e =>
                  obtain rfl : ok = false := by simpa using hok
                  exact ⟨rfl, by simp⟩
              | ok u =>
                  obtain rfl : ok = true := hok.mpr ⟨u, rfl⟩
                  exact ih s'

theorem tables_observeAll (s : Node) (db : String) (lines : List ParsedLine) :
    (s.observeAll db lines).tables = s.tables := by
  unfold Node.observeAll
  split <;> rfl

/-- `apply` behind its parser, seen from the tables. -/
theorem applyLines_tables (fl : FloatOps) (s : Node) (db : String) (lines : List ParsedLine) :
    Agree (s.applyLines fl db lines) (s.tables.applyLines fl db lines) := by
  obtain ⟨htables, hok⟩ := appendLines_tables fl db
    (fun table => s.established (db, table)) lines s
  unfold Node.applyLines Tables.applyLines
  change Agree _ (match s.tables.appendLines fl db (fun table => s.established (db, table))
        lines with
    | (t, false) => (t, false)
    | (t, true) => t.noteAll (Node.touched db lines))
  cases hr : s.appendLines fl db (fun table => s.established (db, table)) lines with
  | mk s' r =>
      cases ht : s.tables.appendLines fl db (fun table => s.established (db, table)) lines with
      | mk t' ok =>
          rw [hr, ht] at htables hok
          simp only at htables hok
          subst htables
          cases r with
          | error e =>
              obtain rfl : ok = false := by simpa using hok
              exact ⟨rfl, by simp⟩
          | ok u =>
              obtain rfl : ok = true := hok.mpr ⟨u, rfl⟩
              obtain ⟨hnote, hnoteOk⟩ := noteAll_tables (Node.touched db lines)
                (s'.observeAll db lines)
              rw [tables_observeAll] at hnote hnoteOk
              simp only
              cases hn : (s'.observeAll db lines).noteAll (Node.touched db lines) with
              | mk s'' r =>
                  rw [hn] at hnote hnoteOk
                  refine ⟨?_, ?_⟩
                  · cases r <;> exact hnote
                  · rw [hnoteOk]
                    cases r <;> simp

end Refinement

end TimeLake.Ingest
