import TimeLake.Ingest.Buffer
import TimeLake.Ingest.LastValue

/-!
`build_batch` of `crates/query/src/last_cache.rs`: a snapshot of the last-value
cache as one record batch. The columns are found in the readings themselves, a
field's type in its first occurrence. Where the readings agree on the types of
their fields, each row of the batch shows its reading.
-/

namespace TimeLake.LastCache

open TimeLake.Library TimeLake.Rows TimeLake.Ingest

/-- The columns of a record batch behind and including `time`. -/
structure Batch where
  times : List Int
  tags : List (String × List (Option String))
  fields : List (String × FieldType × List (Option FieldValue))
  deriving DecidableEq

/-- Every tag key seen, sorted. -/
def tagKeys (rows : List LastValue) : List String :=
  (collect (rows.flatMap fun r => r.tags.map fun p => (p.1, ()))).map Prod.fst

/-- `entry(k).or_insert_with(..)`. -/
def noteType (types : List (String × FieldType)) (p : String × FieldValue) :
    List (String × FieldType) :=
  if (types.lookup p.1).isSome then types else insertPair p.1 (valueType p.2) types

/-- Every field key seen, typed from its first occurrence. -/
def fieldTypes (rows : List LastValue) : List (String × FieldType) :=
  (rows.flatMap LastValue.fields).foldl noteType []

def tagColumn (rows : List LastValue) (name : String) : List (Option String) :=
  rows.map fun r => r.tags.lookup name

/-- `field_column`: a value of another type than the column's is a null. -/
def fieldColumn (rows : List LastValue) (name : String) (ty : FieldType) :
    List (Option FieldValue) :=
  rows.map fun r => (r.fields.lookup name).filter fun v => valueType v = ty

def buildBatch (rows : List LastValue) : Batch where
  times := rows.map LastValue.timestampNs
  tags := (tagKeys rows).map fun name => (name, tagColumn rows name)
  fields := (fieldTypes rows).map fun p => (p.1, p.2, fieldColumn rows p.1 p.2)

/-- Row `i` without its nulls. -/
def Batch.rowAt (b : Batch) (i : Nat) : Row where
  time := b.times.getD i 0
  tags := tagSet (b.tags.filterMap fun p => (p.2[i]?.join).map (p.1, ·))
  fields := collect (b.fields.filterMap fun p => (p.2.2[i]?.join).map (p.1, ·))
  arrival := 0

def Batch.rows (b : Batch) : List Row := (List.range b.times.length).map b.rowAt

section Lookup

theorem lookup_noteTypes (pairs : List (String × FieldValue)) (types : List (String × FieldType))
    (name : String) : (pairs.foldl noteType types).lookup name =
      (types.lookup name).or ((pairs.lookup name).map valueType) := by
  induction pairs generalizing types with
  | nil => simp
  | cons p rest ih =>
      rw [List.foldl_cons, ih, lookup_cons_eq_ite, noteType]
      by_cases hname : name = p.1
      · subst hname
        cases htypes : types.lookup p.1 with
        | none => simp [lookup_insertPair]
        | some ty => simp [htypes]
      · rw [if_neg hname]
        split
        · rfl
        · rw [lookup_insertPair, if_neg hname]

theorem increasing_fieldTypes (rows : List LastValue) : Increasing (fieldTypes rows) := by
  have hfold : ∀ (pairs : List (String × FieldValue)) (types : List (String × FieldType)),
      Increasing types → Increasing (pairs.foldl noteType types) := by
    intro pairs
    induction pairs with
    | nil => exact fun types h => h
    | cons p rest ih =>
        intro types h
        refine ih _ ?_
        unfold noteType
        split
        · exact h
        · exact h.insertPair p.1 (valueType p.2)
  exact hfold _ [] List.Pairwise.nil

theorem lookup_fieldTypes (rows : List LastValue) (name : String) :
    (fieldTypes rows).lookup name =
      ((rows.flatMap LastValue.fields).lookup name).map valueType := by
  rw [fieldTypes, lookup_noteTypes]
  rfl

theorem exists_of_lookup_flatMap {rows : List LastValue} {name : String} {v : FieldValue}
    (h : (rows.flatMap LastValue.fields).lookup name = some v) :
    ∃ e ∈ rows, e.fields.lookup name = some v := by
  induction rows with
  | nil => cases h
  | cons e rest ih =>
      rw [List.flatMap_cons, List.lookup_append] at h
      cases hhead : e.fields.lookup name with
      | some w =>
          rw [hhead, Option.some_or] at h
          exact ⟨e, List.mem_cons_self, hhead.trans h⟩
      | none =>
          rw [hhead, Option.none_or] at h
          obtain ⟨e', he', hlookup⟩ := ih h
          exact ⟨e', List.mem_cons_of_mem e he', hlookup⟩

theorem lookup_flatMap_of_none {rows : List LastValue} {name : String}
    (h : (rows.flatMap LastValue.fields).lookup name = none) {e : LastValue} (he : e ∈ rows) :
    e.fields.lookup name = none := by
  rw [List.lookup_eq_none_iff] at h ⊢
  exact fun p hp => h p (List.mem_flatMap.mpr ⟨e, he, hp⟩)

end Lookup

section Shown

variable {rows : List LastValue} {i : Nat} {e : LastValue}

/-- The readings agree on the type of each field. -/
def Uniform (rows : List LastValue) : Prop :=
  ∀ e ∈ rows, ∀ e' ∈ rows, ∀ name v v', e.fields.lookup name = some v →
    e'.fields.lookup name = some v' → valueType v = valueType v'

theorem nodup_of_increasing {α : Type*} {m : List (String × α)} (h : Increasing m) :
    (m.map Prod.fst).Nodup :=
  List.pairwise_map.mpr (h.imp fun hlt => ne_of_lt hlt)

theorem lookup_cells {α β : Type*} {m : List (String × α)} (g : α → Option β)
    (h : (m.map Prod.fst).Nodup) (name : String) :
    (collect (m.filterMap fun p => (g p.2).map (p.1, ·))).lookup name = (m.lookup name).bind g := by
  rw [lookup_collect, lookup_reverse (nodup_keys_filterMap_snd g h), lookup_filterMap_snd g h]

theorem tags_buildBatch (rows : List LastValue) :
    (buildBatch rows).tags =
      (collect (rows.flatMap fun r => r.tags.map fun p => (p.1, ()))).map
        fun p => (p.1, tagColumn rows p.1) := by
  simp [buildBatch, tagKeys]

theorem rowAt_tags (hi : rows[i]? = some e) (hsorted : Increasing e.tags) :
    ((buildBatch rows).rowAt i).tags = tagSet e.tags := by
  refine TagSet.ext_get fun name => ?_
  have hnodup : ((buildBatch rows).tags.map Prod.fst).Nodup := by
    rw [tags_buildBatch, List.map_map]
    exact nodup_of_increasing (Increasing.collect _)
  have hleft : ((buildBatch rows).rowAt i).tags.get name =
      ((buildBatch rows).tags.lookup name).bind fun col => col[i]?.join :=
    lookup_cells (fun col : List (Option String) => col[i]?.join) hnodup name
  have hright : (tagSet e.tags).get name = e.tags.lookup name := by
    rw [TagSet.get, tagSet, lookup_collect, lookup_reverse (nodup_of_increasing hsorted)]
  rw [hleft, hright, tags_buildBatch, lookup_map_snd fun name _ => tagColumn rows name,
    lookup_collect]
  cases hkey : (rows.flatMap fun r => r.tags.map fun p => (p.1, ())).reverse.lookup name with
  | some u => simp [tagColumn, hi]
  | none =>
      rw [List.lookup_eq_none_iff] at hkey
      rw [Option.map_none, Option.bind_none, eq_comm, List.lookup_eq_none_iff]
      intro p hp
      have hmem : (p.1, ()) ∈ rows.flatMap fun r => r.tags.map fun p => (p.1, ()) :=
        List.mem_flatMap.mpr ⟨e, List.mem_of_getElem? hi, List.mem_map.mpr ⟨p, hp, rfl⟩⟩
      exact hkey (p.1, ()) (List.mem_reverse.mpr hmem)

theorem rowAt_fields (hi : rows[i]? = some e) (huniform : Uniform rows) (name : String) :
    ((buildBatch rows).rowAt i).fields.lookup name = e.fields.lookup name := by
  have hmem : e ∈ rows := List.mem_of_getElem? hi
  have hkeys : (buildBatch rows).fields.map Prod.fst = (fieldTypes rows).map Prod.fst := by
    simp [buildBatch]
  have hnodup : ((buildBatch rows).fields.map Prod.fst).Nodup := by
    rw [hkeys]
    exact nodup_of_increasing (increasing_fieldTypes rows)
  have hleft : ((buildBatch rows).rowAt i).fields.lookup name =
      ((buildBatch rows).fields.lookup name).bind fun col => col.2[i]?.join :=
    lookup_cells (fun col : FieldType × List (Option FieldValue) => col.2[i]?.join) hnodup name
  rw [hleft, buildBatch, lookup_map_snd fun name ty => (ty, fieldColumn rows name ty),
    lookup_fieldTypes]
  cases hfirst : (rows.flatMap LastValue.fields).lookup name with
  | none => simp [lookup_flatMap_of_none hfirst hmem]
  | some v =>
      obtain ⟨e', he', hv⟩ := exists_of_lookup_flatMap hfirst
      cases hvalue : e.fields.lookup name with
      | none => simp [fieldColumn, hi, hvalue]
      | some w =>
          have hty : valueType w = valueType v := huniform e hmem e' he' name w v hvalue hv
          simp [fieldColumn, hi, hvalue, Option.filter, hty]

/-- A row of the batch is its reading. -/
theorem mem_rows_buildBatch (huniform : Uniform rows) (hsorted : ∀ e ∈ rows, Increasing e.tags)
    {r : Row} (hr : r ∈ (buildBatch rows).rows) :
    ∃ e ∈ rows, r.time = e.timestampNs ∧ r.tags = tagSet e.tags ∧
      (∀ name, r.fields.lookup name = e.fields.lookup name) ∧ Increasing r.fields ∧
      r.arrival = 0 := by
  obtain ⟨i, hi, rfl⟩ := List.mem_map.mp hr
  have hlt : i < rows.length := by simpa [buildBatch] using hi
  have hget : rows[i]? = some rows[i] := List.getElem?_eq_getElem hlt
  refine ⟨rows[i], List.getElem_mem hlt, ?_, rowAt_tags hget (hsorted _ (List.getElem_mem hlt)),
    rowAt_fields hget huniform, Increasing.collect _, rfl⟩
  simp [Batch.rowAt, buildBatch, hget]

end Shown

end TimeLake.LastCache
