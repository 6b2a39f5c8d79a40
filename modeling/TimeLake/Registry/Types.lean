import TimeLake.Registry.Complete

/-!
Stability of column types on one node. A value for a column that neither the
buffer nor the registry knows makes a column of its own type, so a type can
change wherever a stored column is forgotten: between the handover of a flush
and `flush_one`, behind a restart that reads one footer, or when a replay sees
the values of a new column in another order. A tag and a field of one name, or
either of them called `time`, are two columns of one name from the start.
`typesKept` rules these writes out, and nothing else.
-/

namespace TimeLake.Registry

open TimeLake.Library TimeLake.Catalog TimeLake.Rows TimeLake.Ingest TimeLake.Wal
open TimeLake.Store TimeLake.Cluster

/-- The columns stored so far: table, name, type. -/
abbrev Stored := List (TableKey × String × DataType)

/-- No column has two types. -/
def OneType (S : Stored) : Prop :=
  ∀ key name T T', (key, name, T) ∈ S → (key, name, T') ∈ S → T = T'

/-- The columns of a schema are stored as such. -/
def Conforms (S : Stored) (key : TableKey) (schema : Schema) : Prop := ∀ c ∈ schema, (key, c) ∈ S

section Unions

variable {S : Stored} {key : TableKey}

theorem Conforms.mono {S' : Stored} {schema : Schema} (h : Conforms S key schema) (hsub : S ⊆ S') :
    Conforms S' key schema := fun c hc => hsub (h c hc)

theorem Conforms.consistent (hone : OneType S) {schema : Schema} (h : Conforms S key schema) :
    Consistent schema := by
  intro p hp q hq hname
  refine hone key p.1 p.2 q.2 (h p hp) ?_
  rw [hname]
  exact h q hq

/-- Schemas of stored columns merge, and into one of stored columns. -/
theorem Conforms.unionInto (hone : OneType S) {a b : Schema} (ha : Conforms S key a)
    (hb : Conforms S key b) : ∃ merged, Ingest.unionInto a b = .ok merged ∧
      Conforms S key merged := by
  have hboth : Conforms S key (a ++ b) := fun c hc =>
    (List.mem_append.mp hc).elim (ha c) (hb c)
  obtain ⟨merged, hmerged⟩ := (unionInto_ok_iff a b (ha.consistent hone)).mpr
    (hboth.consistent hone)
  refine ⟨merged, hmerged, fun c hc => ?_⟩
  exact ((unionInto_spec hmerged).2.1 c hc).elim (ha c) (hb c)

theorem Conforms.settle {schema : Schema} (h : Conforms S key schema) :
    Conforms S key schema.settle := fun c hc => h c (mem_of_mem_settle hc)

theorem Conforms.schemaUnion (hone : OneType S) {a : Option Schema} {b : Schema}
    (ha : ∀ schema, a = some schema → Conforms S key schema) (hb : Conforms S key b) :
    ∃ merged, Ingest.schemaUnion a b = .ok merged ∧ Conforms S key merged := by
  cases a with
  | none => exact ⟨b, rfl, hb⟩
  | some a => exact (ha a rfl).settle.unionInto hone hb

theorem Conforms.alignSchema (hone : OneType S) {schemas : List Schema}
    (h : ∀ schema ∈ schemas, Conforms S key schema) :
    ∃ merged, Registry.alignSchema schemas = .ok merged ∧ Conforms S key merged := by
  have hfold : ∀ (l : List Schema) (a : Schema), (∀ schema ∈ l, Conforms S key schema) →
      Conforms S key a → ∃ merged, l.foldlM Ingest.unionInto a = .ok merged ∧
        Conforms S key merged := by
    intro l
    induction l with
    | nil => exact fun a _ ha => ⟨a, rfl, ha⟩
    | cons b rest ih =>
        intro a hl ha
        obtain ⟨u, hu, hconf⟩ := ha.unionInto hone (hl b (by simp))
        obtain ⟨merged, hmerged, hall⟩ := ih u (fun x hx => hl x (List.mem_cons_of_mem _ hx)) hconf
        exact ⟨merged, by rw [List.foldlM_cons, hu]; exact hmerged, hall⟩
  exact hfold schemas [] h fun c hc => by cases hc

end Unions

section Bodies

/-- The fields a body brings to a table, in order. -/
def fieldsFor (db : String) (lines : List ParsedLine) (key : TableKey) :
    List (String × FieldValue) :=
  lines.flatMap fun l => if (db, l.table) = key then l.fields else []

def tagsFor (db : String) (lines : List ParsedLine) (key : TableKey) : List (String × String) :=
  lines.flatMap fun l => if (db, l.table) = key then l.tags else []

/-- The buffer or the registry has a type for the column. -/
def State.Knows (s : State) (key : TableKey) (name : String) : Prop :=
  name ∈ (s.node.tables.types key).map Prod.fst ∨ name ∈ s.columns key

/-- A tag of the body is no field of it and was never stored but as a tag. -/
def State.TagFits (s : State) (db : String) (lines : List ParsedLine) (key : TableKey)
    (name : String) : Prop :=
  name ≠ "time" ∧ name ∉ (fieldsFor db lines key).map Prod.fst ∧
    ∀ c ∈ s.stored, c.1 = key → c.2.1 = name → c.2.2 = .dictionary

/-- A field of the body was never stored as a tag, and if it was stored and is
forgotten, the first value the body has for it has its type. -/
def State.FieldFits (s : State) (db : String) (lines : List ParsedLine) (key : TableKey)
    (name : String) : Prop :=
  name ≠ "time" ∧ ∀ c ∈ s.stored, c.1 = key → c.2.1 = name →
    c.2.2 ≠ .dictionary ∧ (s.Knows key name ∨
      ∀ v ∈ (fieldsFor db lines key).lookup name, (valueType v).dataType = c.2.2)

def State.BodyFits (s : State) (db : String) (lines : List ParsedLine) : Prop :=
  ∀ l ∈ lines, (∀ p ∈ l.tags, s.TagFits db lines (db, l.table) p.1) ∧
    ∀ p ∈ l.fields, s.FieldFits db lines (db, l.table) p.1

instance (s : State) (key : TableKey) (name : String) : Decidable (s.Knows key name) :=
  inferInstanceAs (Decidable (_ ∨ _))

instance (s : State) (db : String) (lines : List ParsedLine) (key : TableKey) (name : String) :
    Decidable (s.TagFits db lines key name) :=
  inferInstanceAs (Decidable (_ ∧ _ ∧ ∀ c ∈ s.stored, _))

instance (s : State) (db : String) (lines : List ParsedLine) (key : TableKey) (name : String) :
    Decidable (s.FieldFits db lines key name) := inferInstanceAs (Decidable (_ ∧ ∀ c ∈ s.stored, _))

instance (s : State) (db : String) (lines : List ParsedLine) : Decidable (s.BodyFits db lines) :=
  inferInstanceAs (Decidable (∀ l ∈ lines, _))

def linesOf (fl : FloatOps) (text : String) (mult : Int64) (ts : Int) : List ParsedLine :=
  (parseLines fl text mult.toInt ts).toOption.getD []

/-- The frame a replay comes to. -/
def State.nextFrame (s : State) : Option Frame :=
  match s.phase with
  | .replaying todo => todo.head?
  | _ => none

/-- One node, whose bodies fit when they reach the buffers, live or in a replay,
and whose puts replace no file of another table. -/
def typesKept (fl : FloatOps) (s : State) : Action → Prop
  | .apply i nowNs => ∀ w ∈ s.waiting[i]?, s.BodyFits w.db (linesOf fl w.text w.mult nowNs)
  | .replay =>
      ∀ f ∈ s.nextFrame, s.BodyFits f.db (linesOf fl (fromUtf8Lossy f.body) f.mult 0)
  | .flushOne k size _ =>
      ∀ flight ∈ s.flights.lookup k, ∀ p ∈ flight.todo.head?, ∀ f ∈ s.outputs p.1 p.2 size,
        s.OwnPath p.1 f.path
  | .compact group maxTs size _ =>
      ∀ f0 ∈ (s.inputs group).head?,
        s.OwnPath f0.key (outputMeta .compacted f0.key f0.partition [] maxTs s.fileSeq size).path
  | .foreign _ _ => False
  | _ => True

instance (fl : FloatOps) (s : State) : (a : Action) → Decidable (typesKept fl s a)
  | .apply i nowNs => inferInstanceAs (Decidable
      (∀ w ∈ s.waiting[i]?, s.BodyFits w.db (linesOf fl w.text w.mult nowNs)))
  | .replay => inferInstanceAs (Decidable
      (∀ f ∈ s.nextFrame, s.BodyFits f.db (linesOf fl (fromUtf8Lossy f.body) f.mult 0)))
  | .flushOne k size _ => inferInstanceAs (Decidable (∀ flight ∈ s.flights.lookup k,
      ∀ p ∈ flight.todo.head?, ∀ f ∈ s.outputs p.1 p.2 size, s.OwnPath p.1 f.path))
  | .compact group maxTs size _ => inferInstanceAs (Decidable (∀ f0 ∈ (s.inputs group).head?,
      s.OwnPath f0.key (outputMeta .compacted f0.key f0.partition [] maxTs s.fileSeq size).path))
  | .foreign _ _ => inferInstanceAs (Decidable False)
  | .append _ | .handover _ _ | .commit _ _ | .reclaim _ | .catchUp | .openEngine | .serve =>
      inferInstanceAs (Decidable True)

end Bodies

section Append

variable {fl : FloatOps}

/-- The columns of a line's fields are those of the buffer and, for a name the
buffer lacks, one of the type its first value gets. -/
theorem mem_admitFields {est : Established} {types after : Types}
    {fields : List (String × FieldValue)} (h : admitFields est types fields = some after)
    {p : String × FieldType} (hp : p ∈ after) :
    p ∈ types ∨ (p.1 ∉ types.map Prod.fst ∧
      ∃ v, fields.lookup p.1 = some v ∧ p.2 = newType est p.1 v) := by
  induction fields generalizing types with
  | nil =>
      obtain rfl := Option.some.inj h
      exact .inl hp
  | cons q rest ih =>
      obtain ⟨k, v⟩ := q
      simp only [admitFields] at h
      split at h
      · cases hold : types.lookup k with
        | some ty =>
            rw [resolve, hold, Option.getD_some, upsert_self hold] at h
            refine (ih h).imp_right ?_
            rintro ⟨hnot, w, hw, hty⟩
            refine ⟨hnot, w, ?_, hty⟩
            have hne : p.1 ≠ k := by
              rintro rfl
              exact hnot (List.mem_map.mpr ⟨_, mem_of_lookup hold, rfl⟩)
            rw [lookup_cons_eq_ite, if_neg hne]
            exact hw
        | none =>
            rw [resolve, hold, Option.getD_none, upsert_of_none hold] at h
            rcases ih h with hp | ⟨hnot, w, hw, hty⟩
            · rcases List.mem_append.mp hp with hp | hp
              · exact .inl hp
              · obtain rfl := List.mem_singleton.mp hp
                refine .inr ⟨?_, v, ?_, rfl⟩
                · intro hmem
                  obtain ⟨q, hq, hname⟩ := List.mem_map.mp hmem
                  exact absurd (List.lookup_eq_none_iff.mp hold q hq) (by simp [hname])
                · rw [lookup_cons_eq_ite, if_pos rfl]
            · rw [List.map_append, List.mem_append, not_or] at hnot
              have hne : p.1 ≠ k := fun heq => hnot.2 (by simp [heq])
              refine .inr ⟨hnot.1, w, ?_, hty⟩
              rw [lookup_cons_eq_ite, if_neg hne]
              exact hw
      · cases h

theorem mem_addTags {names : List String} {tags : List (String × String)} {name : String}
    (h : name ∈ addTags names tags) : name ∈ names ∨ name ∈ tags.map Prod.fst := by
  induction tags generalizing names with
  | nil => exact .inl h
  | cons p rest ih =>
      rcases ih h with hmem | hmem
      · rcases mem_addName.mp hmem with rfl | hmem
        · exact .inr (by simp)
        · exact .inl hmem
      · exact .inr (List.mem_cons_of_mem _ hmem)

/-- The names of a line's fields are among the columns behind it. -/
theorem names_admitFields {est : Established} {types after : Types}
    {fields : List (String × FieldValue)} (h : admitFields est types fields = some after) :
    types.map Prod.fst ⊆ after.map Prod.fst ∧ fields.map Prod.fst ⊆ after.map Prod.fst := by
  have hof : ∀ (m : Types) name, (∃ ty, m.lookup name = some ty) → name ∈ m.map Prod.fst :=
    fun m name ⟨ty, hty⟩ => List.mem_map.mpr ⟨_, mem_of_lookup hty, rfl⟩
  refine ⟨fun name hname => hof _ _ ?_, fun name hname => hof _ _ ?_⟩
  · cases hold : types.lookup name with
    | some ty => exact ⟨ty, admitFields_keeps h hold⟩
    | none =>
        obtain ⟨q, hq, heq⟩ := List.mem_map.mp hname
        exact absurd (List.lookup_eq_none_iff.mp hold q hq) (by simp [heq])
  · obtain ⟨q, hq, rfl⟩ := List.mem_map.mp hname
    obtain ⟨ty, hty, _⟩ := admitFields_accepts h hq
    exact ⟨ty, hty⟩

theorem fieldsFor_cons (db : String) (l : ParsedLine) (rest : List ParsedLine) (key : TableKey) :
    fieldsFor db (l :: rest) key =
      (if (db, l.table) = key then l.fields else []) ++ fieldsFor db rest key := rfl

/-- The field columns behind the lines of a body that were taken. -/
theorem types_appendLines (db : String) (est : String → Established) (lines : List ParsedLine)
    (t : Tables) (key : TableKey) {p : String × FieldType}
    (hp : p ∈ (t.appendLines fl db est lines).1.types key) :
    p ∈ t.types key ∨ (p.1 ∉ (t.types key).map Prod.fst ∧
      ∃ v, (fieldsFor db lines key).lookup p.1 = some v ∧ p.2 = newType (est key.2) p.1 v) := by
  induction lines generalizing t with
  | nil => exact .inl hp
  | cons l rest ih =>
      simp only [Tables.appendLines] at hp
      split at hp
      · exact .inl hp
      · next after hafter =>
          have hrest := ih _ hp
          rw [fieldsFor_cons, List.lookup_append]
          by_cases hkey : (db, l.table) = key
          · subst hkey
            simp only [Tables.append, Function.update_self] at hrest
            obtain ⟨hold, hnew⟩ := names_admitFields hafter
            rw [if_pos rfl]
            rcases hrest with hmem | ⟨hnot, v, hv, hty⟩
            · refine (mem_admitFields hafter hmem).imp_right ?_
              rintro ⟨hnot, v, hv, hty⟩
              exact ⟨hnot, v, by rw [hv]; rfl, hty⟩
            · refine .inr ⟨fun h => hnot (hold h), v, ?_, hty⟩
              have hnone : l.fields.lookup p.1 = none := by
                rw [List.lookup_eq_none_iff]
                intro q hq
                have hne : p.1 ≠ q.1 := fun heq =>
                  hnot (hnew (by rw [heq]; exact List.mem_map_of_mem hq))
                simpa using hne
              rw [hnone, Option.none_or]
              exact hv
          · simp only [Tables.append, Function.update_of_ne (Ne.symm hkey)] at hrest
            rw [if_neg hkey, List.lookup_nil, Option.none_or]
            exact hrest

theorem tagNames_appendLines (db : String) (est : String → Established) (lines : List ParsedLine)
    (t : Tables) (key : TableKey) {name : String}
    (hname : name ∈ (t.appendLines fl db est lines).1.tagNames key) :
    name ∈ t.tagNames key ∨ name ∈ (tagsFor db lines key).map Prod.fst := by
  induction lines generalizing t with
  | nil => exact .inl hname
  | cons l rest ih =>
      simp only [Tables.appendLines] at hname
      split at hname
      · exact .inl hname
      · have hcons : tagsFor db (l :: rest) key =
            (if (db, l.table) = key then l.tags else []) ++ tagsFor db rest key := rfl
        rw [hcons, List.map_append, List.mem_append]
        rcases ih _ hname with hmem | hmem
        · by_cases hkey : (db, l.table) = key
          · subst hkey
            simp only [Tables.append, Function.update_self] at hmem
            rw [if_pos rfl]
            exact (mem_addTags hmem).imp_right .inl
          · simp only [Tables.append, Function.update_of_ne (Ne.symm hkey)] at hmem
            exact .inl hmem
        · exact .inr (.inr hmem)

end Append

section Body

/-- The types columns are stored with: `time`, tags, fields. -/
def Storable (name : String) (T : DataType) : Prop :=
  (name = "time" ∧ T = .timestamp) ∨
    (name ≠ "time" ∧ (T = .dictionary ∨ ∃ ty : FieldType, T = ty.dataType))

/-- What the stored columns are to the node's buffers and registry. -/
structure NodeTyped (S : Stored) (n : Ingest.Node) : Prop where
  one : OneType S
  kinds : ∀ c ∈ S, Storable c.2.1 c.2.2
  buffers : ∀ key b, n.buffers.lookup key = some b → Conforms S key b.1.schemaOnly
  registry : ∀ key schema, n.schemas.lookup key = some schema → Conforms S key schema

/-- The columns a table may have behind a body: those stored before, `time`, the
body's tags, and its fields as the buffer takes them. -/
inductive Column (s : State) (db : String) (lines : List ParsedLine) (key : TableKey) :
    String → DataType → Prop
  | stored {name : String} {T : DataType} (h : (key, name, T) ∈ s.stored) :
      Column s db lines key name T
  | time : Column s db lines key "time" .timestamp
  | tag {name : String} (h : name ∈ (tagsFor db lines key).map Prod.fst) :
      Column s db lines key name .dictionary
  | field {name : String} {v : FieldValue} (hnew : name ∉ (s.node.tables.types key).map Prod.fst)
      (hv : (fieldsFor db lines key).lookup name = some v) :
      Column s db lines key name (newType (s.node.established key) name v).dataType

variable {s : State} {db : String} {lines : List ParsedLine} {key : TableKey}

theorem tagFits_of_mem (h : s.BodyFits db lines) {name : String}
    (hname : name ∈ (tagsFor db lines key).map Prod.fst) : s.TagFits db lines key name := by
  obtain ⟨p, hp, rfl⟩ := List.mem_map.mp hname
  obtain ⟨l, hl, hp⟩ := List.mem_flatMap.mp hp
  split at hp
  · next heq =>
      rw [← heq]
      exact (h l hl).1 p hp
  · cases hp

theorem fieldFits_of_lookup (h : s.BodyFits db lines) {name : String} {v : FieldValue}
    (hv : (fieldsFor db lines key).lookup name = some v) : s.FieldFits db lines key name := by
  obtain ⟨l, hl, hp⟩ := List.mem_flatMap.mp (mem_of_lookup hv)
  split at hp
  · next heq =>
      rw [← heq]
      exact (h l hl).2 _ hp
  · cases hp

theorem established_isSome {name : String} :
    (s.node.established key name).isSome ↔ name ∈ s.columns key := by
  unfold Ingest.Node.established State.columns State.registered
  cases s.node.schemas.lookup key with
  | none => simp
  | some schema =>
      simp only [Option.bind_some, Option.getD_some, List.mem_map]
      constructor
      · intro hsome
        obtain ⟨T, hT⟩ := Option.isSome_iff_exists.mp hsome
        exact ⟨_, mem_of_types hT, rfl⟩
      · rintro ⟨c, hc, rfl⟩
        obtain ⟨T, hT⟩ := types_isSome_of_mem hc
        rw [hT]
        rfl

/-- A registered field column is made again with the type it has. -/
theorem newType_of_established {est : Established} {name : String} {T : DataType}
    (hest : est name = some T) (hstorable : Storable name T) (htime : name ≠ "time")
    (htag : T ≠ .dictionary) (v : FieldValue) : (newType est name v).dataType = T := by
  rcases hstorable with ⟨heq, _⟩ | ⟨_, rfl | ⟨ty, rfl⟩⟩
  · exact absurd heq htime
  · exact absurd rfl htag
  · rw [newType, hest]
    cases ty <;> rfl

/-- A stored column and the field a body brings for it. -/
theorem field_of_stored (hn : NodeTyped s.stored s.node) (h : s.BodyFits db lines) {name : String}
    {T : DataType} {v : FieldValue} (hstored : (key, name, T) ∈ s.stored)
    (hnew : name ∉ (s.node.tables.types key).map Prod.fst)
    (hv : (fieldsFor db lines key).lookup name = some v) :
    (newType (s.node.established key) name v).dataType = T := by
  obtain ⟨htime, hfits⟩ := fieldFits_of_lookup h hv
  obtain ⟨htag, hknown⟩ := hfits _ hstored rfl rfl
  cases hest : s.node.established key name with
  | some T' =>
      obtain ⟨schema, hschema, hT'⟩ := Option.bind_eq_some_iff.mp hest
      obtain rfl := hn.one key name T T' hstored (hn.registry key schema hschema _
        (mem_of_types hT'))
      exact newType_of_established hest (hn.kinds _ hstored) htime htag v
  | none =>
      rw [newType, hest, Option.bind_none, Option.getD_none]
      refine hknown.resolve_left ?_ v hv
      rintro (hbuffer | hcolumn)
      · exact hnew hbuffer
      · rw [← established_isSome, hest] at hcolumn
        cases hcolumn

theorem Column.unique (hn : NodeTyped s.stored s.node) (h : s.BodyFits db lines) {name : String}
    {T T' : DataType} (hc : Column s db lines key name T) (hc' : Column s db lines key name T') :
    T = T' := by
  have htime : ∀ {T}, (key, "time", T) ∈ s.stored → T = .timestamp := fun hs =>
    (hn.kinds _ hs).elim And.right fun hne => absurd rfl hne.1
  have hapart : ∀ {name v}, name ∈ (tagsFor db lines key).map Prod.fst →
      (fieldsFor db lines key).lookup name = some v → False := fun htag hv =>
    (tagFits_of_mem h htag).2.1 (List.mem_map.mpr ⟨_, mem_of_lookup hv, rfl⟩)
  cases hc with
  | stored hs =>
      cases hc' with
      | stored hs' => exact hn.one key name T T' hs hs'
      | time => exact htime hs
      | tag htag => exact (tagFits_of_mem h htag).2.2 _ hs rfl rfl
      | field hnew hv => exact (field_of_stored hn h hs hnew hv).symm
  | time =>
      cases hc' with
      | stored hs' => exact (htime hs').symm
      | time => rfl
      | tag htag => exact absurd rfl (tagFits_of_mem h htag).1
      | field hnew hv => exact absurd rfl (fieldFits_of_lookup h hv).1
  | tag htag =>
      cases hc' with
      | stored hs' => exact ((tagFits_of_mem h htag).2.2 _ hs' rfl rfl).symm
      | time => exact absurd rfl (tagFits_of_mem h htag).1
      | tag _ => rfl
      | field hnew hv => exact (hapart htag hv).elim
  | field hnew hv =>
      cases hc' with
      | stored hs' => exact field_of_stored hn h hs' hnew hv
      | time => exact absurd rfl (fieldFits_of_lookup h hv).1
      | tag htag => exact (hapart htag hv).elim
      | field _ hv' =>
          rw [hv] at hv'
          obtain rfl := Option.some.inj hv'
          rfl

theorem Column.storable (hn : NodeTyped s.stored s.node) (h : s.BodyFits db lines) {name : String}
    {T : DataType} (hc : Column s db lines key name T) : Storable name T := by
  cases hc with
  | stored hs => exact hn.kinds _ hs
  | time => exact .inl ⟨rfl, rfl⟩
  | tag htag => exact .inr ⟨(tagFits_of_mem h htag).1, .inl rfl⟩
  | field _ hv => exact .inr ⟨(fieldFits_of_lookup h hv).1, .inr ⟨_, rfl⟩⟩

/-- A column of a buffer is `time` or stored. -/
theorem NodeTyped.tables {S : Stored} {n : Ingest.Node} (hn : NodeTyped S n) (key : TableKey) :
    (∀ name ∈ n.tables.tagNames key, (key, name, .dictionary) ∈ S) ∧
      ∀ p ∈ n.tables.types key, (key, p.1, p.2.dataType) ∈ S := by
  cases hb : n.buffers.lookup key with
  | none =>
      have hempty : n.buffer key = .empty := by rw [Ingest.Node.buffer, hb, Option.getD_none]
      refine ⟨fun name hname => ?_, fun p hp => ?_⟩
      · simp only [Ingest.Node.tables, hempty] at hname
        cases hname
      · simp only [Ingest.Node.tables, hempty] at hp
        cases hp
  | some b =>
      have hbuffer : n.buffer key = b := by rw [Ingest.Node.buffer, hb, Option.getD_some]
      refine ⟨fun name hname => ?_, fun p hp => ?_⟩
      · simp only [Ingest.Node.tables, hbuffer] at hname
        refine hn.buffers key b hb (name, .dictionary) ?_
        simp only [TableBuffer.schemaOnly, columnsOf]
        exact List.mem_append_left _ (List.mem_cons_of_mem _ (List.mem_map.mpr ⟨name, hname, rfl⟩))
      · simp only [Ingest.Node.tables, hbuffer] at hp
        refine hn.buffers key b hb (p.1, p.2.dataType) ?_
        simp only [TableBuffer.schemaOnly, columnsOf]
        exact List.mem_append_right _ (List.mem_map.mpr ⟨p, hp, rfl⟩)

/-- Behind a body's lines, taken or not, every buffer has such columns only. -/
theorem column_of_appended (hn : NodeTyped s.stored s.node) (fl : FloatOps) {c : String × DataType}
    (hc : c ∈ (s.node.tables.appendLines fl db (fun table => s.node.established (db, table))
      lines).1.columns key) : Column s db lines key c.1 c.2 := by
  obtain ⟨htags, htypes⟩ := hn.tables key
  simp only [Tables.columns, columnsOf] at hc
  rcases List.mem_append.mp hc with hc | hc
  · rcases List.mem_cons.mp hc with rfl | hc
    · exact .time
    · obtain ⟨name, hname, rfl⟩ := List.mem_map.mp hc
      exact (tagNames_appendLines db _ lines _ key hname).elim (fun h => .stored (htags name h))
        .tag
  · obtain ⟨p, hp, rfl⟩ := List.mem_map.mp hc
    rcases types_appendLines db _ lines _ key hp with hold | ⟨hnew, v, hv, hty⟩
    · exact .stored (htypes p hold)
    · have hkey : (db, key.2) = key := by
        obtain ⟨l, _, hp⟩ := List.mem_flatMap.mp (mem_of_lookup hv)
        split at hp
        · next heq => rw [← heq]
        · cases hp
      rw [hkey] at hty
      rw [hty]
      exact .field hnew hv

theorem mem_buffered {n : Ingest.Node} {c : String × DataType} :
    (key, c) ∈ State.buffered n ↔ ∃ b, n.buffers.lookup key = some b ∧ c ∈ b.1.schemaOnly := by
  simp only [State.buffered, List.mem_flatMap, List.mem_map, Prod.mk.injEq]
  constructor
  · rintro ⟨⟨j, b⟩, hmem, d, hd, rfl, rfl⟩
    exact ⟨b, AList.mem_lookup_iff.mpr hmem, hd⟩
  · rintro ⟨b, hb, hc⟩
    exact ⟨⟨key, b⟩, AList.mem_lookup_iff.mp hb, c, hc, rfl, rfl⟩

/-- Nodes with the same tables have the same columns where they have buffers. -/
theorem schemaOnly_eq {n : Ingest.Node} {b : Buffer} (hb : n.buffers.lookup key = some b) :
    b.1.schemaOnly = n.tables.columns key := by
  have hbuffer : n.buffer key = b := by rw [Ingest.Node.buffer, hb, Option.getD_some]
  rw [← hbuffer]
  rfl

/-- The columns of the buffers join the stored ones. -/
theorem NodeTyped.appended (hn : NodeTyped s.stored s.node) (h : s.BodyFits db lines)
    (fl : FloatOps) {m : Ingest.Node} (hschemas : m.schemas = s.node.schemas)
    (htables : m.tables = (s.node.tables.appendLines fl db
      (fun table => s.node.established (db, table)) lines).1) :
    NodeTyped (s.stored ++ State.buffered m) m := by
  have hcolumn : ∀ c ∈ s.stored ++ State.buffered m, Column s db lines c.1 c.2.1 c.2.2 := by
    rintro ⟨key, c⟩ hc
    rcases List.mem_append.mp hc with hc | hc
    · exact .stored hc
    · obtain ⟨b, hb, hc⟩ := mem_buffered.mp hc
      rw [schemaOnly_eq hb, htables] at hc
      exact column_of_appended hn fl hc
  refine ⟨?_, ?_, ?_, ?_⟩
  · intro key name T T' hT hT'
    exact (hcolumn _ hT).unique hn h (hcolumn _ hT')
  · exact fun c hc => (hcolumn c hc).storable hn h
  · exact fun key b hb c hc => List.mem_append_right _ (mem_buffered.mpr ⟨b, hb, hc⟩)
  · intro key schema hschema
    rw [hschemas] at hschema
    exact (hn.registry key schema hschema).mono (List.subset_append_left _ _)

theorem NodeTyped.noteColumns {S : Stored} {n : Ingest.Node} (hn : NodeTyped S n)
    (hkey : (n.buffers.lookup key).isSome) :
    (n.noteColumns key).2 = .ok () ∧ NodeTyped S (n.noteColumns key).1 ∧
      (n.noteColumns key).1.buffers = n.buffers := by
  obtain ⟨b, hb⟩ := Option.isSome_iff_exists.mp hkey
  have hbuffer : n.buffer key = b := by rw [Ingest.Node.buffer, hb, Option.getD_some]
  unfold Ingest.Node.noteColumns
  simp only [hbuffer]
  split
  · obtain ⟨merged, hmerged, hconf⟩ := Conforms.schemaUnion hn.one
      (fun schema hschema => hn.registry key schema hschema) (hn.buffers key b hb)
    rw [hmerged]
    refine ⟨rfl, ⟨hn.one, hn.kinds, hn.buffers, ?_⟩, rfl⟩
    intro j schema hschema
    rcases AssocMap.of_lookup_insert hschema with ⟨rfl, rfl⟩ | ⟨_, hold⟩
    · exact hconf
    · exact hn.registry j schema hold
  · exact ⟨rfl, hn, rfl⟩

theorem NodeTyped.noteAll {S : Stored} {n : Ingest.Node} (hn : NodeTyped S n) {keys : List TableKey}
    (hkeys : ∀ key ∈ keys, (n.buffers.lookup key).isSome) :
    (n.noteAll keys).2 = .ok () ∧ NodeTyped S (n.noteAll keys).1 ∧
      (n.noteAll keys).1.buffers = n.buffers := by
  induction keys generalizing n with
  | nil => exact ⟨rfl, hn, rfl⟩
  | cons key rest ih =>
      obtain ⟨hok, hnext, hbuffers⟩ := hn.noteColumns (hkeys key (by simp))
      simp only [Ingest.Node.noteAll]
      split
      · next m e heq =>
          rw [heq] at hok
          cases hok
      · next m heq =>
          rw [heq] at hnext hbuffers
          have hrest := ih hnext fun j hj => by
            rw [hbuffers]
            exact hkeys j (List.mem_cons_of_mem _ hj)
          exact ⟨hrest.1, hrest.2.1, hrest.2.2.trans hbuffers⟩

theorem observeAll_buffers (n : Ingest.Node) (db : String) (lines : List ParsedLine) :
    (n.observeAll db lines).buffers = n.buffers := by
  unfold Ingest.Node.observeAll
  split <;> rfl

/-- The tables of a body have buffers once its lines are in. -/
theorem appendLines_buffers (fl : FloatOps) (db : String) (est : String → Established)
    (lines : List ParsedLine)
    (n : Ingest.Node) :
    (∀ key, (n.buffers.lookup key).isSome →
      ((n.appendLines fl db est lines).1.buffers.lookup key).isSome) ∧
    ((n.appendLines fl db est lines).2 = .ok () → ∀ l ∈ lines,
      ((n.appendLines fl db est lines).1.buffers.lookup (db, l.table)).isSome) := by
  induction lines generalizing n with
  | nil => exact ⟨fun _ h => h, fun _ l hl => by cases hl⟩
  | cons line rest ih =>
      have hinsert : ∀ (b : Buffer) key, (n.buffers.lookup key).isSome ∨ key = (db, line.table) →
          ((n.buffers.insert (db, line.table) b).lookup key).isSome := by
        intro b key h
        by_cases hkey : key = (db, line.table)
        · rw [hkey, AList.lookup_insert]
          rfl
        · rw [AList.lookup_insert_ne hkey]
          exact h.resolve_right hkey
      simp only [Ingest.Node.appendLines]
      split
      · exact ⟨fun key h => hinsert _ key (.inl h), fun h => by cases h⟩
      · refine ⟨fun key h => (ih _).1 key (hinsert _ key (.inl h)), fun hok l hl => ?_⟩
        rcases List.mem_cons.mp hl with rfl | hl
        · exact (ih _).1 _ (hinsert _ _ (.inr rfl))
        · exact (ih _).2 hok l hl

/-- An `apply` of a body that fits: the stored columns keep one type each, and
the registry takes the new ones. -/
theorem NodeTyped.apply {fl : FloatOps} {text : String} {mult : Int64} {ts : Int}
    (hn : NodeTyped s.stored s.node) (h : s.BodyFits db (linesOf fl text mult ts)) :
    NodeTyped (s.stored ++ State.buffered (s.node.apply fl db text mult ts).1)
        (s.node.apply fl db text mult ts).1 ∧
      ∀ e, (s.node.apply fl db text mult ts).2 ≠ .error (.union e) := by
  unfold linesOf at h
  unfold Ingest.Node.apply
  cases hparse : parseLines fl text mult.toInt ts with
  | error e =>
      refine ⟨?_, fun e' => by simp⟩
      have hnil : s.BodyFits db [] := fun l hl => by cases hl
      exact hn.appended hnil fl rfl rfl
  | ok lines =>
      rw [hparse] at h
      replace h : s.BodyFits db lines := h
      have htables := (appendLines_tables fl db (fun table => s.node.established (db, table)) lines
        s.node).1
      have hschemas := appendLines_schemas fl db (fun table => s.node.established (db, table)) lines
        s.node
      have hbuffers := (appendLines_buffers fl db
        (fun table => s.node.established (db, table)) lines s.node).2
      simp only [Ingest.Node.applyLines]
      split
      · next m e heq =>
          rw [heq] at htables hschemas
          exact ⟨hn.appended h fl hschemas htables, fun e' => by simp⟩
      · next m heq =>
          rw [heq] at htables hschemas hbuffers
          have hobserved : NodeTyped (s.stored ++ State.buffered (m.observeAll db lines))
              (m.observeAll db lines) := by
            refine hn.appended h fl ((observeAll_schemas m db lines).trans hschemas) ?_
            rw [tables_observeAll]
            exact htables
          have hlookup : ∀ key ∈ Ingest.Node.touched db lines,
              ((m.observeAll db lines).buffers.lookup key).isSome := by
            intro key hkey
            obtain ⟨l, hl, rfl⟩ := mem_touched.mp hkey
            rw [observeAll_buffers]
            exact hbuffers rfl l hl
          obtain ⟨hok, hnoted, hsame⟩ := hobserved.noteAll hlookup
          split
          · next heq' =>
              rw [heq'] at hok
              cases hok
          · next m' heq' =>
              rw [heq'] at hnoted
              replace hsame : m'.buffers = (m.observeAll db lines).buffers := by rw [← hsame, heq']
              have hbuffered : State.buffered m' = State.buffered (m.observeAll db lines) := by
                simp only [State.buffered, hsame]
              exact ⟨by rw [hbuffered]; exact hnoted, fun e' => by simp⟩

end Body

section Stability

variable {fl : FloatOps} {s t : State}

/-- Every column of a buffer, the registry, a snapshot or a file is stored with
its type, and no union has found two types for one. -/
structure Typed (s : State) : Prop where
  node : NodeTyped s.stored s.node
  flights : ∀ k flight, s.flights.lookup k = some flight →
    ∀ p ∈ flight.todo, Conforms s.stored p.1 p.2.schemaOnly
  files : AllHave (Conforms s.stored) s
  head : s.head = s.log.length
  agreed : s.conflict = false

theorem incoming_nil (h : s.head = s.log.length) : s.incoming = [] := by
  rw [State.incoming, List.filter_eq_nil_iff]
  intro f hf
  rw [State.files, h, List.take_length]
  simpa using hf

theorem Typed.applied (h : Typed s) {db text : String} {mult : Int64} {ts : Int}
    (hfits : s.BodyFits db (linesOf fl text mult ts)) :
    Typed (s.applied (s.node.apply fl db text mult ts)) := by
  obtain ⟨hnode, hunion⟩ := h.node.apply hfits
  have hsub : s.stored ⊆ s.stored ++ State.buffered (s.node.apply fl db text mult ts).1 :=
    List.subset_append_left _ _
  refine ⟨hnode, fun k flight hk p hp => (h.flights k flight hk p hp).mono hsub,
    (h.files.mono fun key footer hf => hf.mono hsub).beside rfl rfl rfl rfl, h.head, ?_⟩
  simp only [State.applied, h.agreed, Bool.false_or]

theorem Typed.handover (h : Typed s) {k : Nat} {rotated : Bool}
    (hstep : Registry.handover s k rotated = some t) : Typed t := by
  have hfiles := h.files.handover hstep
  unfold Registry.handover at hstep
  split at hstep
  · obtain rfl := Option.some.inj hstep
    refine ⟨⟨h.node.one, h.node.kinds, (fun key b hb => by cases hb), h.node.registry⟩, ?_, hfiles,
      h.head, h.agreed⟩
    intro j flight hj p hp
    cases rotated with
    | false => exact h.flights j flight hj p hp
    | true =>
        rcases AssocMap.of_lookup_insert hj with ⟨rfl, rfl⟩ | ⟨_, hold⟩
        · obtain ⟨⟨key, b⟩, he, rfl⟩ := List.mem_map.mp hp
          exact h.node.buffers key b (AList.mem_lookup_iff.mpr (List.mem_filter.mp he).1)
        · exact h.flights j flight hold p hp
  · cases hstep

theorem Typed.flushOne (h : Typed s) {k : Nat} {size : Nat → Nat} {puts : Option Nat}
    (hown : typesKept fl s (.flushOne k size puts))
    (hstep : Registry.flushOne s k size puts = some t) : Typed t := by
  have hnew : ∀ flight ∈ s.flights.lookup k, ∀ p ∈ flight.todo.head?,
      Conforms s.stored p.1 p.2.schemaOnly := fun flight hflight p hp =>
    h.flights k flight hflight p (List.mem_of_mem_head? hp)
  have hfiles := h.files.flushOne hown hnew hstep
  unfold Registry.flushOne at hstep
  split at hstep
  · next key b todo metas hflight =>
      obtain ⟨merged, hmerged, hconf⟩ := Conforms.schemaUnion h.node.one
        (fun schema hschema => h.node.registry key schema hschema) (hnew _ hflight (key, b) rfl)
      rw [show s.registered key = s.node.schemas.lookup key from rfl, hmerged] at hstep
      obtain rfl := Option.some.inj hstep
      refine ⟨⟨h.node.one, h.node.kinds, h.node.buffers, ?_⟩, ?_, hfiles, h.head, h.agreed⟩
      · intro j schema hschema
        rcases AssocMap.of_lookup_insert hschema with ⟨rfl, rfl⟩ | ⟨_, hold⟩
        · exact hconf
        · exact h.node.registry j schema hold
      · intro j flight hj p hp
        rcases AssocMap.of_lookup_insert hj with ⟨rfl, rfl⟩ | ⟨_, hold⟩
        · exact h.flights j _ hflight p (List.mem_cons_of_mem _ hp)
        · exact h.flights j flight hold p hp
  · cases hstep

theorem head_compact {group : GroupKey} {maxTs : Int} {size : Nat} {result : CommitEnd}
    (hhead : s.head = s.log.length) (hstep : compact s group maxTs size result = some t) :
    t.head = t.log.length ∧ t.stored = s.stored ∧ t.flights = s.flights := by
  unfold compact at hstep
  split at hstep
  · split at hstep
    · obtain rfl := Option.some.inj hstep
      exact ⟨hhead, rfl, rfl⟩
    · cases result with
      | failed folded =>
          obtain rfl := Option.some.inj hstep
          cases folded with
          | true => exact ⟨rfl, rfl, rfl⟩
          | false => exact ⟨hhead, rfl, rfl⟩
      | landed =>
          simp only at hstep
          split at hstep
          · obtain rfl := Option.some.inj hstep
            exact ⟨by simp, rfl, rfl⟩
          · obtain rfl := Option.some.inj hstep
            exact ⟨rfl, rfl, rfl⟩
  · cases hstep

/-- A merge of files whose columns are stored with one type each does not
conflict. -/
theorem compact_agreed (h : Typed s) {group : GroupKey} {maxTs : Int} {size : Nat}
    {result : CommitEnd} (hstep : compact s group maxTs size result = some t) :
    t.conflict = false := by
  unfold compact at hstep
  split at hstep
  · next f0 rest schemas _ hinputs hread =>
      have hconf : ∀ schema ∈ schemas, Conforms s.stored f0.key schema := by
        intro schema hschema
        obtain ⟨f, hf, hfooter⟩ := mem_of_mapM_eq_some hread hschema
        have hfirst := mem_inputs (hinputs ▸ List.mem_cons_self : f0 ∈ s.inputs group)
        obtain ⟨hlisted, hgroup⟩ := mem_inputs hf
        rw [← key_of_groupKey (hgroup.trans hfirst.2.symm)]
        exact h.files f (mem_held.mpr (.inl hlisted)) schema hfooter
      obtain ⟨merged, hmerged, _⟩ := Conforms.alignSchema h.node.one hconf
      rw [hmerged] at hstep
      cases result with
      | failed folded =>
          obtain rfl := Option.some.inj hstep
          cases folded <;> exact h.agreed
      | landed =>
          simp only at hstep
          split at hstep
          · obtain rfl := Option.some.inj hstep
            exact h.agreed
          · obtain rfl := Option.some.inj hstep
            exact h.agreed
  · cases hstep

theorem Typed.compact (h : Typed s) {group : GroupKey} {maxTs : Int} {size : Nat}
    {result : CommitEnd} (hown : typesKept fl s (.compact group maxTs size result))
    (hstep : Registry.compact s group maxTs size result = some t) : Typed t := by
  have hfiles : AllHave (Conforms s.stored) t := by
    refine h.files.compact (fun _ f hf => ?_) hown ?_ hstep
    · rw [incoming_nil h.head] at hf
      cases hf
    · intro key schemas merged hschemas halign
      obtain ⟨merged', hmerged', hconf⟩ := Conforms.alignSchema h.node.one hschemas
      rw [hmerged'] at halign
      obtain rfl := Except.ok.inj halign
      exact hconf
  obtain ⟨hhead, hstored, hflights⟩ := head_compact h.head hstep
  have hnode := compact_node hstep
  refine ⟨?_, ?_, ?_, hhead, compact_agreed h hstep⟩
  · rw [hstored, hnode]
    exact h.node
  · rw [hstored, hflights]
    exact h.flights
  · rw [hstored]
    exact hfiles

theorem Typed.commit (h : Typed s) {k : Nat} {result : CommitEnd}
    (hstep : Registry.commit s k result = some t) : Typed t := by
  have hfiles := h.files.commit (fun _ f hf => by
    rw [incoming_nil h.head] at hf
    cases hf) hstep
  unfold Registry.commit at hstep
  split at hstep
  · cases result with
    | landed =>
        obtain rfl := Option.some.inj hstep
        refine ⟨h.node, ?_, hfiles, by simp, h.agreed⟩
        exact fun j flight hj => h.flights j flight (AssocMap.of_lookup_erase hj).2
    | failed folded =>
        obtain rfl := Option.some.inj hstep
        cases folded with
        | true =>
            refine ⟨h.node, ?_, hfiles, rfl, h.agreed⟩
            exact fun j flight hj => h.flights j flight (AssocMap.of_lookup_erase hj).2
        | false =>
            refine ⟨h.node, ?_, hfiles, h.head, h.agreed⟩
            exact fun j flight hj => h.flights j flight (AssocMap.of_lookup_erase hj).2
  · cases hstep

theorem refreshTable_typed (h : Typed s) {key : TableKey} {path : String}
    (hfile : ∀ footer ∈ s.footers.lookup path, Conforms s.stored key footer) :
    Typed (s.refreshTable key path) ∧ (s.refreshTable key path).stored = s.stored := by
  have hw := refreshTable_widens s key path
  unfold State.refreshTable at hw ⊢
  split
  · exact ⟨h, rfl⟩
  · split
    · exact ⟨h, rfl⟩
    · next schema hschema =>
        obtain ⟨merged, hmerged, hconf⟩ := Conforms.schemaUnion h.node.one
          (fun known hknown => h.node.registry key known hknown) (hfile schema hschema)
        rw [show s.registered key = s.node.schemas.lookup key from rfl, hmerged]
        refine ⟨⟨⟨h.node.one, h.node.kinds, h.node.buffers, ?_⟩, h.flights, h.files, h.head,
          h.agreed⟩, rfl⟩
        intro j known hknown
        rcases AssocMap.of_lookup_insert hknown with ⟨rfl, rfl⟩ | ⟨_, hold⟩
        · exact hconf
        · exact h.node.registry j known hold

/-- The newest file of a table is one of its files. -/
theorem mem_newestFiles {files : List FileMeta} {key : TableKey} {path : String}
    (h : (newestFiles files).lookup key = some path) :
    ∃ f ∈ files, f.key = key ∧ f.path = path := by
  have hfold : ∀ (l : List FileMeta) (m : AssocMap TableKey String),
      (l.foldl (fun newest f => if (newest.lookup f.key).getD "" < f.path then
        newest.insert f.key f.path else newest) m).lookup key = some path →
      m.lookup key = some path ∨ ∃ f ∈ l, f.key = key ∧ f.path = path := by
    intro l
    induction l with
    | nil => exact fun m hm => .inl hm
    | cons f rest ih =>
        intro m hm
        rcases ih _ hm with hm | ⟨g, hg, heq⟩
        · beta_reduce at hm
          split at hm
          · rcases AssocMap.of_lookup_insert hm with ⟨rfl, rfl⟩ | ⟨_, hm⟩
            · exact .inr ⟨f, by simp, rfl, rfl⟩
            · exact .inl hm
          · exact .inl hm
        · exact .inr ⟨g, List.mem_cons_of_mem _ hg, heq⟩
  rcases hfold files ∅ h with hnone | hfound
  · cases hnone
  · exact hfound

theorem refresh_typed (h : Typed s) : Typed s.refresh ∧ s.refresh.stored = s.stored := by
  have hentries : ∀ e ∈ (newestFiles s.files).entries, ∀ footer ∈ s.footers.lookup e.2,
      Conforms s.stored e.1 footer := by
    rintro ⟨key, path⟩ he footer hfooter
    obtain ⟨f, hf, rfl, rfl⟩ := mem_newestFiles (AList.mem_lookup_iff.mpr he)
    exact h.files f (mem_held.mpr (.inl hf)) footer hfooter
  have hfold : ∀ (l : List (Sigma fun _ : TableKey => String)) (u : State), Typed u →
      (∀ e ∈ l, ∀ footer ∈ u.footers.lookup e.2, Conforms u.stored e.1 footer) →
      Typed (l.foldl (fun s e => s.refreshTable e.1 e.2) u) ∧
        (l.foldl (fun s e => s.refreshTable e.1 e.2) u).stored = u.stored := by
    intro l
    induction l with
    | nil => exact fun u hu _ => ⟨hu, rfl⟩
    | cons e rest ih =>
        intro u hu hl
        obtain ⟨htyped, hstored⟩ := refreshTable_typed hu (hl e (by simp))
        have hrest := ih _ htyped fun e' he' footer hfooter => by
          rw [hstored]
          rw [(refreshTable_widens u e.1 e.2).footers] at hfooter
          exact hl e' (List.mem_cons_of_mem _ he') footer hfooter
        exact ⟨hrest.1, hrest.2.trans hstored⟩
  exact hfold _ s h hentries

theorem Typed.step {a : Action} (h : Typed s) (hkept : typesKept fl s a)
    (hstep : Registry.step fl s a = some t) : Typed t ∧ s.stored ⊆ t.stored := by
  cases a with
  | append c =>
      simp only [Registry.step, Registry.append] at hstep
      split at hstep
      · obtain rfl := Option.some.inj hstep
        exact ⟨⟨⟨h.node.one, h.node.kinds, h.node.buffers, h.node.registry⟩, h.flights, h.files,
          h.head, h.agreed⟩, fun _ hc => hc⟩
      · cases hstep
  | apply i nowNs =>
      simp only [Registry.step, Registry.apply] at hstep
      split at hstep
      · cases hstep
      · next w hw =>
          obtain rfl := Option.some.inj hstep
          have htyped := h.applied (hkept w hw)
          exact ⟨⟨htyped.node, htyped.flights, htyped.files, htyped.head, htyped.agreed⟩,
            List.subset_append_left _ _⟩
  | handover k rotated =>
      refine ⟨h.handover hstep, ?_⟩
      simp only [Registry.step, Registry.handover] at hstep
      split at hstep
      · obtain rfl := Option.some.inj hstep
        exact fun _ hc => hc
      · cases hstep
  | flushOne k size puts =>
      refine ⟨h.flushOne hkept hstep, ?_⟩
      simp only [Registry.step, Registry.flushOne] at hstep
      split at hstep
      · split at hstep
        · obtain rfl := Option.some.inj hstep
          exact fun _ hc => hc
        · obtain rfl := Option.some.inj hstep
          exact fun _ hc => hc
      · cases hstep
  | commit k result =>
      refine ⟨h.commit hstep, ?_⟩
      simp only [Registry.step, Registry.commit] at hstep
      split at hstep
      · cases result with
        | landed =>
            obtain rfl := Option.some.inj hstep
            exact fun _ hc => hc
        | failed folded =>
            obtain rfl := Option.some.inj hstep
            cases folded <;> exact fun _ hc => hc
      · cases hstep
  | reclaim frames =>
      obtain rfl := Option.some.inj hstep
      exact ⟨⟨⟨h.node.one, h.node.kinds, h.node.buffers, h.node.registry⟩, h.flights, h.files,
        h.head, h.agreed⟩, fun _ hc => hc⟩
  | compact group maxTs size result =>
      refine ⟨h.compact hkept hstep, ?_⟩
      rw [(head_compact h.head hstep).2.1]
      exact fun _ hc => hc
  | foreign e footers => exact hkept.elim
  | catchUp =>
      simp only [Registry.step, Registry.catchUp] at hstep
      split at hstep
      · split at hstep
        · obtain rfl := Option.some.inj hstep
          exact ⟨h, fun _ hc => hc⟩
        · next hne => exact absurd h.head hne
      · cases hstep
  | openEngine =>
      obtain rfl := Option.some.inj hstep
      have hdown : Typed { s with
          node := { s.node with buffers := ∅, schemas := ∅ }
          waiting := []
          source := ∅
          head := s.log.length
          fileSeq := 0
          flights := ∅
          phase := .replaying s.node.wal } := by
        refine ⟨⟨h.node.one, h.node.kinds, (fun key b hb => by cases hb),
          (fun key schema hs => by cases hs)⟩, (fun k flight hk => by cases hk), ?_, rfl, h.agreed⟩
        intro f hf
        rcases mem_held.mp hf with hf | ⟨k, flight, hk, _⟩
        · refine h.files f (mem_held.mpr (.inl ?_))
          rw [State.files, h.head]
          exact hf
        · cases hk
      obtain ⟨htyped, hstored⟩ := refresh_typed hdown
      refine ⟨htyped, ?_⟩
      rw [Registry.openEngine, hstored]
      exact fun _ hc => hc
  | replay =>
      simp only [Registry.step, Registry.replay] at hstep
      split at hstep
      · next f todo hphase =>
          obtain rfl := Option.some.inj hstep
          have hfits : s.BodyFits f.db (linesOf fl (fromUtf8Lossy f.body) f.mult 0) :=
            hkept f (by rw [State.nextFrame, hphase]; rfl)
          have htyped := h.applied hfits
          exact ⟨⟨htyped.node, htyped.flights, htyped.files, htyped.head, htyped.agreed⟩,
            List.subset_append_left _ _⟩
      · cases hstep
  | serve =>
      simp only [Registry.step, Registry.serve] at hstep
      split at hstep
      · obtain rfl := Option.some.inj hstep
        obtain ⟨htyped, hstored⟩ := refresh_typed h
        refine ⟨⟨htyped.node, htyped.flights, htyped.files, htyped.head, htyped.agreed⟩, ?_⟩
        rw [show ({ s.refresh with phase := .serving } : State).stored = s.refresh.stored from rfl,
          hstored]
        exact fun _ hc => hc
      · cases hstep

/-- A column of a buffer, of the registry, of a snapshot under way or of a file
has this type. -/
def State.Gives (s : State) (key : TableKey) (name : String) (T : DataType) : Prop :=
  (∃ b, s.node.buffers.lookup key = some b ∧ (name, T) ∈ b.1.schemaOnly) ∨
  (∃ schema, s.registered key = some schema ∧ (name, T) ∈ schema) ∨
  (∃ k flight b, s.flights.lookup k = some flight ∧ (key, b) ∈ flight.todo ∧
    (name, T) ∈ b.schemaOnly) ∨
  (∃ f ∈ s.held, f.key = key ∧ ∃ footer, s.footers.lookup f.path = some footer ∧ (name, T) ∈ footer)

theorem Typed.gives (h : Typed s) {key : TableKey} {name : String} {T : DataType}
    (hgives : s.Gives key name T) : (key, name, T) ∈ s.stored := by
  rcases hgives with ⟨b, hb, hc⟩ | ⟨schema, hschema, hc⟩ | ⟨k, flight, b, hk, hp, hc⟩ |
    ⟨f, hf, rfl, footer, hfooter, hc⟩
  · exact h.node.buffers key b hb _ hc
  · exact h.node.registry key schema hschema _ hc
  · exact h.flights k flight hk (key, b) hp _ hc
  · exact h.files f hf footer hfooter _ hc

variable {declared : AssocMap TableKey TableSchema} {lastValue : LastValueCache}

theorem typed_start : Typed (start declared lastValue [] ∅ []) where
  node := {
    one := fun _ _ _ _ h => by cases h
    kinds := fun _ h => by cases h
    buffers := fun _ _ h => by cases h
    registry := fun _ _ h => by cases h }
  flights := fun _ _ h => by cases h
  files := fun _ h => by cases h
  head := rfl
  agreed := rfl

theorem Typed.run {acts : List Action} (run : Run (Registry.step fl) (typesKept fl) s acts t)
    (h : Typed s) : Typed t ∧ s.stored ⊆ t.stored := by
  refine run.invariant (P := fun u => Typed u ∧ s.stored ⊆ u.stored) ?_ ⟨h, fun _ hc => hc⟩
  rintro u a v ⟨hu, hsub⟩ hkept hstep
  obtain ⟨hv, hgrow⟩ := hu.step hkept hstep
  exact ⟨hv, fun _ hc => hgrow (hsub hc)⟩

/-- In every run of one node whose steps meet `typesKept`, what gives a column a
type gives it the same type ever after, and no union or merge conflicts: none
has, and neither does what `table_schema` or a compaction would make of the
state reached. -/
theorem column_types_stable {acts later : List Action}
    (run : Run (step fl) (typesKept fl) (start declared lastValue [] ∅ []) acts s)
    (run' : Run (step fl) (typesKept fl) s later t) :
    (∀ key name T T', s.Gives key name T → t.Gives key name T' → T = T') ∧
      t.conflict = false ∧
      (∀ key, 0 < (t.node.buffer key).1.rowCount →
        ∃ merged, schemaUnion (t.registered key) (t.node.buffer key).1.schemaOnly = .ok merged) ∧
      ∀ key (files : List FileMeta) schemas, (∀ f ∈ files, f ∈ t.files ∧ f.key = key) →
        files.mapM (fun f => t.footers.lookup f.path) = some schemas →
        ∃ merged, alignSchema schemas = .ok merged := by
  have hs := (Typed.run run typed_start).1
  obtain ⟨ht, hgrow⟩ := Typed.run run' hs
  refine ⟨?_, ht.agreed, ?_, ?_⟩
  · intro key name T T' hgives hgives'
    exact ht.node.one key name T T' (hgrow (hs.gives hgives)) (ht.gives hgives')
  · intro key hrows
    have hbuffer : ∃ b, t.node.buffers.lookup key = some b := by
      cases hb : t.node.buffers.lookup key with
      | some b => exact ⟨b, rfl⟩
      | none =>
          rw [Ingest.Node.buffer, hb] at hrows
          cases hrows
    obtain ⟨b, hb⟩ := hbuffer
    obtain ⟨merged, hmerged, _⟩ := Conforms.schemaUnion ht.node.one
      (fun schema hschema => ht.node.registry key schema hschema) (ht.node.buffers key b hb)
    exact ⟨merged, by rw [Ingest.Node.buffer, hb]; exact hmerged⟩
  · intro key files schemas hfiles hread
    have hall : ∀ schema ∈ schemas, Conforms t.stored key schema := by
      intro schema hschema
      obtain ⟨f, hf, hfooter⟩ := mem_of_mapM_eq_some hread hschema
      obtain ⟨hlisted, rfl⟩ := hfiles f hf
      exact ht.files f (mem_held.mpr (.inl hlisted)) schema hfooter
    obtain ⟨merged, hmerged, _⟩ := Conforms.alignSchema ht.node.one hall
    exact ⟨merged, hmerged⟩

section Samples

/-- A restart that still knows the column, a replay that makes it anew, and a
field next to it. -/
def steadyActs : List Action :=
  booting ++ flushing 0 "m,host=a v=1i 1" ++
    [.append (sampleCall "m,host=a v=2i,w=1i 2"), .apply 0 0] ++
    [.openEngine, .replay, .serve] ++ [.append (sampleCall "m w=3i 3"), .apply 0 0]

theorem steady_types :
    ∃ s, Run (step noFloats) (typesKept noFloats) fresh steadyActs s ∧
      s.Gives ("db", "m") "w" .int64 ∧
      ∀ t later T, Run (step noFloats) (typesKept noFloats) s later t →
        t.Gives ("db", "m") "w" T → T = .int64 := by
  obtain ⟨s, run, hw⟩ := exists_run_with (step noFloats) (typesKept noFloats) fresh steadyActs
    (fun s => ∃ b ∈ s.node.buffers.lookup ("db", "m"), ("w", DataType.int64) ∈ b.1.schemaOnly)
    (by decide +kernel)
  obtain ⟨b, hb, hc⟩ := hw
  have hgives : s.Gives ("db", "m") "w" .int64 := .inl ⟨b, hb, hc⟩
  refine ⟨s, run, hgives, ?_⟩
  intro t later T run' hT
  exact ((column_types_stable run run').1 _ _ _ _ hgives hT).symm

/-- A restart between two flushes of different columns forgets the first; it is
then written as text. The files give it two types, and their merge conflicts. -/
theorem restart_changes_type :
    ∃ s, Run (step noFloats) (fun _ _ => True) fresh
        (booting ++ flushing 0 "m v=1i 1" ++ flushing 1 "m w=1i 2" ++ booting ++
          flushing 2 "m v=\"x\" 3" ++ [.compact ("db", "m", "1970010100") 3 0 .landed]) s ∧
      s.conflict = true ∧
      (∃ f ∈ s.files, f.key = ("db", "m") ∧
        s.footers.lookup f.path = some [("time", .timestamp), ("v", .int64)]) ∧
      ∃ f ∈ s.files, f.key = ("db", "m") ∧
        s.footers.lookup f.path = some [("time", .timestamp), ("v", .utf8)] :=
  exists_run_with _ _ _ _ _ (by decide +kernel)

end Samples

end Stability

end TimeLake.Registry
