import TimeLake.Registry.Types

/-!
The names of the columns of one table: of its buffer, of what a flush takes of
it, of the registry and of their union. The parser keeps `time` out of the tags
and of the fields, and the maps of a buffer keep each kind of column distinct;
but tags and fields are two maps, and nothing looks from one into the other.
-/

namespace TimeLake.Registry

open TimeLake.Library TimeLake.Ingest
open TimeLake.Rows (FieldValue)

section Batch

/-- The arrays of a batch. -/
inductive ColumnData where
  | times (values : List Int)
  | tag (keys : List (Option Nat)) (values : List String)
  | field (cells : List (Option FieldValue))

def ColumnData.length : ColumnData → Nat
  | .times values => values.length
  | .tag keys _ => keys.length
  | .field cells => cells.length

abbrev RecordBatch := List ((String × DataType) × ColumnData)

/-- `TableBuffer::snapshot`; a batch is refused if its columns are not of one
length. -/
def snapshot (b : TableBuffer) : Option RecordBatch :=
  let columns : RecordBatch := (("time", .timestamp), .times b.times) ::
    (b.tags.map fun p => ((p.1, .dictionary), .tag p.2.keys p.2.values)) ++
      b.fields.map fun p => ((p.1, p.2.ty.dataType), .field p.2.cells)
  if columns.all fun c => c.2.length = b.times.length then some columns else none

/-- A snapshot is always built, under the schema of `schema_only`. -/
theorem snapshot_eq (b : Buffer) : ∃ batch, snapshot b.1 = some batch ∧
    batch.map Prod.fst = b.1.schemaOnly := by
  refine ⟨_, if_pos ?_, ?_⟩
  · simp only [List.all_append, List.all_cons, List.all_map, Bool.and_eq_true, List.all_eq_true,
      Function.comp_apply, decide_eq_true_eq]
    exact ⟨⟨rfl, fun p hp => b.2.tagRows p hp⟩, fun p hp => b.2.fieldRows p hp⟩
  · simp [TableBuffer.schemaOnly, TableBuffer.tagNames, columnsOf, typesOf, Function.comp_def]

end Batch

section Steps

/-- What one node has of one table. `flushing` are the buffers a flush has taken
and not come to yet. -/
structure Table where
  buffer : Buffer
  flushing : List Buffer
  registry : Option Schema

inductive TableEvent where
  | append (line : List Char) (mult ts : Int) (read : Option Schema)
  | note
  | handover
  | flushOne

def Table.start (registry : Option Schema) : Table := ⟨.empty, [], registry⟩

/-- The registry takes the columns in, unless their types conflict. -/
def Table.register (t : Table) (columns : Schema) : Table :=
  match schemaUnion t.registry columns with
  | .ok merged => { t with registry := some merged }
  | .error _ => t

/-- The steps of `apply` and of `flush_all` on a table. A line is checked against
the registry as the write has read it; a line that is refused changes nothing. -/
def tableStep (fl : FloatOps) (t : Table) : TableEvent → Option Table
  | .append line mult ts read =>
      match parseLine fl line mult ts with
      | .error _ => none
      | .ok line =>
          match t.buffer.append fl line fun name => read.bind fun schema => schema.types name with
          | (b, .ok ()) => some { t with buffer := b }
          | (_, .error _) => none
  | .note =>
      if (t.registry.map List.length).getD 0 < t.buffer.1.schemaOnly.length then
        some (t.register t.buffer.1.schemaOnly)
      else some t
  | .handover =>
      if 0 < t.buffer.1.rowCount then
        some { t with buffer := .empty, flushing := t.flushing ++ [t.buffer] }
      else none
  | .flushOne =>
      match t.flushing with
      | [] => none
      | b :: rest => some (({ t with flushing := rest } : Table).register b.1.schemaOnly)

/-- `Engine::table_schema`. -/
def Table.schema (t : Table) : Option Schema :=
  if 0 < t.buffer.1.rowCount then (schemaUnion t.registry t.buffer.1.schemaOnly).toOption
  else t.registry

end Steps

section Names

def Schema.Distinct (schema : Schema) : Prop := (schema.map Prod.fst).Nodup

instance (schema : Schema) : Decidable (Schema.Distinct schema) :=
  inferInstanceAs (Decidable (List.Nodup _))

/-- No schema of the table has two columns of one name. -/
structure Table.NamesDistinct (t : Table) : Prop where
  schemaOnly : Schema.Distinct t.buffer.1.schemaOnly
  snapshot : ∀ batch, snapshot t.buffer.1 = some batch → Schema.Distinct (batch.map Prod.fst)
  flushing : ∀ b ∈ t.flushing, ∀ batch, Registry.snapshot b.1 = some batch →
    Schema.Distinct (batch.map Prod.fst)
  union : ∀ merged, schemaUnion t.registry t.buffer.1.schemaOnly = .ok merged →
    Schema.Distinct merged
  schema : ∀ schema, t.schema = some schema → Schema.Distinct schema

/-- No name is a tag in the line or in the buffer and a field in the line or in
the buffer, if the line brings it. -/
def Apart (b : TableBuffer) (line : ParsedLine) : Prop :=
  (∀ p ∈ line.tags, p.1 ∉ line.fields.map Prod.fst ∧ p.1 ∉ b.fields.map Prod.fst) ∧
    ∀ p ∈ line.fields, p.1 ∉ b.tagNames

instance (b : TableBuffer) (line : ParsedLine) : Decidable (Apart b line) :=
  inferInstanceAs (Decidable ((∀ p ∈ line.tags, _) ∧ ∀ p ∈ line.fields, _))

def KeepsApart (fl : FloatOps) (t : Table) : TableEvent → Prop
  | .append line mult ts _ => ∀ l ∈ (parseLine fl line mult ts).toOption, Apart t.buffer.1 l
  | _ => True

instance (fl : FloatOps) (t : Table) : DecidablePred (KeepsApart fl t)
  | .append line mult ts _ =>
      inferInstanceAs (Decidable (∀ l ∈ (parseLine fl line mult ts).toOption, _))
  | .note => .isTrue trivial
  | .handover => .isTrue trivial
  | .flushOne => .isTrue trivial

end Names

section Parser

/-- The parser lets no tag and no field be called `time`. -/
theorem ne_time_of_accepted {kind : KeyKind} {name : String}
    (h : rejectReservedKey kind name = .ok ()) : name ≠ "time" := by
  unfold rejectReservedKey reservedKey at h
  split at h
  · cases h
  · next hne => exact hne

theorem takeTags_ne_time {text : List Char} {tags : List (String × String)} {left : List Char}
    (h : takeTags text = .ok (tags, left)) : ∀ p ∈ tags, p.1 ≠ "time" := by
  fun_induction takeTags text generalizing tags left with
  | case1 => cases h
  | case2 text key rest hkey name hname =>
      rename_i val ih
      cases hrest : takeTags val.2 with
      | error e =>
          rw [hrest] at h
          cases h
      | ok p =>
          rw [hrest] at h
          cases h
          intro q hq
          rcases List.mem_cons.mp hq with rfl | hq
          · exact ne_time_of_accepted hname
          · exact ih hrest q hq
  | case3 => cases h
  | case4 =>
      cases h
      intro q hq
      cases hq

theorem takeFields_ne_time {fl : FloatOps} {text : List Char} {fields : List (String × FieldValue)}
    {left : List Char} (h : takeFields fl text = .ok (fields, left)) :
    ∀ p ∈ fields, p.1 ≠ "time" := by
  fun_induction takeFields fl text generalizing fields left with
  | case1 => cases h
  | case2 => cases h
  | case3 text key rest hkey name hname v more =>
      rename_i _ ih
      cases hmore : takeFields fl more with
      | error e =>
          rw [hmore] at h
          cases h
      | ok p =>
          rw [hmore] at h
          cases h
          intro q hq
          rcases List.mem_cons.mp hq with rfl | hq
          · exact ne_time_of_accepted hname
          · exact ih hmore q hq
  | case4 text key rest hkey name hname v left' =>
      cases h
      intro q hq
      obtain rfl := List.mem_singleton.mp hq
      exact ne_time_of_accepted hname
  | case5 => cases h

theorem parseLine_ne_time {fl : FloatOps} {text : List Char} {mult ts : Int} {line : ParsedLine}
    (h : parseLine fl text mult ts = .ok line) :
    (∀ p ∈ line.tags, p.1 ≠ "time") ∧ ∀ p ∈ line.fields, p.1 ≠ "time" := by
  unfold parseLine at h
  cases hread : readLine fl mult text with
  | error e =>
      rw [hread] at h
      cases h
  | ok raw =>
      rw [hread] at h
      cases h
      unfold readLine at hread
      dsimp only at hread
      split at hread
      · cases hread
      · obtain ⟨⟨tags, rest⟩, htags, hread⟩ := bind_eq_ok.mp hread
        dsimp only at hread
        split at hread
        · obtain ⟨⟨fields, rest⟩, hfields, hread⟩ := bind_eq_ok.mp hread
          obtain ⟨timestamp, _, hread⟩ := bind_eq_ok.mp hread
          cases hread
          exact ⟨takeTags_ne_time htags, takeFields_ne_time hfields⟩
        · cases hread

end Parser

section Columns

/-- The columns of a buffer have distinct names. -/
structure BufferApart (b : TableBuffer) : Prop where
  tagTime : "time" ∉ b.tagNames
  fieldTime : "time" ∉ b.fields.map Prod.fst
  disjoint : ∀ name ∈ b.tagNames, name ∉ b.fields.map Prod.fst

theorem names_schemaOnly (b : TableBuffer) :
    b.schemaOnly.map Prod.fst = "time" :: b.tagNames ++ b.fields.map Prod.fst := by
  simp [TableBuffer.schemaOnly, columnsOf, typesOf, Function.comp_def]

theorem distinct_schemaOnly_iff (b : Buffer) :
    Schema.Distinct b.1.schemaOnly ↔ BufferApart b.1 := by
  rw [Schema.Distinct, names_schemaOnly, List.nodup_append, List.nodup_cons]
  constructor
  · rintro ⟨⟨htime, _⟩, _, hdisjoint⟩
    refine ⟨htime, fun h => ?_, fun name hname h => ?_⟩
    · exact hdisjoint _ List.mem_cons_self _ h rfl
    · exact hdisjoint _ (List.mem_cons_of_mem _ hname) _ h rfl
  · rintro ⟨htag, hfield, hdisjoint⟩
    refine ⟨⟨htag, b.2.tagNames⟩, b.2.fieldNames, ?_⟩
    rintro name hname _ hother rfl
    rcases List.mem_cons.mp hname with rfl | hname
    · exact hfield hother
    · exact hdisjoint name hname hother

theorem distinct_unionInto {a b merged : Schema} (ha : Schema.Distinct a)
    (h : unionInto a b = .ok merged) : Schema.Distinct merged := by
  induction b generalizing a with
  | nil =>
      obtain rfl := Except.ok.inj h
      exact ha
  | cons p rest ih =>
      obtain ⟨name, dt⟩ := p
      simp only [unionInto] at h
      split at h
      · next hnone =>
          refine ih ?_ h
          rw [Schema.Distinct, List.map_append, List.nodup_append]
          refine ⟨ha, by simp, ?_⟩
          rintro _ hold _ hnew rfl
          obtain ⟨q, hq, rfl⟩ := List.mem_map.mp hold
          obtain rfl : q.1 = name := by simpa using hnew
          obtain ⟨known, hknown⟩ := types_isSome_of_mem hq
          rw [hnone] at hknown
          cases hknown
      · split at h
        · exact ih ha h
        · cases h

theorem distinct_schemaUnion {a : Option Schema} {b merged : Schema}
    (ha : ∀ schema, a = some schema → Schema.Distinct schema) (hb : Schema.Distinct b)
    (h : schemaUnion a b = .ok merged) : Schema.Distinct merged := by
  cases a with
  | none =>
      obtain rfl := Except.ok.inj h
      exact hb
  | some a =>
      refine distinct_unionInto ?_ h
      rw [Schema.Distinct, names_settle]
      exact ha a rfl

end Columns

section Append

variable {fl : FloatOps} {est : Established} {b b' : Buffer} {line : ParsedLine}

theorem mem_addTags_iff {names : List String} {tags : List (String × String)} {name : String} :
    name ∈ addTags names tags ↔ name ∈ names ∨ name ∈ tags.map Prod.fst := by
  induction tags generalizing names with
  | nil => simp [addTags]
  | cons p rest ih =>
      have hcons : addTags names (p :: rest) = addTags (addName names p.1) rest := rfl
      rw [hcons, ih, mem_addName, List.map_cons, List.mem_cons]
      tauto

/-- A line that is taken adds its tags to the tags and its fields to the fields. -/
theorem names_append (h : b.append fl line est = (b', .ok ())) (name : String) :
    (name ∈ b'.1.tagNames ↔ name ∈ b.1.tagNames ∨ name ∈ line.tags.map Prod.fst) ∧
      (name ∈ b'.1.fields.map Prod.fst ↔
        name ∈ b.1.fields.map Prod.fst ∨ name ∈ line.fields.map Prod.fst) := by
  have hspec := append_spec fl est b.2 line
  simp only [Buffer.append, Prod.mk.injEq] at h
  obtain ⟨hbuffer, hok⟩ := h
  split at hspec
  · obtain ⟨e, heq⟩ := hspec
    rw [heq] at hok
    cases hok
  · next after haccept =>
      obtain ⟨b'', heq, _, htypes, htags, _⟩ := hspec
      obtain rfl : b'' = b'.1 :=
        (congrArg Prod.fst heq).symm.trans (congrArg Subtype.val hbuffer)
      have hfields : ∀ c : TableBuffer, c.fields.map Prod.fst = (typesOf c.fields).map Prod.fst :=
        fun c => by simp [typesOf, Function.comp_def]
      refine ⟨by rw [TableBuffer.tagNames, htags, mem_addTags_iff]; rfl, ?_⟩
      rw [hfields, hfields, htypes]
      obtain ⟨hold, hnew⟩ := names_admitFields haccept
      constructor
      · intro hname
        obtain ⟨p, hp, rfl⟩ := List.mem_map.mp hname
        rcases mem_admitFields haccept hp with hp | ⟨_, v, hv, _⟩
        · exact .inl (List.mem_map_of_mem hp)
        · exact .inr (List.mem_map.mpr ⟨_, mem_of_lookup hv, rfl⟩)
      · rintro (hname | hname)
        · exact hold hname
        · exact hnew hname

/-- A parsed line keeps the columns apart if and only if it is apart from them. -/
theorem bufferApart_append_iff (hb : BufferApart b.1)
    (htime : (∀ p ∈ line.tags, p.1 ≠ "time") ∧ ∀ p ∈ line.fields, p.1 ≠ "time")
    (h : b.append fl line est = (b', .ok ())) : BufferApart b'.1 ↔ Apart b.1 line := by
  have hnames := names_append h
  constructor
  · intro hb'
    refine ⟨fun p hp => ?_, fun p hp hold => ?_⟩
    · have hnot := hb'.disjoint p.1 ((hnames p.1).1.mpr (.inr (List.mem_map_of_mem hp)))
      rw [(hnames p.1).2, not_or] at hnot
      exact ⟨hnot.2, hnot.1⟩
    · refine hb'.disjoint p.1 ((hnames p.1).1.mpr (.inl hold)) ?_
      exact (hnames p.1).2.mpr (.inr (List.mem_map_of_mem hp))
  · rintro ⟨htags, hfields⟩
    refine ⟨fun h => ?_, fun h => ?_, fun name htag hfield => ?_⟩
    · rcases (hnames "time").1.mp h with hold | hnew
      · exact hb.tagTime hold
      · obtain ⟨p, hp, heq⟩ := List.mem_map.mp hnew
        exact htime.1 p hp heq
    · rcases (hnames "time").2.mp h with hold | hnew
      · exact hb.fieldTime hold
      · obtain ⟨p, hp, heq⟩ := List.mem_map.mp hnew
        exact htime.2 p hp heq
    · rcases (hnames name).1.mp htag with hold | hnew
      · rcases (hnames name).2.mp hfield with hother | hother
        · exact hb.disjoint name hold hother
        · obtain ⟨q, hq, rfl⟩ := List.mem_map.mp hother
          exact hfields q hq hold
      · obtain ⟨p, hp, rfl⟩ := List.mem_map.mp hnew
        rcases (hnames p.1).2.mp hfield with hother | hother
        · exact (htags p hp).2 hother
        · exact (htags p hp).1 hother

end Append

section Runs

variable {fl : FloatOps} {t t' : Table} {e : TableEvent}

/-- What every step keeps that keeps tags and fields apart. -/
structure TableApart (t : Table) : Prop where
  buffer : BufferApart t.buffer.1
  flushing : ∀ b ∈ t.flushing, BufferApart b.1
  registry : ∀ schema, t.registry = some schema → Schema.Distinct schema

theorem TableApart.distinct (h : TableApart t) : t.NamesDistinct := by
  have hsnapshot : ∀ b : Buffer, BufferApart b.1 → ∀ batch, snapshot b.1 = some batch →
      Schema.Distinct (batch.map Prod.fst) := by
    intro b hb batch hbatch
    obtain ⟨batch', hbatch', hschema⟩ := snapshot_eq b
    obtain rfl := Option.some.inj (hbatch.symm.trans hbatch')
    rw [hschema]
    exact (distinct_schemaOnly_iff b).mpr hb
  have hcolumns := (distinct_schemaOnly_iff t.buffer).mpr h.buffer
  refine ⟨hcolumns, hsnapshot _ h.buffer, fun b hb => hsnapshot b (h.flushing b hb),
    fun merged => distinct_schemaUnion h.registry hcolumns, ?_⟩
  intro schema hschema
  unfold Table.schema at hschema
  split at hschema
  · cases hunion : schemaUnion t.registry t.buffer.1.schemaOnly with
    | error e =>
        rw [hunion] at hschema
        cases hschema
    | ok merged =>
        rw [hunion] at hschema
        cases hschema
        exact distinct_schemaUnion h.registry hcolumns hunion
  · exact h.registry schema hschema

theorem TableApart.register (h : TableApart t) {columns : Schema}
    (hcolumns : Schema.Distinct columns) : TableApart (t.register columns) := by
  unfold Table.register
  split
  · next merged hmerged =>
      refine ⟨h.buffer, h.flushing, ?_⟩
      intro schema hschema
      cases hschema
      exact distinct_schemaUnion h.registry hcolumns hmerged
  · exact h

theorem bufferApart_empty : BufferApart Buffer.empty.1 :=
  ⟨List.not_mem_nil, List.not_mem_nil, fun _ h => absurd h List.not_mem_nil⟩

theorem TableApart.step (h : TableApart t) (hok : KeepsApart fl t e)
    (hstep : tableStep fl t e = some t') : TableApart t' := by
  cases e with
  | append line mult ts read =>
      simp only [tableStep] at hstep
      split at hstep
      · cases hstep
      · next l hparse =>
          split at hstep
          · next b happend =>
              obtain rfl := Option.some.inj hstep
              refine ⟨?_, h.flushing, h.registry⟩
              refine (bufferApart_append_iff h.buffer (parseLine_ne_time hparse) happend).mpr ?_
              exact hok l (by rw [hparse]; rfl)
          · cases hstep
  | note =>
      simp only [tableStep] at hstep
      split at hstep
      · obtain rfl := Option.some.inj hstep
        exact h.register ((distinct_schemaOnly_iff t.buffer).mpr h.buffer)
      · obtain rfl := Option.some.inj hstep
        exact h
  | handover =>
      simp only [tableStep] at hstep
      split at hstep
      · obtain rfl := Option.some.inj hstep
        refine ⟨bufferApart_empty, ?_, h.registry⟩
        intro b hb
        rcases List.mem_append.mp hb with hold | hnew
        · exact h.flushing b hold
        · rw [List.mem_singleton.mp hnew]
          exact h.buffer
      · cases hstep
  | flushOne =>
      simp only [tableStep] at hstep
      split at hstep
      · cases hstep
      · next b rest hflushing =>
          obtain rfl := Option.some.inj hstep
          have hb : BufferApart b.1 := h.flushing b (by rw [hflushing]; exact List.mem_cons_self)
          have hrest : TableApart { t with flushing := rest } := by
            refine ⟨h.buffer, fun c hc => h.flushing c ?_, h.registry⟩
            rw [hflushing]
            exact List.mem_cons_of_mem b hc
          exact hrest.register ((distinct_schemaOnly_iff b).mpr hb)

/-- A line that brings a tag and a field of one name together shows at once. -/
theorem keepsApart_of_distinct (h : t.NamesDistinct) (hstep : tableStep fl t e = some t')
    (h' : t'.NamesDistinct) : KeepsApart fl t e := by
  cases e with
  | append line mult ts read =>
      intro l hl
      simp only [tableStep] at hstep
      split at hstep
      · cases hstep
      · next parsed hparse =>
          rw [hparse] at hl
          cases hl
          split at hstep
          · next b happend =>
              obtain rfl := Option.some.inj hstep
              refine (bufferApart_append_iff ?_ (parseLine_ne_time hparse) happend).mp ?_
              · exact (distinct_schemaOnly_iff t.buffer).mp h.schemaOnly
              · exact (distinct_schemaOnly_iff b).mp h'.schemaOnly
          · cases hstep
  | note => trivial
  | handover => trivial
  | flushOne => trivial

/-- The columns of a table have distinct names in every state of a run if and only
if those of the registry have at its start and no line of the run brings a tag
and a field of one name together in a buffer. -/
theorem column_names_distinct_iff (fl : FloatOps) (registry : Option Schema)
    (events : List TableEvent) (t : Table)
    (run : Run (tableStep fl) (fun _ _ => True) (Table.start registry) events t) :
    Throughout (tableStep fl) Table.NamesDistinct (Table.start registry) events ↔
      (∀ schema, registry = some schema → Schema.Distinct schema) ∧
        Run (tableStep fl) (KeepsApart fl) (Table.start registry) events t := by
  constructor
  · intro h
    refine ⟨fun schema hschema => h.head.schema schema hschema, ?_⟩
    refine Throughout.run ?_ run h
    intro _ _ _ hs hstep ht
    exact keepsApart_of_distinct hs hstep ht
  · rintro ⟨hregistry, hrun⟩
    have hstart : TableApart (Table.start registry) :=
      ⟨bufferApart_empty, fun _ hb => absurd hb List.not_mem_nil, hregistry⟩
    exact hrun.throughout (fun _ _ _ hs hok hstep => hs.step hok hstep)
      (fun _ hs => hs.distinct) hstart

end Runs

section Nodes

/-! The steps of a node are these steps of its tables. -/

/-- What a node has of a table outside a flush. -/
def tableOf (s : Ingest.Node) (key : Catalog.TableKey) : Table :=
  ⟨s.buffer key, [], s.schemas.lookup key⟩

theorem tableOf_noteColumns {s s' : Ingest.Node} {key : Catalog.TableKey}
    (h : s.noteColumns key = (s', .ok ())) (fl : FloatOps) :
    tableStep fl (tableOf s key) .note = some (tableOf s' key) := by
  unfold Node.noteColumns at h
  dsimp only at h
  rw [tableStep]
  split at h
  · next hlt =>
      rw [if_pos (show ((tableOf s key).registry.map List.length).getD 0 <
        (tableOf s key).buffer.1.schemaOnly.length from hlt)]
      split at h
      · next merged hmerged =>
          cases h
          have hunion : schemaUnion (tableOf s key).registry (tableOf s key).buffer.1.schemaOnly =
              .ok merged := hmerged
          rw [Table.register, hunion]
          simp [tableOf, Node.buffer]
      · cases h
  · next hle =>
      cases h
      rw [if_neg (show ¬ ((tableOf s key).registry.map List.length).getD 0 <
        (tableOf s key).buffer.1.schemaOnly.length from hle)]

theorem tableOf_appendLines {s s' : Ingest.Node} {db : String} {text : List Char} {mult ts : Int}
    {line : ParsedLine} {fl : FloatOps} (hline : parseLine fl text mult ts = .ok line)
    (read : Option Schema)
    (h : s.appendLines fl db (fun _ name => read.bind fun schema => schema.types name) [line] =
      (s', .ok ())) :
    tableStep fl (tableOf s (db, line.table)) (.append text mult ts read) =
      some (tableOf s' (db, line.table)) := by
  unfold Node.appendLines at h
  dsimp only at h
  cases happend : (s.buffer (db, line.table)).append fl line
      fun name => read.bind fun schema => schema.types name with
  | mk b result =>
      rw [happend] at h
      cases result with
      | error e => cases h
      | ok u =>
          cases h
          rw [tableStep, hline]
          have hbuffer : (tableOf s (db, line.table)).buffer.append fl line
              (fun name => read.bind fun schema => schema.types name) = (b, .ok u) := happend
          dsimp only
          rw [hbuffer]
          simp [tableOf, Node.buffer]

end Nodes

section Samples

def lineOf (text : String) : TableEvent := .append text.toList 1 0 none

/-- A tag becomes a field of the same name behind a flush. -/
def renamedLater : List TableEvent :=
  [lineOf "t,host=a v=1i", .note, .handover, .flushOne, lineOf "t host=\"b\",w=2i", .note]

theorem renamedLater_distinct : ∃ t,
    Run (tableStep noFloats) (fun _ _ => True) (Table.start none) renamedLater t ∧
      t.registry = some [("time", .timestamp), ("host", .dictionary), ("v", .int64)] ∧
      Throughout (tableStep noFloats) Table.NamesDistinct (Table.start none) renamedLater := by
  obtain ⟨t, run, hregistry⟩ := exists_run_with (tableStep noFloats) (KeepsApart noFloats)
    (Table.start none) renamedLater
    (fun t => t.registry = some [("time", .timestamp), ("host", .dictionary), ("v", .int64)])
    (by decide +kernel)
  have hfree := run.mono fun _ _ _ => trivial
  refine ⟨t, hfree, hregistry, ?_⟩
  exact (column_names_distinct_iff noFloats none renamedLater t hfree).mpr ⟨by simp, run⟩

/-- One line with a tag and a field of one name makes both columns. -/
theorem tagAndField_collide : ∃ t,
    Run (tableStep noFloats) (fun _ _ => True) (Table.start none)
      [lineOf "cpu,usage=idle usage=1i"] t ∧
    ¬ Throughout (tableStep noFloats) Table.NamesDistinct (Table.start none)
      [lineOf "cpu,usage=idle usage=1i"] := by
  obtain ⟨t, run, hnames⟩ := exists_run_with (tableStep noFloats) (fun _ _ => True)
    (Table.start none) [lineOf "cpu,usage=idle usage=1i"]
    (fun t => t.buffer.1.schemaOnly.map Prod.fst = ["time", "usage", "usage"]) (by decide +kernel)
  refine ⟨t, run, fun h => ?_⟩
  have hdistinct := (h.last run).schemaOnly
  rw [Schema.Distinct, hnames] at hdistinct
  exact absurd hdistinct (by decide)

end Samples

end TimeLake.Registry
