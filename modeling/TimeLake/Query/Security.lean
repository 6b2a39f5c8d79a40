import TimeLake.Query.Scan
import TimeLake.Library.Fallible

/-!
What reaches the query engine from the tables of a database. A scan applies the
restrictions of the session to every batch, whatever the projection, and its rows
are permitted. The table function `last_cache` hands out the cached readings of a
table and asks nobody.
-/

namespace TimeLake.Query

open TimeLake.Library TimeLake.Catalog TimeLake.Rows TimeLake.Ingest

section Restrictions

variable {b b' : RecordBatch} {r : Record}

/-- A restriction that a row has passed, on a batch with the same columns. -/
def Passed (R : Restriction) (schema : List (String × ArrowType)) (r : Record) : Prop :=
  ∃ b b' : RecordBatch, b.schema = schema ∧ applyRestriction R b = .ok b' ∧ r ∈ b'.rows

theorem applyRestriction_schema {R : Restriction} (h : applyRestriction R b = .ok b') :
    b'.schema = b.schema ∧ b'.rows ⊆ b.rows := by
  cases R with
  | visibility column auths =>
      simp only [applyRestriction, applyVisibility] at h
      split at h
      · obtain rfl := Except.ok.inj h
        exact ⟨rfl, List.Subset.refl _⟩
      · split at h
        · obtain rfl := Except.ok.inj h
          exact ⟨rfl, fun r hr => List.mem_of_mem_filter hr⟩
        · cases h
  | tombstone deletes =>
      simp only [applyRestriction, applyTombstone] at h
      split at h
      · obtain rfl := Except.ok.inj h
        exact ⟨rfl, List.Subset.refl _⟩
      · split at h
        · cases h
        · obtain rfl := Except.ok.inj h
          exact ⟨rfl, fun r hr => List.mem_of_mem_filter hr⟩

theorem applyAll_cases {restrictions : List Restriction}
    (h : applyAll restrictions b = .ok b') :
    b'.schema = b.schema ∧ b'.rows ⊆ b.rows ∧
      ∀ R ∈ restrictions, ∀ r ∈ b'.rows, Passed R b.schema r := by
  induction restrictions generalizing b with
  | nil =>
      obtain rfl := Except.ok.inj h
      exact ⟨rfl, List.Subset.refl _, fun _ hR => by cases hR⟩
  | cons R rest ih =>
      simp only [applyAll, List.foldlM_cons] at h
      cases hR : applyRestriction R b with
      | error e =>
          rw [hR] at h
          cases h
      | ok next =>
          rw [hR] at h
          obtain ⟨hschema, hrows⟩ := applyRestriction_schema hR
          obtain ⟨hschema', hrows', hpassed⟩ := ih h
          refine ⟨hschema'.trans hschema, fun r hr => hrows (hrows' hr), ?_⟩
          intro Q hQ r hr
          rcases List.mem_cons.mp hQ with rfl | hQ
          · exact ⟨b, next, rfl, hR, hrows' hr⟩
          · rw [← hschema]
            exact hpassed Q hQ r hr

theorem str_of_labelType {c : Cell} {ty : ArrowType} (hty : isLabelType ty = true)
    (h : c.hasType ty = true) : ∃ label, c = .str label := by
  cases c with
  | str label => exact ⟨label, rfl⟩
  | _ => cases ty <;> simp [isLabelType, Cell.hasType] at hty h

/-- The label of a row that has passed is one the authorizations satisfy. -/
theorem Passed.label {column : String} {auths : List String} {schema : List (String × ArrowType)}
    (h : Passed (.visibility column auths) schema r)
    (hcolumn : (r column).isSome → (schema.lookup column).isSome) :
    r column = none ∨ ∃ label, r column = some (.str label) ∧ isVisible label auths = true := by
  obtain ⟨b, b', rfl, happly, hr⟩ := h
  cases hcell : r column with
  | none => exact .inl rfl
  | some c =>
      right
      have hsome := hcolumn (by rw [hcell]; rfl)
      obtain ⟨ty, hty⟩ := Option.isSome_iff_exists.mp hsome
      have hcol : b.column column = some ty := hty
      simp only [applyRestriction, applyVisibility, hcol] at happly
      split at happly
      · next hlabel =>
          obtain rfl := Except.ok.inj happly
          obtain ⟨hin, hvisible⟩ := List.mem_filter.mp hr
          have htyped := b.typed (column, ty) (mem_of_lookup hty) r hin c hcell
          obtain ⟨label, rfl⟩ := str_of_labelType hlabel htyped
          refine ⟨label, rfl, ?_⟩
          simpa only [labelVisible, hcell] using hvisible
      · cases happly

theorem satisfiable_of_covers {tags : List (String × String)} {sat : Bool}
    (hcells : ∀ p ∈ tags, r p.1 = some (.str p.2))
    (hcolumns : ∀ p ∈ tags, (r p.1).isSome → (b.column p.1).isSome)
    (h : satisfiable b tags = .ok sat) : sat = true := by
  induction tags with
  | nil => exact (Except.ok.inj h).symm
  | cons p rest ih =>
      have hhead := hcolumns p List.mem_cons_self (by rw [hcells p List.mem_cons_self]; rfl)
      obtain ⟨ty, hty⟩ := Option.isSome_iff_exists.mp hhead
      simp only [satisfiable, hty] at h
      split at h
      · exact ih (fun q hq => hcells q (List.mem_cons_of_mem _ hq))
          (fun q hq => hcolumns q (List.mem_cons_of_mem _ hq)) h
      · cases h

theorem deleted_of_covers {deletes : List Tombstone} {gone : Record → Bool} {t : Tombstone}
    (ht : t ∈ deletes) (hcovers : covers t r) (hin : r ∈ b.rows)
    (hcolumns : ∀ name, (name = "time" ∨ ∃ p ∈ t.tagEquals, p.1 = name) →
      (r name).isSome → (b.column name).isSome)
    (h : deleted b deletes = .ok gone) : gone r = true := by
  induction deletes generalizing gone with
  | nil => cases ht
  | cons t' rest ih =>
      simp only [deleted] at h
      split at h
      · cases h
      · cases h
      · next sat more hsat hmore =>
          obtain rfl := Except.ok.inj h
          rcases List.mem_cons.mp ht with rfl | ht
          · obtain ⟨htags, htime⟩ := hcovers
            have hsat' := satisfiable_of_covers htags
              (fun p hp => hcolumns p.1 (.inr ⟨p, hp, rfl⟩)) hsat
            have hall : t.tagEquals.all (fun p => r p.1 = some (.str p.2)) = true := by
              simpa using htags
            by_cases hbounded : t.minTsNs.isSome ∨ t.maxTsNs.isSome
            · obtain ⟨v, hv, hlo, hhi⟩ := htime hbounded
              have hcolumn := hcolumns "time" (.inl rfl) (by rw [hv]; rfl)
              obtain ⟨ty, hty⟩ := Option.isSome_iff_exists.mp hcolumn
              have htyped := b.typed ("time", ty) (mem_of_lookup hty) r hin _ hv
              have hns : ty = .timestamp .nanosecond := by
                cases ty with
                | timestamp unit => simpa [Cell.hasType, eq_comm] using htyped
                | _ => cases htyped
              have hhas : hasTime b = true := by rw [hasTime, hty, hns]
              have hwithin : withinBounds t (timeNs r) = true := by
                rw [timeNs, hv, withinBounds]
                simp only [Bool.and_eq_true, Option.all_eq_true, decide_eq_true_eq]
                exact ⟨hlo, hhi⟩
              simp only [hsat', hhas, hall, hwithin, Bool.or_true, Bool.and_self, Bool.true_or]
            · have hfree : (t.minTsNs.isSome || t.maxTsNs.isSome) = false := by
                simpa using hbounded
              simp only [hsat', hfree, hall, Bool.not_false, Bool.true_or, Bool.and_self]
          · simp only [ih ht hmore, Bool.or_true]

/-- No tombstone covers a row that has passed. -/
theorem Passed.live {deletes : List Tombstone} {schema : List (String × ArrowType)}
    (h : Passed (.tombstone deletes) schema r) {t : Tombstone} (ht : t ∈ deletes)
    (hcolumns : ∀ name, (name = "time" ∨ ∃ p ∈ t.tagEquals, p.1 = name) →
      (r name).isSome → (schema.lookup name).isSome) : ¬ covers t r := by
  intro hcovers
  obtain ⟨b, b', rfl, happly, hr⟩ := h
  have hin := (applyRestriction_schema happly).2 hr
  simp only [applyRestriction, applyTombstone] at happly
  split at happly
  · next hempty =>
      have hrows : b.rows ≠ [] := List.ne_nil_of_mem hin
      have hdeletes : deletes ≠ [] := List.ne_nil_of_mem ht
      simp [hrows, hdeletes] at hempty
  · split at happly
    · cases happly
    · next gone hgone =>
        obtain rfl := Except.ok.inj happly
        have hdeleted := deleted_of_covers ht hcovers hin hcolumns hgone
        have hkept := (List.mem_filter.mp hr).2
        rw [hdeleted] at hkept
        cases hkept

end Restrictions

section Scan

variable {t : LazyTable} {p : Pruning} {needed : Option (List String)} {b : RecordBatch}

/-- A cell of a column that was asked for is in a column of the batch. -/
def Loaded (needed : Option (List String)) (b : RecordBatch) : Prop :=
  ∀ r ∈ b.rows, ∀ name, needed.all (·.contains name) = true → (r name).isSome →
    (b.column name).isSome

theorem column_project (b : RecordBatch) (names : List String) (name : String) :
    (b.project names).column name = if names.contains name then b.column name else none :=
  lookup_filter_fst names.contains b.schema name

theorem loaded_project (hwhole : ∀ r ∈ b.rows, ∀ name, (r name).isSome → (b.column name).isSome) :
    Loaded needed (needed.elim b b.project) := by
  cases needed with
  | none => exact fun r hr name _ => hwhole r hr name
  | some names =>
      intro r hr name hname hcell
      rw [Option.elim_some, column_project, if_pos (by simpa using hname)]
      exact hwhole r hr name hcell

/-- A batch of a file: rows of one of its groups, with the columns asked for. -/
theorem mem_loadOneFile {f : DataFile} {info : FileMeta} {batches : List RecordBatch}
    (h : loadOneFile f info p needed = .ok batches) (hb : b ∈ batches) :
    (∃ g ∈ f.groups, b.rows ⊆ g.rows) ∧
      b.schema = viewSchema (f.schema.filter fun p => needed.all (·.contains p.1)) := by
  simp only [loadOneFile] at h
  split at h
  · obtain ⟨g, _, hg⟩ := mem_of_mapM_eq_ok h hb
    simp only [decodeGroup] at hg
    split at hg
    · cases hg
    · next kept hkept =>
        obtain rfl := Except.ok.inj hg
        exact ⟨⟨g.1, g.2, rowFilter_subset f hkept⟩, rfl⟩
  · obtain rfl := Except.ok.inj h
    cases hb

theorem column_viewSchema (schema : List (String × ArrowType)) (name : String) :
    (viewSchema schema).lookup name = (schema.lookup name).map viewType :=
  lookup_map_snd (fun _ ty => viewType ty) schema name

/-- What `load_pruned` makes of a table: the live batches, and rows of the files. -/
theorem mem_loadPruned {batches : List RecordBatch} (h : t.loadPruned p needed = .ok batches)
    (hb : b ∈ batches) :
    (∃ live ∈ t.buffer, b = needed.elim live live.project) ∨
      ∃ info ∈ t.files, ∃ f, t.fetch info = some f ∧ ∃ loaded,
        loadOneFile f info p needed = .ok loaded ∧ b ∈ loaded := by
  obtain ⟨fromFiles, hfiles, h⟩ := bind_eq_ok.mp h
  obtain rfl := Except.ok.inj h
  rcases List.mem_append.mp hb with hbuffer | hfile
  · obtain ⟨live, hlive, rfl⟩ := List.mem_map.mp hbuffer
    exact .inl ⟨live, hlive, rfl⟩
  · right
    obtain ⟨loaded, hloaded, hb⟩ := List.mem_flatten.mp hfile
    obtain ⟨info, hinfo, hload⟩ := mem_of_mapM_eq_ok hfiles hloaded
    simp only [LazyTable.loadFile] at hload
    split at hload
    · split at hload
      · cases hload
      · obtain rfl := Except.ok.inj hload
        cases hb
    · next f hfetch => exact ⟨info, hinfo, f, hfetch, loaded, hload, hb⟩

theorem loaded_of_mem_loadPruned {batches : List RecordBatch}
    (h : t.loadPruned p needed = .ok batches) (hb : b ∈ batches) : Loaded needed b := by
  rcases mem_loadPruned h hb with ⟨live, hlive, rfl⟩ | ⟨info, _, f, _, loaded, hload, hb⟩
  · exact loaded_project (t.whole live hlive)
  · obtain ⟨⟨g, hg, hrows⟩, hschema⟩ := mem_loadOneFile hload hb
    intro r hr name hname hcell
    have hin := f.whole g hg r (hrows hr) name hcell
    rw [RecordBatch.column, hschema, column_viewSchema,
      lookup_filter_fst (fun name => needed.all (·.contains name)), if_pos hname]
    simpa using hin

/-- The presented schema has the label column if one of the table's batches has
it, as `LazyTable::new` asks of its caller. -/
def LazyTable.Labelled (t : LazyTable) : Prop :=
  (t.schema.lookup visibilityColumn).isSome ∨
    (∀ b ∈ t.buffer, b.column visibilityColumn = none) ∧
      ∀ info ∈ t.files, ∀ f ∈ t.fetch info, f.schema.lookup visibilityColumn = none

theorem unlabelled_of_mem_loadPruned {batches : List RecordBatch}
    (h : t.loadPruned p needed = .ok batches) (hb : b ∈ batches)
    (hbuffer : ∀ b ∈ t.buffer, b.column visibilityColumn = none)
    (hfiles : ∀ info ∈ t.files, ∀ f ∈ t.fetch info, f.schema.lookup visibilityColumn = none)
    {r : Record} (hr : r ∈ b.rows) : r visibilityColumn = none := by
  cases hcell : r visibilityColumn with
  | none => rfl
  | some c =>
      have hsome : (r visibilityColumn).isSome := by rw [hcell]; rfl
      rcases mem_loadPruned h hb with ⟨live, hlive, rfl⟩ | ⟨info, hinfo, f, hfetch,
          loaded, hload, hb⟩
      · have hrows : r ∈ live.rows := by cases needed <;> exact hr
        have := t.whole live hlive r hrows _ hsome
        rw [hbuffer live hlive] at this
        cases this
      · obtain ⟨⟨g, hg, hrows⟩, _⟩ := mem_loadOneFile hload hb
        have := f.whole g hg r (hrows hr) _ hsome
        rw [hfiles info hinfo f hfetch] at this
        cases this

/-- Whatever is projected, the columns the masks read are loaded. -/
theorem required_needed {projection : Option (List Nat)} {R : Restriction}
    (hR : R ∈ t.restrictions) {name : String} (hname : name ∈ R.requiredColumns) :
    (t.target projection).2.all (·.contains name) = true := by
  have hextra : name ∈ t.extraColumns :=
    List.mem_dedup.mpr (List.mem_flatMap.mpr ⟨R, hR, hname⟩)
  cases projection with
  | none => rfl
  | some idx =>
      cases idx with
      | nil =>
          by_cases htime : name = "time"
          · simp [LazyTable.target, htime]
          · simp [LazyTable.target, htime, hextra]
      | cons i rest =>
          by_cases hin : name ∈ ((i :: rest).filterMap (t.schema[·]?)).map Prod.fst
          · simp only [LazyTable.target, Option.all_some, List.contains_eq_mem, decide_eq_true_eq]
            exact List.mem_append_left _ hin
          · simp only [LazyTable.target, Option.all_some, List.contains_eq_mem, decide_eq_true_eq]
            refine List.mem_append_right _ (List.mem_filter.mpr ⟨hextra, ?_⟩)
            simpa using hin

theorem mem_addTags {tags : List (String × String)} {cols : List String} {name : String} :
    name ∈ addTags cols tags ↔ name ∈ cols ∨ ∃ p ∈ tags, p.1 = name := by
  induction tags generalizing cols with
  | nil => simp [addTags]
  | cons p rest ih =>
      rw [addTags, List.foldl_cons, ← addTags, ih, mem_addName]
      constructor
      · rintro ((rfl | hin) | ⟨q, hq, rfl⟩)
        · exact .inr ⟨p, List.mem_cons_self, rfl⟩
        · exact .inl hin
        · exact .inr ⟨q, List.mem_cons_of_mem _ hq, rfl⟩
      · rintro (hin | ⟨q, hq, rfl⟩)
        · exact .inl (.inr hin)
        · rcases List.mem_cons.mp hq with rfl | hq
          · exact .inl (.inl rfl)
          · exact .inr ⟨q, hq, rfl⟩

theorem mem_required_tombstone {deletes : List Tombstone} {name : String}
    (h : name = "time" ∨ ∃ t ∈ deletes, ∃ p ∈ t.tagEquals, p.1 = name) :
    name ∈ (Restriction.tombstone deletes).requiredColumns := by
  have hfold : ∀ cols : List String,
      (name ∈ cols ∨ ∃ t ∈ deletes, ∃ p ∈ t.tagEquals, p.1 = name) →
        name ∈ deletes.foldl (fun cols t => addTags cols t.tagEquals) cols := by
    clear h
    induction deletes with
    | nil => exact fun cols h => h.elim id fun ⟨_, ht, _⟩ => by cases ht
    | cons t rest ih =>
        intro cols h
        rw [List.foldl_cons]
        refine ih _ ?_
        rcases h with hin | ⟨u, hu, hp⟩
        · exact .inl (mem_addTags.mpr (.inl hin))
        · rcases List.mem_cons.mp hu with rfl | hu
          · exact .inl (mem_addTags.mpr (.inr hp))
          · exact .inr ⟨u, hu, hp⟩
  exact hfold ["time"] (h.imp (by simpa using ·) id)

/-- Every row a scan delivers is one the session may see. -/
theorem scan_permitted (hlabelled : t.Labelled) {projection : Option (List Nat)}
    {filters : List Expr} {rows : List Record} (h : t.scan projection filters = .ok rows)
    {r : Record} (hr : r ∈ rows) : Permitted t.session r := by
  obtain ⟨batches, hload, h⟩ := bind_eq_ok.mp h
  obtain ⟨kept, hkept, h⟩ := bind_eq_ok.mp h
  obtain ⟨_, _, h⟩ := bind_eq_ok.mp h
  obtain rfl := Except.ok.inj h
  obtain ⟨b', hb', hr⟩ := List.mem_flatMap.mp hr
  obtain ⟨b, hb, hrestrict⟩ := mem_of_mapM_eq_ok hkept hb'
  have hall : applyAll t.restrictions b = .ok b' := by
    simp only [LazyTable.restrict] at hrestrict
    split at hrestrict
    · next hok => rw [hok, Except.ok.inj hrestrict]
    · cases hrestrict
  obtain ⟨_, hrows, hpassed⟩ := applyAll_cases hall
  have hcolumn : ∀ R ∈ t.restrictions, ∀ name ∈ R.requiredColumns, (r name).isSome →
      (b.column name).isSome := by
    intro R hR name hname hcell
    exact loaded_of_mem_loadPruned hload hb r (hrows hr) name (required_needed hR hname) hcell
  constructor
  · rcases hlabelled with hschema | ⟨hbuffer, hfiles⟩
    · have hR : .visibility visibilityColumn t.session.authorizations ∈ t.restrictions := by
        simp [LazyTable.restrictions, mandatoryPredicate, hschema]
      exact (hpassed _ hR r hr).label (hcolumn _ hR _ (List.mem_singleton.mpr rfl))
    · exact .inl (unlabelled_of_mem_loadPruned hload hb hbuffer hfiles (hrows hr))
  · intro d hd
    have hR : .tombstone t.session.tombstones ∈ t.restrictions := by
      have hne : t.session.tombstones ≠ [] := List.ne_nil_of_mem hd
      simp [LazyTable.restrictions, mandatoryPredicate, hne]
    refine (hpassed _ hR r hr).live hd fun name hname => hcolumn _ hR name ?_
    exact mem_required_tombstone (hname.imp id fun ⟨p, hp, hpn⟩ => ⟨d, hd, p, hp, hpn⟩)

end Scan

section Query

/-- A cached reading as a row: its time, its tags, its fields. -/
def Record.ofReading (v : LastValue) : Record := fun name =>
  if name = "time" then some (.timestamp .nanosecond v.timestampNs)
  else
    match v.tags.lookup name with
    | some value => some (.str value)
    | none => (v.fields.lookup name).map Cell.ofField

/-- What `run_sql_env` has of one query: the session, the tables registered for it,
each with the session's authorizations and the active tombstones of the table, and
the cache behind `last_cache`. -/
structure QueryEnv where
  db : String
  authorizations : List String
  tombstones : String → List Tombstone
  tables : List LazyTable
  lastValue : Option LastValueCache
  sessions : ∀ t ∈ tables, t.session = ⟨authorizations, tombstones t.name⟩

/-- The two ways a plan gets rows of a table. -/
inductive Producer where
  | scan (table : String) (projection : Option (List Nat)) (filters : List Expr)
  | lastCache (args : List Expr)

inductive ReachError where
  | tableNotFound (table : String)
  | noFunction
  | badArguments
  | scan (e : ScanError)

namespace QueryEnv

variable (env : QueryEnv)

def session (table : String) : QuerySession := ⟨env.authorizations, env.tombstones table⟩

/-- `LastCacheFunc::call`. -/
def lastCache (args : List Expr) : Except ReachError (String × List LastValue) :=
  match env.lastValue, args with
  | none, _ => .error .noFunction
  | some cache, [.literal (.utf8 (some table))] => .ok (table, cache.snapshot env.db table)
  | some _, _ => .error .badArguments

/-- The rows that reach the plan from a producer, each with its table. -/
def reach : Producer → Except ReachError (List (String × Record))
  | .scan table projection filters =>
      match env.tables.find? (·.name = table) with
      | none => .error (.tableNotFound table)
      | some t =>
          match t.scan projection filters with
          | .error e => .error (.scan e)
          | .ok rows => .ok (rows.map fun r => (table, r))
  | .lastCache args =>
      match env.lastCache args with
      | .error e => .error e
      | .ok (table, readings) => .ok (readings.map fun v => (table, .ofReading v))

/-- Every row that reaches the plan of a query is one the session may see. -/
def Secure (query : List Producer) : Prop :=
  ∀ p ∈ query, ∀ rows, env.reach p = .ok rows → ∀ r ∈ rows, Permitted (env.session r.1) r.2

end QueryEnv

/-- For every session and every query over tables whose presented schema has the
label column wherever a batch has it: every row that reaches the plan is permitted
if and only if every reading that `last_cache` returns to the query is. The rows of
the scans always are, with any projection and any filters. -/
theorem secure_iff (env : QueryEnv) (query : List Producer)
    (hlabelled : ∀ t ∈ env.tables, t.Labelled) :
    env.Secure query ↔ ∀ cache ∈ env.lastValue, ∀ table,
      .lastCache [.literal (.utf8 (some table))] ∈ query →
        ∀ v ∈ cache.snapshot env.db table, Permitted (env.session table) (.ofReading v) := by
  constructor
  · intro h cache hcache table hcall v hv
    have hreach : env.reach (.lastCache [.literal (.utf8 (some table))]) =
        .ok ((cache.snapshot env.db table).map fun v => (table, .ofReading v)) := by
      simp only [QueryEnv.reach, QueryEnv.lastCache, Option.mem_def.mp hcache]
    exact h _ hcall _ hreach (table, .ofReading v) (List.mem_map.mpr ⟨v, hv, rfl⟩)
  · intro h p hp rows hreach r hr
    cases p with
    | scan table projection filters =>
        simp only [QueryEnv.reach] at hreach
        split at hreach
        · cases hreach
        · next t hfind =>
            split at hreach
            · cases hreach
            · next found hscan =>
                obtain rfl := Except.ok.inj hreach
                obtain ⟨q, hq, rfl⟩ := List.mem_map.mp hr
                have ht := List.mem_of_find?_eq_some hfind
                have hname : t.name = table := by simpa using List.find?_some hfind
                have hpermitted := scan_permitted (hlabelled t ht) hscan hq
                rw [env.sessions t ht, hname] at hpermitted
                exact hpermitted
    | lastCache args =>
        simp only [QueryEnv.reach, QueryEnv.lastCache] at hreach
        split at hreach
        · cases hreach
        · next table readings hcall =>
            split at hcall
            · cases hcall
            · next cache name hcache =>
                obtain ⟨rfl, rfl⟩ := Prod.mk.inj (Except.ok.inj hcall)
                obtain rfl := Except.ok.inj hreach
                obtain ⟨v, hv, rfl⟩ := List.mem_map.mp hr
                exact h cache hcache _ hp v hv
            · cases hcall

/-- A reading with a label. -/
def labelledReading : LastValue := ⟨[("_visibility", "ops")], 5, []⟩

theorem labelledReading_cells {name : String} {c : Cell}
    (h : Record.ofReading labelledReading name = some c) :
    name = "time" ∧ c = .timestamp .nanosecond 5 ∨ name = "_visibility" ∧ c = .str "ops" := by
  simp only [Record.ofReading, labelledReading, lookup_cons_eq_ite, List.lookup_nil] at h
  by_cases htime : name = "time"
  · rw [if_pos htime] at h
    exact .inl ⟨htime, (Option.some.inj h).symm⟩
  · rw [if_neg htime] at h
    by_cases hlabel : name = "_visibility"
    · rw [if_pos hlabel] at h
      exact .inr ⟨hlabel, (Option.some.inj h).symm⟩
    · rw [if_neg hlabel] at h
      cases h

def labelledBatch : RecordBatch where
  schema := [("time", .timestamp .nanosecond), ("_visibility", .dictionary)]
  rows := [.ofReading labelledReading]
  typed := by
    intro p hp r hr c hc
    obtain rfl := List.mem_singleton.mp hr
    rcases List.mem_pair.mp hp with rfl | rfl <;>
      rcases labelledReading_cells hc with ⟨hname, rfl⟩ | ⟨hname, rfl⟩ <;>
      first | rfl | exact absurd hname (by decide)

/-- A session, a table with one labelled row, and a cache that has seen the row. -/
def labelledEnv (auths : List String) : QueryEnv where
  db := "d"
  authorizations := auths
  tombstones := fun _ => []
  tables := [{
    name := "t"
    schema := [("time", .timestamp .nanosecond), ("_visibility", .utf8View)]
    buffer := [labelledBatch]
    files := []
    fetch := fun _ => none
    castable := fun _ _ => true
    session := ⟨auths, []⟩
    whole := by
      intro b hb r hr name hname
      obtain rfl := List.mem_singleton.mp hb
      obtain rfl := List.mem_singleton.mp hr
      obtain ⟨c, hc⟩ := Option.isSome_iff_exists.mp hname
      rcases labelledReading_cells hc with ⟨rfl, _⟩ | ⟨rfl, _⟩ <;> decide }]
  lastValue := some (((LastValueCache.new 8).enable "d" "t").observe "d" "t"
    labelledReading.tags labelledReading.timestampNs labelledReading.fields)
  sessions := by
    intro t ht
    obtain rfl := List.mem_singleton.mp ht
    rfl

/-- The whole table, and the count of its rows. -/
def scans : List Producer := [.scan "t" none [], .scan "t" (some []) []]

theorem labelledEnv_labelled (auths : List String) :
    ∀ t ∈ (labelledEnv auths).tables, t.Labelled := by
  intro t ht
  obtain rfl := List.mem_singleton.mp ht
  exact .inl rfl

theorem scans_secure : (labelledEnv []).Secure scans ∧
    ((labelledEnv ["ops"]).reach (.scan "t" (some []) [])).toOption.map List.length = some 1 ∧
      ((labelledEnv []).reach (.scan "t" (some []) [])).toOption.map List.length = some 0 := by
  refine ⟨(secure_iff _ scans (labelledEnv_labelled [])).mpr ?_, ?_, ?_⟩
  · intro cache _ table hcall
    simp [scans] at hcall
  · decide +kernel
  · decide +kernel

/-- A session without authorizations reads a labelled row through `last_cache`. -/
theorem lastCache_leaks :
    ¬ (labelledEnv []).Secure [.lastCache [.literal (.utf8 (some "t"))]] := by
  intro h
  have hreach : (labelledEnv []).reach (.lastCache [.literal (.utf8 (some "t"))]) =
      .ok [("t", .ofReading labelledReading)] := by rfl
  obtain ⟨hlabel, _⟩ := h _ List.mem_cons_self _ hreach _ List.mem_cons_self
  rcases hlabel with hnone | ⟨label, hsome, hvisible⟩
  · cases hnone
  · obtain rfl : "ops" = label := Cell.str.inj (Option.some.inj hsome)
    revert hvisible
    decide +kernel

end Query

end TimeLake.Query
