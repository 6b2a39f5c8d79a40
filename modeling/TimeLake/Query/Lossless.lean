import TimeLake.Query.Filters
import TimeLake.Query.Security

/-!
Whether the scan loses rows. A table is sound if the catalog's time bounds and the
statistics really bound the rows of its files and the Bloom filters miss none. What
`load_pruned` leaves out of such a table is what fails the pushed filters, as long as
the comparisons that bounds and literals are taken from are true without their casts
wherever they are true, and the string literals are about string columns.
-/

namespace TimeLake.Query

open TimeLake.Library TimeLake.Wal TimeLake.Catalog TimeLake.Rows TimeLake.Ingest

section Tables

/-- The columns of a table as its buffers and files have them. -/
structure TableColumns where
  fields : List (String × ArrowType)
  time : fields.lookup "time" = some (.timestamp .nanosecond)

/-- `schema_union` takes no file or buffer with a column of another type. -/
def Within (columns : TableColumns) (schema : List (String × ArrowType)) : Prop :=
  ∀ p ∈ schema, columns.fields.lookup p.1 = some p.2

structure SoundFile (columns : TableColumns) (info : FileMeta) (f : DataFile) : Prop where
  schema : Within columns f.schema
  bounds : ∀ g ∈ f.groups, ∀ r ∈ g.rows, ∃ time : Int64,
    r "time" = some (.timestamp .nanosecond time.toInt) ∧
      info.minTsNs ≤ time.toInt ∧ time.toInt ≤ info.maxTsNs
  stats : ∀ g ∈ f.groups, ∀ col lo hi, g.stats col = some (lo, hi) →
    ∀ r ∈ g.rows, ∀ s, r col = some (.str s) → ¬ utf8 s < lo ∧ ¬ hi < utf8 s
  bloom : ∀ g ∈ f.groups, ∀ col check, g.bloom col = some check →
    ∀ r ∈ g.rows, ∀ s, r col = some (.str s) → check s = true

structure Sound (columns : TableColumns) (t : LazyTable) : Prop where
  presented : t.schema = viewSchema columns.fields
  buffer : ∀ b ∈ t.buffer, Within columns b.schema ∧
    ∀ r ∈ b.rows, ∃ time : Int64, r "time" = some (.timestamp .nanosecond time.toInt)
  files : ∀ info ∈ t.files, ∃ f, t.fetch info = some f ∧ SoundFile columns info f

def DataFile.rows (f : DataFile) : List Record := f.groups.flatMap RowGroup.rows

/-- Every row of the table, in the order a scan without filters delivers them. -/
def LazyTable.rows (t : LazyTable) : List Record :=
  t.buffer.flatMap RecordBatch.rows ++
    t.files.flatMap fun info => (t.fetch info).elim [] DataFile.rows

/-- Every sound table over the columns delivers all rows that pass the filters, in
order: filtering what is delivered is filtering the whole table. -/
def Lossless (ev : Evaluator) (columns : TableColumns) (filters : List Expr) : Prop :=
  ∀ t, Sound columns t → ∀ needed, ∃ batches,
    t.loadPruned (extractPruning filters) needed = .ok batches ∧
      (batches.flatMap RecordBatch.rows).filter (passes ev filters) =
        t.rows.filter (passes ev filters)

/-- Where all filters are true, the comparisons the walk reads are true of the stored
time and strings without the casts around them, if perhaps not strictly. And the
string literals are compared with string columns. -/
structure CastsAside (ev : Evaluator) (columns : TableColumns) (filters : List Expr) :
    Prop where
  bare : ∀ r time, Stored columns.fields r time → passes ev filters r = true →
    ∀ c ∈ comparisons filters, c.Bare r time.toInt
  strings : ∀ c ∈ comparisons filters, ∀ q ∈ c.tagEqual,
    ∀ ty ∈ columns.fields.lookup q.1, comparable ty = true

end Tables

section Loading

variable {columns : TableColumns} {info : FileMeta} {f : DataFile} {p : Pruning}
  {needed : Option (List String)} {keep : Record → Bool}

theorem rowFilter_eq {tagEquals : List (String × String)} (rows : List Record)
    (hstrings : ∀ q ∈ tagEquals, ∀ ty ∈ f.schema.lookup q.1, comparable ty = true) :
    rowFilter f tagEquals rows =
      .ok (rows.filter fun r => (f.known tagEquals).all fun q => r q.1 = some (.str q.2)) := by
  induction tagEquals generalizing rows with
  | nil => simp [rowFilter, DataFile.known]
  | cons q rest ih =>
      have htail := fun rows => ih rows fun q' hq' => hstrings q' (List.mem_cons_of_mem _ hq')
      simp only [rowFilter]
      cases hlookup : f.schema.lookup q.1 with
      | none =>
          have hknown : f.known (q :: rest) = f.known rest :=
            List.filter_cons_of_neg (by simp [hlookup])
          rw [hknown]
          exact htail rows
      | some ty =>
          have hty : comparable ty = true := hstrings q List.mem_cons_self ty hlookup
          have hknown : f.known (q :: rest) = q :: f.known rest :=
            List.filter_cons_of_pos (by simp [hlookup])
          simp only [hty, if_true, hknown, List.all_cons]
          cases rows with
          | nil => rfl
          | cons r rows =>
              rw [if_neg (by simp), htail, List.filter_filter]
              simp only [Bool.and_comm]

theorem decodeGroup_eq (needed : Option (List String)) (g : { g // g ∈ f.groups })
    (hstrings : ∀ q ∈ p.tagEquals, ∀ ty ∈ f.schema.lookup q.1, comparable ty = true) :
    ∃ b, decodeGroup f p needed g = .ok b ∧ b.rows = g.1.rows.filter fun r =>
      (f.known p.tagEquals).all fun q => r q.1 = some (.str q.2) := by
  have heq := rowFilter_eq g.1.rows hstrings
  unfold decodeGroup
  split
  · next e h =>
      rw [heq] at h
      cases h
  · next kept h =>
      obtain rfl := Except.ok.inj (heq.symm.trans h)
      exact ⟨_, rfl, rfl⟩

/-- A group that is skipped has no row with all the literals. -/
theorem keep_of_mem (hsound : SoundFile columns info f) {g : RowGroup} (hg : g ∈ f.groups)
    {r : Record} (hr : r ∈ g.rows) (htags : ∀ q ∈ p.tagEquals, r q.1 = some (.str q.2)) :
    (statsKeep f p.tagEquals g && bloomKeep f p.tagEquals g) = true := by
  have hcell : ∀ q ∈ f.known p.tagEquals, r q.1 = some (.str q.2) :=
    fun q hq => htags q (List.mem_of_mem_filter hq)
  rw [Bool.and_eq_true]
  constructor
  · refine List.all_eq_true.mpr fun q hq => ?_
    split
    · next lo hi hstats =>
        obtain ⟨hlo, hhi⟩ := hsound.stats g hg q.1 lo hi hstats r hr q.2 (hcell q hq)
        simp [hlo, hhi]
    · rfl
  · refine List.all_eq_true.mpr fun q hq => ?_
    split
    · next check hbloom => exact hsound.bloom g hg q.1 check hbloom r hr q.2 (hcell q hq)
    · rfl

private theorem filter_flatMap_congr {α β γ : Type} {xs : List α} {ys : List β}
    {xrows : α → List γ} {yrows : β → List γ} {keep : γ → Bool}
    (h : List.Forall₂ (fun x y => (yrows y).filter keep = (xrows x).filter keep) xs ys) :
    (ys.flatMap yrows).filter keep = (xs.flatMap xrows).filter keep := by
  induction h with
  | nil => rfl
  | cons hxy _ ih =>
      rw [List.flatMap_cons, List.flatMap_cons, List.filter_append, List.filter_append, hxy, ih]

private theorem filter_flatMap_filter {α γ : Type} {xs : List α} {rows : α → List γ}
    {taken : α → Bool} {keep : γ → Bool}
    (h : ∀ x ∈ xs, taken x = false → (rows x).filter keep = []) :
    ((xs.filter taken).flatMap rows).filter keep = (xs.flatMap rows).filter keep := by
  induction xs with
  | nil => rfl
  | cons x rest ih =>
      have htail := ih fun z hz => h z (List.mem_cons_of_mem _ hz)
      cases htaken : taken x with
      | true =>
          rw [List.filter_cons_of_pos htaken, List.flatMap_cons, List.flatMap_cons,
            List.filter_append, List.filter_append, htail]
      | false =>
          rw [List.filter_cons_of_neg (by simp [htaken]), List.flatMap_cons, List.filter_append,
            h x List.mem_cons_self htaken, List.nil_append, htail]

/-- A file delivers the rows that pass, if passing them means to be within the bounds
and to have the literals. -/
theorem loadOneFile_lossless (hsound : SoundFile columns info f)
    (hstrings : ∀ q ∈ p.tagEquals, ∀ ty ∈ f.schema.lookup q.1, comparable ty = true)
    (hadmits : ∀ g ∈ f.groups, ∀ r ∈ g.rows, keep r = true → ∀ time : Int64,
      r "time" = some (.timestamp .nanosecond time.toInt) → p.Admits r time.toInt)
    (needed : Option (List String)) :
    ∃ batches, loadOneFile f info p needed = .ok batches ∧
      (batches.flatMap RecordBatch.rows).filter keep = f.rows.filter keep := by
  have hadmitted : ∀ g ∈ f.groups, ∀ r ∈ g.rows, keep r = true →
      inBounds info p = true ∧ ∀ q ∈ p.tagEquals, r q.1 = some (.str q.2) := by
    intro g hg r hr hkeep
    obtain ⟨time, htime, hlo, hhi⟩ := hsound.bounds g hg r hr
    obtain ⟨hlow, hhigh, htags⟩ := hadmits g hg r hr hkeep time htime
    simp only [Option.all_eq_true, decide_eq_true_eq] at hlow hhigh
    refine ⟨?_, htags⟩
    simp only [inBounds, Bool.and_eq_true, Option.all_eq_true, decide_eq_true_eq]
    exact ⟨fun ts hts => (hlow ts hts).trans hhi, fun ts hts => hlo.trans (hhigh ts hts)⟩
  unfold loadOneFile
  split
  · -- A skipped group has no row that passes, a kept one loses none that do.
    have hgroup : ∀ g ∈ f.groups.attach.filter fun g =>
        statsKeep f p.tagEquals g.1 && bloomKeep f p.tagEquals g.1,
        ∃ b, decodeGroup f p needed g = .ok b ∧ b.rows.filter keep = g.1.rows.filter keep := by
      intro g _
      obtain ⟨b, hb, hrows⟩ := decodeGroup_eq needed g hstrings
      refine ⟨b, hb, ?_⟩
      rw [hrows, List.filter_filter]
      refine List.filter_congr fun r hr => ?_
      rw [Bool.and_eq_left_iff_imp]
      intro hkeep
      have htags := (hadmitted g.1 g.2 r hr hkeep).2
      simp only [List.all_eq_true, decide_eq_true_eq]
      exact fun q hq => htags q (List.mem_of_mem_filter hq)
    obtain ⟨batches, hload, hall⟩ := exists_mapM hgroup
    refine ⟨batches, hload, ?_⟩
    rw [filter_flatMap_congr hall, filter_flatMap_filter]
    · rw [DataFile.rows, ← List.attach_map_subtype_val f.groups, List.flatMap_map]
      simp
    · intro g _ hskipped
      refine List.filter_eq_nil_iff.mpr fun r hr hkeep => ?_
      have hkept := keep_of_mem hsound g.2 hr (hadmitted g.1 g.2 r hr hkeep).2
      rw [hskipped] at hkept
      cases hkept
  · next hout =>
      refine ⟨[], rfl, (List.filter_eq_nil_iff.mpr fun r hr hkeep => hout ?_).symm⟩
      obtain ⟨g, hg, hr⟩ := List.mem_flatMap.mp hr
      exact (hadmitted g hg r hr hkeep).1

end Loading

section Scans

variable {ev : Evaluator} {columns : TableColumns} {filters : List Expr} {info : FileMeta}
  {f : DataFile} {t : LazyTable}

theorem SoundFile.stored (hsound : SoundFile columns info f) {g : RowGroup} (hg : g ∈ f.groups)
    {r : Record} (hr : r ∈ g.rows) {time : Int64}
    (htime : r "time" = some (.timestamp .nanosecond time.toInt)) :
    Stored columns.fields r time := by
  refine ⟨htime, fun name c hc => ?_⟩
  obtain ⟨ty, hty⟩ := Option.isSome_iff_exists.mp (f.whole g hg r hr name (by rw [hc]; rfl))
  have hmem := mem_of_lookup hty
  exact ⟨ty, hsound.schema _ hmem, f.typed g hg _ hmem r hr c hc⟩

theorem rows_buffer (buffer : List RecordBatch) (needed : Option (List String)) :
    (buffer.map fun b => needed.elim b b.project).flatMap RecordBatch.rows =
      buffer.flatMap RecordBatch.rows := by
  rw [List.flatMap_map]
  cases needed <;> rfl

theorem lossless_of_castsAside (h : CastsAside ev columns filters) :
    Lossless ev columns filters := by
  intro t ht needed
  have hfile : ∀ info ∈ t.files, ∃ batches,
      t.loadFile (extractPruning filters) needed info = .ok batches ∧
        (batches.flatMap RecordBatch.rows).filter (passes ev filters) =
          ((t.fetch info).elim [] DataFile.rows).filter (passes ev filters) := by
    intro info hinfo
    obtain ⟨f, hfetch, hsound⟩ := ht.files info hinfo
    simp only [LazyTable.loadFile, hfetch, Option.elim_some]
    refine loadOneFile_lossless hsound ?_ ?_ needed
    · intro q hq ty hty
      obtain ⟨c, hc, hread⟩ := (mem_tagEquals filters).mp hq
      exact h.strings c hc q hread ty (hsound.schema _ (mem_of_lookup hty))
    · intro g hg r hr hpasses time htime
      exact (extractPruning_admits filters).mpr
        (h.bare r time (hsound.stored hg hr htime) hpasses)
  obtain ⟨fromFiles, hload, hall⟩ := exists_mapM hfile
  refine ⟨_, bind_eq_ok.mpr ⟨fromFiles, hload, rfl⟩, ?_⟩
  have hfiles := filter_flatMap_congr hall
  rw [List.flatMap_append, rows_buffer, LazyTable.rows, List.filter_append, List.filter_append,
    ← hfiles, ← List.flatMap_id, List.flatMap_assoc]
  rfl

end Scans

section Converse

variable {ev : Evaluator} {columns : TableColumns} {filters : List Expr} {info : FileMeta}
  {f : DataFile} {p : Pruning}

theorem rowFilter_known {tagEquals : List (String × String)} {rows kept : List Record}
    (h : rowFilter f tagEquals rows = .ok kept) {r : Record} (hr : r ∈ kept) :
    ∀ q ∈ tagEquals, (f.schema.lookup q.1).isSome → r q.1 = some (.str q.2) := by
  induction tagEquals generalizing rows with
  | nil => exact fun q hq => (List.not_mem_nil hq).elim
  | cons q rest ih =>
      simp only [rowFilter] at h
      intro q' hq' hknown
      split at h
      · next hnone =>
          rcases List.mem_cons.mp hq' with rfl | hq'
          · rw [hnone] at hknown
            cases hknown
          · exact ih h q' hq' hknown
      · split at h
        · obtain rfl := Except.ok.inj h
          cases hr
        · split at h
          · rcases List.mem_cons.mp hq' with rfl | hq'
            · have hin := List.mem_filter.mp (rowFilter_subset f h hr)
              exact of_decide_eq_true hin.2
            · exact ih h q' hq' hknown
          · cases h

/-- With columns only that no string compares with, a literal about one of them fails
the decoding of a row. -/
theorem rowFilter_fails (hschema : ∀ name ty, f.schema.lookup name = some ty →
    comparable ty = false) {tagEquals : List (String × String)} {rows : List Record}
    (hrows : rows ≠ []) {q : String × String} (hq : q ∈ tagEquals)
    (hknown : (f.schema.lookup q.1).isSome) : ∃ e, rowFilter f tagEquals rows = .error e := by
  induction tagEquals with
  | nil => cases hq
  | cons q' rest ih =>
      simp only [rowFilter]
      split
      · next hnone =>
          rcases List.mem_cons.mp hq with rfl | hq
          · rw [hnone] at hknown
            cases hknown
          · exact ih hq
      · next ty hty =>
          have hempty : rows.isEmpty = false := by simpa using hrows
          simp only [hempty, hschema _ _ hty]
          exact ⟨_, rfl⟩

/-- A file of one row, without statistics. -/
def loneFile (schema : List (String × ArrowType)) (r : Record)
    (typed : ∀ p ∈ schema, ∀ c, r p.1 = some c → c.hasType p.2)
    (whole : ∀ name, (r name).isSome → (schema.lookup name).isSome) : DataFile where
  schema := schema
  groups := [⟨[r], fun _ => none, fun _ => none⟩]
  typed := by simpa using typed
  whole := by simpa using whole

/-- A table of one file. -/
def loneTable (columns : TableColumns) (info : FileMeta) (f : DataFile) : LazyTable where
  name := info.table
  schema := viewSchema columns.fields
  buffer := []
  files := [info]
  fetch := fun _ => some f
  castable := fun _ _ => true
  session := ⟨[], []⟩
  whole := fun _ hb => (List.not_mem_nil hb).elim

theorem sound_loneTable (h : SoundFile columns info f) : Sound columns (loneTable columns info f) :=
  ⟨rfl, fun _ hb => (List.not_mem_nil hb).elim, by simpa [loneTable] using h⟩

theorem soundFile_loneFile {schema : List (String × ArrowType)} {r : Record} {time : Int64}
    (typed : ∀ p ∈ schema, ∀ c, r p.1 = some c → c.hasType p.2)
    (whole : ∀ name, (r name).isSome → (schema.lookup name).isSome)
    (hwithin : Within columns schema)
    (htime : r "time" = some (.timestamp .nanosecond time.toInt))
    (hlo : info.minTsNs ≤ time.toInt) (hhi : time.toInt ≤ info.maxTsNs) :
    SoundFile columns info (loneFile schema r typed whole) := by
  refine ⟨hwithin, ?_, ?_, ?_⟩
  · simpa [loneFile] using ⟨time, htime, hlo, hhi⟩
  · simp [loneFile]
  · simp [loneFile]

/-- What the file of such a table delivers. -/
theorem delivered_loneTable {batches : List RecordBatch}
    (h : (loneTable columns info f).loadPruned p none = .ok batches) {b : RecordBatch}
    (hb : b ∈ batches) : ∃ loaded, loadOneFile f info p none = .ok loaded ∧ b ∈ loaded := by
  rcases mem_loadPruned h hb with ⟨live, hlive, _⟩ | ⟨info', hinfo, f', hfetch, loaded, hload, hb⟩
  · cases hlive
  · obtain rfl := List.mem_singleton.mp hinfo
    obtain rfl := Option.some.inj hfetch
    exact ⟨loaded, hload, hb⟩

/-- The columns that have one type each. -/
def TableColumns.own (columns : TableColumns) : List (String × ArrowType) :=
  columns.fields.filter fun p => columns.fields.lookup p.1 = some p.2

theorem within_own (columns : TableColumns) : Within columns columns.own :=
  fun _ hp => of_decide_eq_true (List.mem_filter.mp hp).2

theorem lookup_own {name : String} {ty : ArrowType} (h : columns.fields.lookup name = some ty) :
    (columns.own.lookup name).isSome := by
  have hmem : (name, ty) ∈ columns.own :=
    List.mem_filter.mpr ⟨mem_of_lookup h, decide_eq_true h⟩
  rw [Option.isSome_iff_ne_none]
  intro hnone
  simpa using List.lookup_eq_none_iff.mp hnone _ hmem

/-- A row that passes and is delivered from a file of its own is within the bounds and
has the literals. -/
theorem bare_of_lossless (h : Lossless ev columns filters) {r : Record} {time : Int64}
    (hr : Stored columns.fields r time) (hpasses : passes ev filters r = true) :
    ∀ c ∈ comparisons filters, c.Bare r time.toInt := by
  have hwhole : ∀ name, (r name).isSome → (columns.own.lookup name).isSome := by
    intro name hname
    obtain ⟨c, hc⟩ := Option.isSome_iff_exists.mp hname
    obtain ⟨ty, hty, _⟩ := hr.typed name c hc
    exact lookup_own hty
  have htyped : ∀ p ∈ columns.own, ∀ c, r p.1 = some c → c.hasType p.2 := by
    intro p hp c hc
    obtain ⟨ty, hty, hhas⟩ := hr.typed _ c hc
    obtain rfl := Option.some.inj (hty.symm.trans (within_own columns p hp))
    exact hhas
  let info : FileMeta := ⟨"", "", "", "", 1, 0, time.toInt, time.toInt⟩
  let f := loneFile columns.own r htyped hwhole
  have hsound : SoundFile columns info f :=
    soundFile_loneFile htyped hwhole (within_own columns) hr.time le_rfl le_rfl
  obtain ⟨batches, hload, hrows⟩ := h _ (sound_loneTable hsound) none
  have hin : r ∈ (batches.flatMap RecordBatch.rows).filter (passes ev filters) := by
    rw [hrows]
    exact List.mem_filter.mpr ⟨by simp [LazyTable.rows, loneTable, DataFile.rows, f, loneFile],
      hpasses⟩
  obtain ⟨b, hb, hrb⟩ := List.mem_flatMap.mp (List.mem_of_mem_filter hin)
  obtain ⟨loaded, hone, hb⟩ := delivered_loneTable hload hb
  refine (extractPruning_admits filters).mp ?_
  unfold loadOneFile at hone
  split at hone
  · next hbounds =>
      simp only [inBounds, Bool.and_eq_true] at hbounds
      refine ⟨hbounds.1, hbounds.2, fun q hq => ?_⟩
      obtain ⟨g, _, hg⟩ := mem_of_mapM_eq_ok hone hb
      unfold decodeGroup at hg
      split at hg
      · cases hg
      · next kept hkept =>
          obtain rfl := Except.ok.inj hg
          obtain ⟨c, hc, hread⟩ := (mem_tagEquals filters).mp hq
          exact rowFilter_known hkept hrb q hq
            (hwhole q.1 (present_of_isTrue (isTrue_of_passes hpasses c hc) hread))
  · obtain rfl := Except.ok.inj hone
    cases hb

/-- A string literal about another column fails the scan of some table. -/
theorem strings_of_lossless (h : Lossless ev columns filters) {c : Comparison}
    (hc : c ∈ comparisons filters) {q : String × String} (hq : c.tagEqual = some q)
    {ty : ArrowType} (hty : columns.fields.lookup q.1 = some ty) : comparable ty = true := by
  by_contra hnot
  let r : Record := fun name => if name = "time" then some (.timestamp .nanosecond 0) else none
  let schema : List (String × ArrowType) := [("time", .timestamp .nanosecond), (q.1, ty)]
  have hwithin : Within columns schema := by
    intro p hp
    rcases List.mem_pair.mp hp with rfl | rfl
    · exact columns.time
    · exact hty
  have hr : ∀ name c, r name = some c → name = "time" ∧ c = .timestamp .nanosecond 0 := by
    intro name c hc
    by_cases htime : name = "time"
    · simp only [r, if_pos htime] at hc
      exact ⟨htime, (Option.some.inj hc).symm⟩
    · simp only [r, if_neg htime] at hc
      cases hc
  have htyped : ∀ p ∈ schema, ∀ c, r p.1 = some c → c.hasType p.2 := by
    intro p hp c hcell
    obtain ⟨hname, rfl⟩ := hr _ _ hcell
    have htype : p.2 = .timestamp .nanosecond :=
      Option.some.inj ((hwithin p hp).symm.trans (hname ▸ columns.time))
    rw [htype]
    rfl
  have hwhole : ∀ name, (r name).isSome → (schema.lookup name).isSome := by
    intro name hname
    obtain ⟨c, hcell⟩ := Option.isSome_iff_exists.mp hname
    rw [(hr _ _ hcell).1]
    rfl
  let p := extractPruning filters
  let info : FileMeta := ⟨"", "", "", "", 1, 0, min 0 (p.maxTsNs.getD 0), max 0 (p.minTsNs.getD 0)⟩
  let f := loneFile schema r htyped hwhole
  have htime : r "time" = some (.timestamp .nanosecond (0 : Int64).toInt) := rfl
  have hsound : SoundFile columns info f :=
    soundFile_loneFile htyped hwhole hwithin htime (min_le_left _ _) (le_max_left _ _)
  have hbounds : inBounds info p = true := by
    simp only [inBounds, Bool.and_eq_true, Option.all_eq_true, decide_eq_true_eq]
    exact ⟨fun ts hts => by simp [info, hts], fun ts hts => by simp [info, hts]⟩
  obtain ⟨batches, hload, _⟩ := h _ (sound_loneTable hsound) none
  obtain ⟨fromFiles, hfiles, _⟩ := bind_eq_ok.mp hload
  obtain ⟨loaded, hone⟩ := exists_of_mapM_eq_ok hfiles (List.mem_singleton.mpr rfl)
  change loadOneFile f info p none = .ok loaded at hone
  rw [loadOneFile, if_pos hbounds] at hone
  have hkept : ⟨⟨[r], fun _ => none, fun _ => none⟩, List.mem_singleton.mpr rfl⟩ ∈
      f.groups.attach.filter fun g =>
        statsKeep f p.tagEquals g.1 && bloomKeep f p.tagEquals g.1 := by
    refine List.mem_filter.mpr ⟨List.mem_attach _ _, ?_⟩
    simp [statsKeep, bloomKeep]
  obtain ⟨b, hb⟩ := exists_of_mapM_eq_ok hone hkept
  have hfails : ∃ e, rowFilter f p.tagEquals [r] = .error e := by
    refine rowFilter_fails ?_ (List.cons_ne_nil r []) ((mem_tagEquals filters).mpr ⟨c, hc, hq⟩) ?_
    · intro name ty' hty'
      rcases List.mem_pair.mp (mem_of_lookup hty') with heq | heq
      · obtain ⟨rfl, rfl⟩ := Prod.mk.inj heq
        rfl
      · obtain ⟨rfl, rfl⟩ := Prod.mk.inj heq
        simpa using hnot
    · rw [Option.isSome_iff_ne_none]
      intro hnone
      simpa using List.lookup_eq_none_iff.mp hnone (q.1, ty) (by simp [f, loneFile, schema])
  obtain ⟨e, hfails⟩ := hfails
  unfold decodeGroup at hb
  split at hb
  · cases hb
  · next kept hok =>
      rw [hfails] at hok
      cases hok

end Converse

/-- For every query engine, every table layout and every list of pushed filters: no
sound table loses a row that passes the filters, if and only if casts may be taken off
the comparisons the walk reads. -/
theorem pruning_lossless_iff (ev : Evaluator) (columns : TableColumns) (filters : List Expr) :
    Lossless ev columns filters ↔ CastsAside ev columns filters := by
  constructor
  · exact fun h => ⟨fun _ _ hr hpasses => bare_of_lossless h hr hpasses,
      fun _ hc _ hq _ hty => strings_of_lossless h hc hq hty⟩
  · exact lossless_of_castsAside

/-- Filters whose casts keep values lose nothing, as long as strings are compared with
string columns. -/
theorem plain_filters_lossless {ev : Evaluator} (hev : ev.Exact) {columns : TableColumns}
    {filters : List Expr} (hplain : ∀ c ∈ comparisons filters, c.Plain columns.fields)
    (hstrings : ∀ c ∈ comparisons filters, ∀ q ∈ c.tagEqual,
      ∀ ty ∈ columns.fields.lookup q.1, comparable ty = true) :
    Lossless ev columns filters :=
  lossless_of_castsAside ⟨fun _ _ hr hpasses c hc =>
    bare_of_plain hev hr (hplain c hc) (isTrue_of_passes hpasses c hc), hstrings⟩

section Truncated

def TimeUnit.perSecond : TimeUnit → Int
  | .second => 1
  | .millisecond => 1000
  | .microsecond => 1000000
  | .nanosecond => 1000000000

/-- Arrow's `cast` between timestamps: to a coarser unit the division truncates, to a
finer one the product must fit. -/
def castTimestamp (target : ArrowType) (c : Cell) : Option Cell :=
  match target, c with
  | .timestamp unit, .timestamp unit' v =>
      if unit.perSecond ≤ unit'.perSecond then
        some (.timestamp unit (v.tdiv (unit'.perSecond / unit.perSecond)))
      else
        let w := v * (unit.perSecond / unit'.perSecond)
        if IsI64 w then some (.timestamp unit w) else none
  | _, _ => none

def arrowTimestamps : Evaluator := ⟨castTimestamp, fun _ _ => none⟩

def timeOnly : TableColumns := ⟨[("time", .timestamp .nanosecond)], rfl⟩

/-- `CAST(time AS Timestamp(µs)) <= 1µs`. -/
def truncatedTime : List Expr :=
  [.binary (.cast (.column "time") (.timestamp .microsecond)) .ltEq
    (.literal (.timestamp .microsecond (some 1)))]

/-- A row at 1500 ns is at 1 µs, but not before 1000 ns. -/
theorem truncatedTime_loses : ¬ Lossless arrowTimestamps timeOnly truncatedTime := by
  intro h
  let r : Record := fun name => if name = "time" then some (.timestamp .nanosecond 1500) else none
  have hr : Stored timeOnly.fields r 1500 := by
    refine ⟨rfl, fun name c hc => ?_⟩
    by_cases htime : name = "time"
    · subst htime
      obtain rfl := Option.some.inj hc
      exact ⟨_, rfl, rfl⟩
    · simp only [r, if_neg htime] at hc
      cases hc
  have hbare := bare_of_lossless h hr (by decide +kernel) _ (List.mem_singleton.mpr rfl)
  have hle : (1500 : Int) ≤ 1000 := hbare 1000 (by decide +kernel)
  omega

end Truncated

end TimeLake.Query
