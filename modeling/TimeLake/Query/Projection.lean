import TimeLake.Query.Security

/-!
What a scan delivers under a projection. The columns that the masks read are
loaded beside the projected ones and dropped again when the batches are aligned
to what the plan asked for; a count reads the time and delivers rows without a
column. A batch with fewer columns is followed beside the whole one, through the
load, the masks and the alignment.
-/

namespace TimeLake.Query

open TimeLake.Library TimeLake.Catalog TimeLake.Rows TimeLake.Ingest

section Deliver

/-- A row of the plan: a cell, or a null, for each column of the target. -/
abbrev PlanRow := List (Option Cell)

variable (castCell : ArrowType → ArrowType → Cell → Option Cell)

/-- The cell of a target column: the batch's, cast if it has another type there, and
a null if the batch has no such column. -/
def alignedCell (b : RecordBatch) (r : Record) (p : String × ArrowType) : Option Cell :=
  match b.column p.1 with
  | none => none
  | some ty => if ty = p.2 then r p.1 else (r p.1).bind (castCell ty p.2)

/-- The batches round robin over at most `n` partitions, over one if there is none. -/
def pack {β : Type} (n : Nat) (batches : List β) : List (List β) :=
  if batches.isEmpty then [[]]
  else (List.range (min (max n 1) batches.length)).map fun part =>
    (batches.zipIdx.filter fun p => p.2 % min (max n 1) batches.length = part).map Prod.fst

namespace LazyTable

variable (t : LazyTable)

/-- The fields of a projection: each is looked up by the name at its index. -/
def fieldsOf (idx : List Nat) : List (String × ArrowType) :=
  (idx.filterMap (t.schema[·]?)).filterMap fun p => (t.schema.lookup p.1).map fun ty => (p.1, ty)

def alignBatch (target : List (String × ArrowType)) (b : RecordBatch) :
    Except ScanError (List PlanRow) := do
  t.alignTo target b
  .ok (b.rows.map fun r => target.map (alignedCell castCell b r))

/-- A batch without columns that still has its rows. -/
def countOnly (b : RecordBatch) : List PlanRow := b.rows.map fun _ => []

/-- The batches as the plan asked for them: all of the presented schema, their
number only, or the projected columns. -/
def aligned (projection : Option (List Nat)) (kept : List RecordBatch) :
    Except ScanError (List (List PlanRow)) :=
  match projection with
  | none => kept.mapM (t.alignBatch castCell t.schema)
  | some [] => .ok (kept.map countOnly)
  | some idx => kept.mapM (t.alignBatch castCell (t.fieldsOf idx))

/-- The loaded batches, each passed through the masks. -/
def masked (projection : Option (List Nat)) (filters : List Expr) :
    Except ScanError (List RecordBatch) := do
  let batches ← t.loadPruned (extractPruning filters) (t.target projection).2
  batches.mapM t.restrict

/-- `LazyTable::scan` to its end: the partitions of the plan's source. -/
def deliver (partitions : Nat) (projection : Option (List Nat)) (filters : List Expr) :
    Except ScanError (List (List (List PlanRow))) := do
  let kept ← t.masked projection filters
  let aligned ← t.aligned castCell projection kept
  .ok (pack partitions aligned)

end LazyTable

def projectRow (idx : List Nat) (row : PlanRow) : PlanRow := idx.filterMap (row[·]?)

end Deliver

section Narrow

variable {needed : Option (List String)} {b b' : RecordBatch}

/-- A batch beside one with fewer columns: the same rows, and the same columns
among those that were asked for. -/
structure Narrowed (needed : Option (List String)) (b b' : RecordBatch) : Prop where
  rows : b'.rows = b.rows
  column : ∀ name, needed.all (·.contains name) = true → b'.column name = b.column name

theorem narrowed_project (needed : Option (List String)) (b : RecordBatch) :
    Narrowed needed b (needed.elim b b.project) := by
  cases needed with
  | none => exact ⟨rfl, fun _ _ => rfl⟩
  | some names =>
      refine ⟨rfl, fun name hname => ?_⟩
      rw [Option.elim_some, column_project, if_pos (by simpa using hname)]

theorem narrowed_decoded (f : DataFile) (g : RowGroup) (hg : g ∈ f.groups) (kept : List Record)
    (hkept : kept ⊆ g.rows) :
    Narrowed needed (decoded f none g hg kept hkept) (decoded f needed g hg kept hkept) := by
  refine ⟨rfl, fun name hname => ?_⟩
  unfold RecordBatch.column decoded
  dsimp only
  rw [column_viewSchema, column_viewSchema,
    lookup_filter_fst (fun name => needed.all (·.contains name)), if_pos hname,
    lookup_filter_fst (fun name => (none : Option (List String)).all (·.contains name)),
    Option.all_none, if_pos rfl]

theorem decodeGroup_narrowed (f : DataFile) (p : Pruning) (needed : Option (List String))
    (g : { g // g ∈ f.groups }) :
    Alike (Narrowed needed) (decodeGroup f p none g) (decodeGroup f p needed g) := by
  cases hfilter : rowFilter f p.tagEquals g.1.rows with
  | error e =>
      have herror : ∀ needed, decodeGroup f p needed g = .error e := by
        intro needed
        unfold decodeGroup
        split
        · next e' he => rw [hfilter] at he; rw [Except.error.inj he]
        · next kept hk => rw [hfilter] at hk; cases hk
      rw [herror, herror]
      rfl
  | ok kept =>
      have hok : ∀ needed, decodeGroup f p needed g =
          .ok (decoded f needed g.1 g.2 kept (rowFilter_subset f hfilter)) := by
        intro needed
        unfold decodeGroup
        split
        · next e he => rw [hfilter] at he; cases he
        · next kept' hk =>
          obtain rfl : kept = kept' := Except.ok.inj (hfilter.symm.trans hk)
          rfl
      rw [hok, hok]
      exact narrowed_decoded f g.1 g.2 kept _

theorem loadOneFile_narrowed (f : DataFile) (info : FileMeta) (p : Pruning)
    (needed : Option (List String)) :
    Alike (List.Forall₂ (Narrowed needed)) (loadOneFile f info p none)
      (loadOneFile f info p needed) := by
  unfold loadOneFile
  split
  · refine Alike.mapM (R := Eq) ?_ (List.forall₂_same.mpr fun _ _ => rfl)
    rintro g _ rfl
    exact decodeGroup_narrowed f p needed g
  · exact List.Forall₂.nil

variable (t : LazyTable)

theorem loadPruned_narrowed (p : Pruning) (needed : Option (List String)) :
    Alike (List.Forall₂ (Narrowed needed)) (t.loadPruned p none) (t.loadPruned p needed) := by
  unfold LazyTable.loadPruned
  have hfile : ∀ info, Alike (List.Forall₂ (Narrowed needed)) (t.loadFile p none info)
      (t.loadFile p needed info) := by
    intro info
    unfold LazyTable.loadFile
    split
    · split
      · rfl
      · exact List.Forall₂.nil
    · exact loadOneFile_narrowed _ info p needed
  have hfiles : Alike (List.Forall₂ (List.Forall₂ (Narrowed needed)))
      (t.files.mapM (t.loadFile p none)) (t.files.mapM (t.loadFile p needed)) := by
    refine Alike.mapM (R := Eq) ?_ (List.forall₂_same.mpr fun _ _ => rfl)
    rintro info _ rfl
    exact hfile info
  refine hfiles.bind fun loaded loaded' hloaded => ?_
  have hlive : List.Forall₂ (Narrowed needed)
      (t.buffer.map fun b => (none : Option _).elim b b.project)
      (t.buffer.map fun b => needed.elim b b.project) := by
    rw [List.forall₂_map_left_iff, List.forall₂_map_right_iff]
    exact List.forall₂_same.mpr fun b _ => narrowed_project needed b
  exact List.rel_append hlive (List.rel_flatten hloaded)

end Narrow

section Masks

variable {needed : Option (List String)} {b b' : RecordBatch}

theorem Narrowed.filter (h : Narrowed needed b b') (keep : Record → Bool) :
    Narrowed needed (b.filter keep) (b'.filter keep) :=
  ⟨congrArg (List.filter keep) h.rows, h.column⟩

theorem satisfiable_narrowed (h : Narrowed needed b b') (tags : List (String × String))
    (hcols : ∀ p ∈ tags, needed.all (·.contains p.1) = true) :
    satisfiable b' tags = satisfiable b tags := by
  induction tags with
  | nil => rfl
  | cons p rest ih =>
      rw [List.forall_mem_cons] at hcols
      obtain ⟨tag, value⟩ := p
      unfold satisfiable
      rw [h.column tag hcols.1, ih hcols.2]

theorem hasTime_narrowed (h : Narrowed needed b b')
    (htime : needed.all (·.contains "time") = true) : hasTime b' = hasTime b := by
  unfold hasTime
  rw [h.column "time" htime]

theorem deleted_narrowed (h : Narrowed needed b b')
    (htime : needed.all (·.contains "time") = true) (deletes : List Tombstone)
    (hcols : ∀ t ∈ deletes, ∀ p ∈ t.tagEquals, needed.all (·.contains p.1) = true) :
    deleted b' deletes = deleted b deletes := by
  induction deletes with
  | nil => rfl
  | cons t rest ih =>
      rw [List.forall_mem_cons] at hcols
      unfold deleted
      rw [satisfiable_narrowed h t.tagEquals hcols.1, ih hcols.2, hasTime_narrowed h htime]

/-- A mask does the same to both batches if its columns were asked for. -/
theorem applyRestriction_narrowed (h : Narrowed needed b b') (R : Restriction)
    (hcols : ∀ name ∈ R.requiredColumns, needed.all (·.contains name) = true) :
    Alike (Narrowed needed) (applyRestriction R b) (applyRestriction R b') := by
  cases R with
  | visibility column auths =>
      have hcolumn := h.column column (hcols column (List.mem_singleton.mpr rfl))
      show Alike _ (applyVisibility column auths b) (applyVisibility column auths b')
      unfold applyVisibility
      rw [hcolumn]
      split
      · exact h
      · split
        · exact h.filter _
        · rfl
  | tombstone deletes =>
      have htime := hcols "time" (mem_required_tombstone (.inl rfl))
      have htags : ∀ t ∈ deletes, ∀ p ∈ t.tagEquals, needed.all (·.contains p.1) = true :=
        fun t ht p hp => hcols p.1 (mem_required_tombstone (.inr ⟨t, ht, p, hp, rfl⟩))
      show Alike _ (applyTombstone deletes b) (applyTombstone deletes b')
      unfold applyTombstone
      rw [h.rows, deleted_narrowed h htime deletes htags]
      split
      · exact h
      · split
        · rfl
        · exact h.filter _

theorem applyAll_narrowed (h : Narrowed needed b b') (restrictions : List Restriction)
    (hcols : ∀ R ∈ restrictions, ∀ name ∈ R.requiredColumns,
      needed.all (·.contains name) = true) :
    Alike (Narrowed needed) (applyAll restrictions b) (applyAll restrictions b') := by
  induction restrictions generalizing b b' with
  | nil => exact h
  | cons R rest ih =>
      rw [List.forall_mem_cons] at hcols
      unfold applyAll
      rw [List.foldlM_cons, List.foldlM_cons]
      exact (applyRestriction_narrowed h R hcols.1).bind fun _ _ hnext => ih hnext hcols.2

theorem restrict_narrowed (t : LazyTable) (projection : Option (List Nat))
    (h : Narrowed (t.target projection).2 b b') :
    Alike (Narrowed (t.target projection).2) (t.restrict b) (t.restrict b') := by
  have hall := applyAll_narrowed h t.restrictions fun R hR name hname => required_needed hR hname
  unfold LazyTable.restrict
  cases hb : applyAll t.restrictions b with
  | error e =>
      rw [hb] at hall
      cases hb' : applyAll t.restrictions b' with
      | error e' =>
          rw [hb'] at hall
          exact congrArg ScanError.restriction hall
      | ok after' =>
          rw [hb'] at hall
          exact hall.elim
  | ok after =>
      rw [hb] at hall
      cases hb' : applyAll t.restrictions b' with
      | error e' =>
          rw [hb'] at hall
          exact hall.elim
      | ok after' =>
          rw [hb'] at hall
          exact hall

end Masks

section Align

variable {t : LazyTable} {castCell : ArrowType → ArrowType → Cell → Option Cell}
  {needed : Option (List String)} {b b' : RecordBatch} {target : List (String × ArrowType)}

theorem alignTo_eq_ok : t.alignTo target b = .ok () ↔
    ∀ p ∈ target, ∀ ty, b.column p.1 = some ty → ty = p.2 ∨ t.castable ty p.2 = true := by
  unfold LazyTable.alignTo
  induction target with
  | nil => simp [pure, Except.pure]
  | cons p rest ih =>
      rw [List.forall_mem_cons, ← ih]
      refine bind_eq_ok.trans ?_
      constructor
      · rintro ⟨⟨⟩, hhead, hrest⟩
        refine ⟨fun ty hty => ?_, hrest⟩
        dsimp only at hhead
        rw [hty] at hhead
        dsimp only at hhead
        split at hhead
        · next hfits => simpa using hfits
        · cases hhead
      · rintro ⟨hhead, hrest⟩
        refine ⟨(), ?_, hrest⟩
        dsimp only
        split
        · rfl
        · next ty hty => rw [if_pos (by simpa using hhead ty hty)]

theorem alignTo_error {e : ScanError} (h : t.alignTo target b = .error e) :
    ∃ source goal, e = .notCastable source goal := by
  unfold LazyTable.alignTo at h
  induction target with
  | nil => cases h
  | cons p rest ih =>
      rcases bind_eq_error.mp h with hhead | ⟨⟨⟩, _, hrest⟩
      · dsimp only at hhead
        split at hhead
        · cases hhead
        · split at hhead
          · cases hhead
          · exact ⟨_, _, (Except.error.inj hhead).symm⟩
      · exact ih hrest

/-- The alignment of a narrow batch succeeds where that of the whole one does, for
any part of the target. -/
theorem alignTo_narrowed (h : Narrowed needed b b') {fields : List (String × ArrowType)}
    (hsub : fields ⊆ target) (hfields : ∀ p ∈ fields, needed.all (·.contains p.1) = true)
    (halign : t.alignTo target b = .ok ()) : t.alignTo fields b' = .ok () := by
  rw [alignTo_eq_ok] at halign ⊢
  intro p hp ty hty
  rw [h.column p.1 (hfields p hp)] at hty
  exact halign p (hsub hp) ty hty

theorem alignedCell_narrowed (h : Narrowed needed b b') {p : String × ArrowType}
    (hp : needed.all (·.contains p.1) = true) (r : Record) :
    alignedCell castCell b' r p = alignedCell castCell b r p := by
  unfold alignedCell
  rw [h.column p.1 hp]

theorem projectRow_map (idx : List Nat) (fields : List (String × ArrowType))
    (f : String × ArrowType → Option Cell) :
    projectRow idx (fields.map f) = (idx.filterMap (fields[·]?)).map f := by
  unfold projectRow
  rw [List.map_filterMap]
  congr 1
  funext i
  exact List.getElem?_map

/-- The field at an index is the one its name finds, if no name stands twice. -/
theorem fieldsOf_eq (hnames : (t.schema.map Prod.fst).Nodup) (idx : List Nat) :
    t.fieldsOf idx = idx.filterMap (t.schema[·]?) := by
  unfold LazyTable.fieldsOf
  refine (List.filterMap_congr fun p hp => ?_).trans List.filterMap_some
  obtain ⟨i, _, hi⟩ := List.mem_filterMap.mp hp
  rw [(lookup_eq_some_of_nodup hnames).mpr (List.mem_of_getElem? hi)]
  rfl

/-- The projected columns are among those that are loaded. -/
theorem projected_needed {idx : List Nat} {p : String × ArrowType}
    (hp : p ∈ idx.filterMap (t.schema[·]?)) :
    (t.target (some idx)).2.all (·.contains p.1) = true := by
  cases idx with
  | nil => cases hp
  | cons i rest =>
      simp only [LazyTable.target, Option.all_some, List.contains_eq_mem, decide_eq_true_eq]
      exact List.mem_append_left _ (List.mem_map_of_mem hp)

theorem alignBatch_narrowed (hnames : (t.schema.map Prod.fst).Nodup) {idx : List Nat}
    (h : Narrowed (t.target (some idx)).2 b b') {rows : List PlanRow}
    (hrows : t.alignBatch castCell t.schema b = .ok rows) :
    t.alignBatch castCell (t.fieldsOf idx) b' = .ok (rows.map (projectRow idx)) := by
  obtain ⟨⟨⟩, halign, hrows⟩ := bind_eq_ok.mp hrows
  obtain rfl := Except.ok.inj hrows
  have hsub : idx.filterMap (t.schema[·]?) ⊆ t.schema := by
    intro p hp
    obtain ⟨i, _, hi⟩ := List.mem_filterMap.mp hp
    exact List.mem_of_getElem? hi
  rw [fieldsOf_eq hnames]
  refine bind_eq_ok.mpr ⟨(), alignTo_narrowed h hsub (fun p => projected_needed) halign, ?_⟩
  rw [h.rows, List.map_map]
  refine congrArg Except.ok (List.map_congr_left fun r _ => ?_)
  rw [Function.comp_apply, projectRow_map]
  exact List.map_congr_left fun p hp => alignedCell_narrowed h (projected_needed hp) r

/-- What is delivered of the narrow batches is the projection of what is delivered of
the whole ones. -/
theorem aligned_narrowed (hnames : (t.schema.map Prod.fst).Nodup) {idx : List Nat}
    {kept kept' : List RecordBatch} (h : List.Forall₂ (Narrowed (t.target (some idx)).2) kept kept')
    {rows : List (List PlanRow)} (hrows : t.aligned castCell none kept = .ok rows) :
    t.aligned castCell (some idx) kept' = .ok (rows.map (List.map (projectRow idx))) := by
  have hall := mapM_eq_ok.mp hrows
  have hnarrow : List.Forall₂ (fun b' out => ∃ b rows, Narrowed (t.target (some idx)).2 b b' ∧
      t.alignBatch castCell t.schema b = .ok rows ∧ out = rows.map (projectRow idx))
      kept' (rows.map (List.map (projectRow idx))) := by
    clear hrows
    induction h generalizing rows with
    | nil =>
        cases hall
        exact .nil
    | cons hbb _ ih =>
        cases hall with
        | cons hrow hrest => exact .cons ⟨_, _, hbb, hrow, rfl⟩ (ih hrest)
  cases idx with
  | nil =>
      have hcount : List.Forall₂ (fun b' out => LazyTable.countOnly b' = out) kept'
          (rows.map (List.map (projectRow []))) := by
        refine hnarrow.imp ?_
        rintro b' _ ⟨b, rows, hbb, hrow, rfl⟩
        obtain ⟨⟨⟩, _, hrow⟩ := bind_eq_ok.mp hrow
        obtain rfl := Except.ok.inj hrow
        rw [LazyTable.countOnly, hbb.rows, List.map_map]
        rfl
      rw [← List.forall₂_map_left_iff, List.forall₂_eq_eq_eq] at hcount
      exact congrArg Except.ok hcount
  | cons i rest =>
      refine mapM_eq_ok.mpr (hnarrow.imp ?_)
      rintro b' _ ⟨b, rows, hbb, hrow, rfl⟩
      exact alignBatch_narrowed hnames hbb hrow

theorem aligned_error {kept : List RecordBatch} {e : ScanError}
    (h : t.aligned castCell none kept = .error e) :
    ∃ source goal, e = .notCastable source goal := by
  obtain ⟨b, _, hb⟩ := exists_of_mapM_eq_error h
  rcases bind_eq_error.mp hb with halign | ⟨_, _, hrows⟩
  · exact alignTo_error halign
  · cases hrows

theorem pack_map {β γ : Type} (n : Nat) (f : β → γ) (batches : List β) :
    pack n (batches.map f) = (pack n batches).map (List.map f) := by
  unfold pack
  rw [List.isEmpty_map, List.length_map]
  split
  · rfl
  · rw [List.map_map]
    refine List.map_congr_left fun part _ => ?_
    rw [Function.comp_apply, List.zipIdx_map, List.filter_map, List.map_map, List.map_map]
    rfl

end Align

/-- For every table, session, tombstones and filters, and every projection, the empty
one of a count among them: where the scan of the full schema delivers rows, the
projected scan delivers the same rows, in the same partitions, batches and order,
each cut to the projected columns. Where the scan of the full schema fails, the
projected one fails alike, unless a column could not be cast to the type it is
presented with. No two columns of a presented schema share a name: the query engine
takes no other. -/
theorem projection_independent (t : LazyTable)
    (castCell : ArrowType → ArrowType → Cell → Option Cell) (partitions : Nat)
    (filters : List Expr) (idx : List Nat) (hnames : (t.schema.map Prod.fst).Nodup) :
    match t.deliver castCell partitions none filters with
    | .ok parts => t.deliver castCell partitions (some idx) filters =
        .ok (parts.map (List.map (List.map (projectRow idx))))
    | .error e => t.deliver castCell partitions (some idx) filters = .error e ∨
        ∃ source goal, e = .notCastable source goal := by
  have hmasked : Alike (List.Forall₂ (Narrowed (t.target (some idx)).2)) (t.masked none filters)
      (t.masked (some idx) filters) :=
    (loadPruned_narrowed t (extractPruning filters) (t.target (some idx)).2).bind
      fun _ _ hload => Alike.mapM (fun _ _ h => restrict_narrowed t (some idx) h) hload
  cases hwhole : t.masked none filters with
  | error e =>
      rw [hwhole] at hmasked
      have hfails : t.deliver castCell partitions none filters = .error e :=
        bind_eq_error.mpr (.inl hwhole)
      rw [hfails]
      exact .inl (bind_eq_error.mpr (.inl hmasked.eq_error))
  | ok kept =>
      rw [hwhole] at hmasked
      obtain ⟨kept', hnarrow, hkept⟩ := hmasked.eq_ok
      cases haligned : t.aligned castCell none kept with
      | error e =>
          have hfails : t.deliver castCell partitions none filters = .error e :=
            bind_eq_error.mpr (.inr ⟨kept, hwhole, bind_eq_error.mpr (.inl haligned)⟩)
          rw [hfails]
          exact .inr (aligned_error haligned)
      | ok rows =>
          have hdelivers : t.deliver castCell partitions none filters =
              .ok (pack partitions rows) :=
            bind_eq_ok.mpr ⟨kept, hwhole, bind_eq_ok.mpr ⟨rows, haligned, rfl⟩⟩
          have hrows := aligned_narrowed hnames hkept haligned
          rw [hdelivers]
          refine bind_eq_ok.mpr ⟨kept', hnarrow, bind_eq_ok.mpr ⟨_, hrows, ?_⟩⟩
          rw [pack_map]

/-- A row that anybody may see, in a batch without labels. -/
def plainBatch : RecordBatch where
  schema := [("time", .timestamp .nanosecond), ("host", .dictionary)]
  rows := [fun name => if name = "time" then some (.timestamp .nanosecond 7)
    else if name = "host" then some (.str "a") else none]
  typed := by
    intro p hp r hr c hc
    obtain rfl := List.mem_singleton.mp hr
    rcases List.mem_pair.mp hp with rfl | rfl
    · dsimp only at hc
      rw [if_pos rfl] at hc
      obtain rfl := Option.some.inj hc
      rfl
    · dsimp only at hc
      rw [if_neg (by decide), if_pos rfl] at hc
      obtain rfl := Option.some.inj hc
      rfl

/-- A table with a labelled row and a plain one, before a session without
authorizations. -/
def labelledBeside : LazyTable where
  name := "t"
  schema := [("time", .timestamp .nanosecond), ("_visibility", .utf8View), ("host", .utf8View)]
  buffer := [labelledBatch, plainBatch]
  files := []
  fetch := fun _ => none
  castable := fun _ _ => true
  session := ⟨[], []⟩
  whole := by
    intro b hb r hr name hname
    rcases List.mem_pair.mp hb with rfl | rfl
    · obtain rfl := List.mem_singleton.mp hr
      obtain ⟨c, hc⟩ := Option.isSome_iff_exists.mp hname
      rcases labelledReading_cells hc with ⟨rfl, _⟩ | ⟨rfl, _⟩ <;> decide
    · obtain rfl := List.mem_singleton.mp hr
      dsimp only at hname
      split at hname
      · next h => rw [h]; rfl
      · split at hname
        · next h => rw [h]; decide
        · cases hname

/-- The label decides although only the host is asked for. -/
theorem host_alone_delivered :
    labelledBeside.deliver (fun _ _ c => some c) 2 (some [2]) [] =
      .ok [[[]], [[[some (.str "a")]]]] := by
  have hwhole : labelledBeside.deliver (fun _ _ c => some c) 2 none [] =
      .ok [[[]], [[[some (.timestamp .nanosecond 7), none, some (.str "a")]]]] := by rfl
  have hprojected := projection_independent labelledBeside (fun _ _ c => some c) 2 [] [2]
    (by decide)
  rw [hwhole] at hprojected
  exact hprojected

end TimeLake.Query
